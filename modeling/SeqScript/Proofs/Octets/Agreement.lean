import Mathlib
import SeqScript.Proofs.LiteralTokens
import SeqScript.Proofs.Octets

/-!
# Bytes and characters are read alike

Piece by piece, what is read from the bytes of a source is what is read from its characters
(`follows_readQuoted`, `cut_ascii`, `findings_octets`), so that the readings are the same
(`read_octets`).

A character of several bytes is told apart in two places only. Outside of literals and comments each
of its bytes is a problem of its own. Behind a backslash its first byte is, and the others go into
the literal: the bytes that are collected then may be no text, but they are not used
(`Quoted.Follows`).

The main result is `string_literals_decode`.
-/

namespace SeqScript

namespace Octets

-- ---------------------------------------------------------------------------
-- String literals
-- ---------------------------------------------------------------------------

/-- A literal read from bytes is one read from characters. What was collected matters only if there
is no unknown escape. -/
structure Quoted.Follows (s : Quoted) (t : StringScan) : Prop where
  text : s.text = octets t.text
  rest : s.rest = octets t.rest
  ending : s.ending = t.ending
  bad : s.bad = t.bad
  buffer : t.bad = none → s.buffer = octets t.content

/-- A literal with more bytes in front. -/
def Quoted.plains (bs : List UInt8) (s : Quoted) : Quoted := bs.foldr Quoted.plain s

/-- More bytes in front move the place of the first unknown escape by their number. -/
theorem plains_eq (bs : List UInt8) (s : Quoted) :
    s.plains bs = { s with
      text := bs ++ s.text
      buffer := bs ++ s.buffer
      bad := s.bad.map fun (i, e) => (i + bs.length, e) } := by
  induction bs with
  | nil =>
    obtain ⟨text, rest, ending, buffer, _ | ⟨i, e⟩⟩ := s
    · rfl
    · rfl
  | cons b bs ih =>
    show (s.plains bs).plain b = _
    rw [ih]
    obtain ⟨text, rest, ending, buffer, _ | ⟨i, e⟩⟩ := s
    · rfl
    · rfl

section

variable {b : UInt8}

theorem readQuoted_newline (hb : letter b = '\n') (bs : List UInt8) :
    readQuoted (b :: bs) = ⟨[], b :: bs, .unterminated, [], none⟩ := by
  rw [readQuoted.eq_def]
  exact if_pos hb

theorem readQuoted_quote (hb : letter b = '"') (bs : List UInt8) :
    readQuoted (b :: bs) = ⟨[b], bs, .closed, [], none⟩ := by
  rw [readQuoted.eq_def]
  simp only [hb]
  rfl

/-- Behind a backslash the next byte belongs to the escape, whatever it is. -/
theorem readQuoted_escape (hb : letter b = '\\') (e : UInt8) (bs : List UInt8) :
    readQuoted (b :: e :: bs) = (readQuoted bs).escape b e := by
  rw [readQuoted.eq_def]
  simp only [hb]
  rfl

/-- Any other byte stands for itself. -/
theorem readQuoted_plain (hnewline : letter b ≠ '\n') (hquote : letter b ≠ '"')
    (hslash : letter b ≠ '\\') (bs : List UInt8) :
    readQuoted (b :: bs) = (readQuoted bs).plain b := by
  rw [readQuoted.eq_def]
  simp only [if_neg hnewline, if_neg hquote, if_neg hslash]

/-- Bytes that are no characters by themselves are collected. -/
theorem readQuoted_high {bs : List UInt8} (hbs : ∀ b ∈ bs, 128 ≤ (letter b).toNat)
    (rest : List UInt8) :
    readQuoted (bs ++ rest) = (readQuoted rest).plains bs := by
  induction bs with
  | nil => rfl
  | cons b bs ih =>
    obtain ⟨hb, hbs⟩ := List.forall_mem_cons.mp hbs
    have hstep := readQuoted_plain (ne_of_high hb (by decide)) (ne_of_high hb (by decide))
      (ne_of_high hb (by decide)) (bs ++ rest)
    rw [List.cons_append, hstep, ih hbs]
    rfl

end

/-- What an escape stands for is a byte by itself. -/
theorem unescape?_ascii {e c : Char} (h : unescape? e = some c) : c.toNat < 128 := by
  unfold unescape? at h
  split at h
  case h_5 => cases h
  all_goals
    cases h
    decide

namespace Quoted.Follows

variable {s : Quoted} {t : StringScan}

/-- A character that stands for itself, as its bytes. -/
theorem plains (h : s.Follows t) (c : Char) :
    (s.plains (String.utf8EncodeChar c)).Follows (t.plain c) := by
  rw [plains_eq]
  constructor
  · rw [h.text]
    rfl
  · exact h.rest
  · exact h.ending
  · rw [h.bad, String.length_utf8EncodeChar]
    rfl
  · intro hbad
    rw [h.buffer (Option.map_eq_none_iff.mp hbad)]
    rfl

/-- An escape whose character is a byte by itself. -/
theorem escape_ascii (h : s.Follows t) {e : Char} (he : e.toNat < 128) :
    (s.escape '\\'.toUInt8 e.toUInt8).Follows (t.escape e) := by
  have hcode := encode_ascii he
  have htext : '\\'.toUInt8 :: e.toUInt8 :: s.text = octets ('\\' :: e :: t.text) := by
    rw [octets_cons_ascii (by decide), octets_cons_ascii he, h.text]
  have hsize : e.utf8Size = 1 := by
    rw [← String.length_utf8EncodeChar, hcode]
    rfl
  cases hc : unescape? e with
  | none =>
    simp only [Quoted.escape, StringScan.escape, letter_toUInt8 he, hc, hcode]
    exact ⟨htext, h.rest, h.ending, rfl, nofun⟩
  | some c =>
    simp only [Quoted.escape, StringScan.escape, letter_toUInt8 he, hc, hsize]
    refine ⟨htext, h.rest, h.ending, ?_, ?_⟩
    · rw [h.bad]
    · intro hbad
      rw [h.buffer (Option.map_eq_none_iff.mp hbad), octets_cons_ascii (unescape?_ascii hc)]

/-- Behind a backslash only the first byte of a character is wrong, and the others are collected. -/
theorem escape_high (h : s.Follows t) {e : Char} (he : 128 ≤ e.toNat) {b : UInt8} {bs : List UInt8}
    (hbytes : String.utf8EncodeChar e = b :: bs) :
    ((s.plains bs).escape '\\'.toUInt8 b).Follows (t.escape e) := by
  have hb := le_of_mem_encode he b (hbytes ▸ List.mem_cons_self)
  have htext : '\\'.toUInt8 :: b :: (bs ++ s.text) = octets ('\\' :: e :: t.text) := by
    rw [octets_cons_ascii (by decide), octets_cons, hbytes, h.text]
    rfl
  simp only [Quoted.escape, StringScan.escape, unescape?_high hb, unescape?_high he, plains_eq,
    hbytes]
  exact ⟨htext, h.rest, h.ending, rfl, nofun⟩

/-- Literals that follow each other are the same piece: the bytes that were collected are a text
wherever they are used. -/
theorem content? (h : s.Follows t) : s.content? = some t.toContent := by
  rw [Quoted.content?, h.ending, h.bad]
  obtain ⟨text, rest, ending, content, bad⟩ := t
  obtain _ | _ | _ := ending
  · obtain _ | ⟨i, b⟩ := bad
    · simp only [h.buffer rfl, decode?_octets]
      rfl
    · rfl
  · rfl
  · rfl

end Quoted.Follows

/-- **A literal is read from its bytes as from its characters.** -/
theorem follows_readQuoted (cs : List Char) : (readQuoted (octets cs)).Follows (scanString cs) := by
  fun_induction scanString cs with
  | case1 => exact ⟨rfl, rfl, rfl, rfl, fun _ => rfl⟩
  | case2 rest =>
    rw [octets_cons_ascii (by decide), readQuoted_newline (by decide)]
    exact ⟨rfl, rfl, rfl, rfl, fun _ => rfl⟩
  | case3 rest =>
    rw [octets_cons_ascii (by decide), readQuoted_quote (by decide)]
    exact ⟨rfl, rfl, rfl, rfl, fun _ => rfl⟩
  | case4 => exact ⟨rfl, rfl, rfl, rfl, fun _ => rfl⟩
  | case5 e rest ih =>
    rw [octets_cons_ascii (by decide)]
    rcases lt_or_ge e.toNat 128 with he | he
    · rw [octets_cons_ascii he, readQuoted_escape (by decide)]
      exact ih.escape_ascii he
    · obtain ⟨b, bs, hbytes⟩ := exists_cons_encode e
      have hbs : ∀ b ∈ bs, 128 ≤ (letter b).toNat :=
        fun b hb => le_of_mem_encode he b (hbytes ▸ List.mem_cons_of_mem _ hb)
      rw [octets_cons, hbytes, List.cons_append, readQuoted_escape (by decide), readQuoted_high hbs]
      exact ih.escape_high he hbytes
  | case6 c rest hnewline hquote hlone hescape ih =>
    have hslash : c ≠ '\\' := by
      rintro rfl
      obtain _ | ⟨e, rest⟩ := rest
      · exact hlone rfl rfl
      · exact hescape e rest rfl rfl
    have hbytes : readQuoted (octets (c :: rest)) =
        (readQuoted (octets rest)).plains (String.utf8EncodeChar c) := by
      rcases lt_or_ge c.toNat 128 with hc | hc
      · have hletter := letter_toUInt8 hc
        rw [octets_cons_ascii hc, encode_ascii hc]
        apply readQuoted_plain <;> rwa [hletter]
      · rw [octets_cons, readQuoted_high (le_of_mem_encode hc)]
    rw [hbytes]
    exact ih.plains c

-- ---------------------------------------------------------------------------
-- Other pieces
-- ---------------------------------------------------------------------------

/-- A piece of characters as one of bytes. -/
def encoded (x : Piece × List Char) : Cut := ⟨octets x.1.text, some x.1.content, octets x.2⟩

/-- A byte is taken for a character only if it is one by itself. -/
theorem letter_eq_iff {k : Char} (hk : k.toNat < 128) {c : Char} {b : UInt8}
    (hb : b ∈ String.utf8EncodeChar c) : letter b = k ↔ c = k := by
  have hclass : Bytewise (· == k) := by
    apply bytewise false
    intro c hc
    exact beq_eq_false_iff_ne.mpr (ne_of_high hc hk)
  have hsame : (letter b == k) = (c == k) := hclass c b hb
  rw [← beq_iff_eq, hsame, beq_iff_eq]

/-- No byte of a text begins it that its first character is not. -/
theorem head_ne {k : Char} (hk : k.toNat < 128) {cs : List Char} (h : ∀ c ∈ cs.head?, c ≠ k) :
    ∀ b ∈ (octets cs).head?, letter b ≠ k := by
  obtain _ | ⟨c, cs⟩ := cs
  · exact nofun
  · obtain ⟨b, bs, hmem, hbytes⟩ := exists_octets_cons c cs
    rw [hbytes]
    rintro _ ⟨rfl⟩
    exact mt (letter_eq_iff hk hmem).mp (h c rfl)

section Numbers

theorem cutNumber_integer {bs : List UInt8} (h : ∀ b ∈ bs.head?, letter b ≠ '.')
    (whole : List UInt8) :
    cutNumber whole bs = ⟨whole, some (integerContent (whole.map letter)), bs⟩ := by
  unfold cutNumber
  split
  · next p d rest => exact if_neg fun hpoint => h p rfl hpoint.1
  · rfl

theorem scanNumber_integer {cs : List Char} (h : ∀ c ∈ cs.head?, c ≠ '.') (whole : List Char) :
    scanNumber whole cs = (⟨whole, integerContent whole⟩, cs) := by
  unfold scanNumber
  split
  · exact absurd rfl (h '.' rfl)
  · rfl

theorem bytewise_isDigit : Bytewise Text.isDigit := bytewise false isDigit_high

variable {whole : List Char} (hwhole : ∀ c ∈ whole, Text.isDigit c = true)

include hwhole

theorem map_letter_digits : (octets whole).map letter = whole :=
  map_letter_octets fun c hc => ascii_of_class isDigit_high (hwhole c hc)

theorem encoded_integer (cs : List Char) : encoded (⟨whole, integerContent whole⟩, cs) =
    ⟨octets whole, some (integerContent ((octets whole).map letter)), octets cs⟩ := by
  rw [map_letter_digits hwhole]
  rfl

/-- A point with a digit behind it belongs to the number. -/
theorem cutNumber_fraction {d : Char} (hd : Text.isDigit d = true) (rest : List Char) :
    cutNumber (octets whole) (octets ('.' :: d :: rest)) =
      encoded (scanNumber whole ('.' :: d :: rest)) := by
  have hascii := ascii_of_class isDigit_high hd
  have hfraction : ∀ c ∈ d :: rest.takeWhile Text.isDigit, Text.isDigit c = true :=
    List.forall_mem_cons.mpr ⟨hd, fun _ => List.mem_takeWhile_imp⟩
  have hmap := map_letter_digits hfraction
  have hlength := congrArg List.length hmap
  rw [octets_cons_ascii hascii] at hmap hlength
  rw [List.length_map] at hlength
  rw [scanNumber, if_pos hd, octets_cons_ascii (by decide), octets_cons_ascii hascii, cutNumber,
    if_pos ⟨by decide, by rwa [letter_toUInt8 hascii]⟩, takeWhile_octets bytewise_isDigit,
    dropWhile_octets bytewise_isDigit]
  simp only [List.map_append, map_letter_digits hwhole, hmap, hlength]
  rw [encoded, octets_append, octets_cons_ascii (by decide), octets_cons_ascii hascii]

/-- **Numbers.** What follows the digits decides, and a byte that is no character by itself is
neither point nor digit. -/
theorem cutNumber_octets (cs : List Char) :
    cutNumber (octets whole) (octets cs) = encoded (scanNumber whole cs) := by
  by_cases hpoint : ∀ c ∈ cs.head?, c ≠ '.'
  · rw [scanNumber_integer hpoint, cutNumber_integer (head_ne (by decide) hpoint),
      encoded_integer hwhole]
  · obtain ⟨ds, rfl⟩ : ∃ ds, cs = '.' :: ds := by
      obtain _ | ⟨c, ds⟩ := cs
      · exact absurd nofun hpoint
      · exact ⟨ds, by simpa using hpoint⟩
    obtain _ | ⟨d, rest⟩ := ds
    · exact (encoded_integer hwhole ['.']).symm
    · by_cases hd : Text.isDigit d = true
      · exact cutNumber_fraction hwhole hd rest
      · obtain ⟨b, bs, hmem, hbytes⟩ := exists_octets_cons d rest
        have hb : ¬ Text.isDigit (letter b) = true := by rwa [bytewise_isDigit d b hmem]
        rw [scanNumber, if_neg hd, encoded_integer hwhole, octets_cons_ascii (by decide), hbytes,
          cutNumber, if_neg fun hpoint => hb hpoint.2]

end Numbers

section Comments

theorem cutComment_cons {b : UInt8} {bs : List UInt8}
    (h : letter b = '*' → ∀ d ∈ bs.head?, letter d ≠ '/') :
    cutComment (b :: bs) = (b :: (cutComment bs).1, (cutComment bs).2) := by
  obtain _ | ⟨d, bs⟩ := bs
  · rfl
  · rw [cutComment, if_neg fun hclose => h hclose.1 d rfl hclose.2]

/-- Bytes that are no characters by themselves close no comment. -/
theorem cutComment_high {bs : List UInt8} (hbs : ∀ b ∈ bs, 128 ≤ (letter b).toNat)
    (rest : List UInt8) :
    cutComment (bs ++ rest) = (bs ++ (cutComment rest).1, (cutComment rest).2) := by
  induction bs with
  | nil => rfl
  | cons b bs ih =>
    obtain ⟨hb, hbs⟩ := List.forall_mem_cons.mp hbs
    rw [List.cons_append, cutComment_cons fun hstar => absurd hstar (ne_of_high hb (by decide)),
      ih hbs]
    rfl

/-- **Comments.** By induction on the characters. -/
theorem cutComment_octets (cs : List Char) : cutComment (octets cs) =
    (octets (scanBlockComment cs).1, octets (scanBlockComment cs).2) := by
  fun_induction scanBlockComment cs with
  | case1 => rfl
  | case2 rest => rfl
  | case3 c rest hclose ih =>
    rcases lt_or_ge c.toNat 128 with hc | hc
    · have hopen : letter c.toUInt8 = '*' → ∀ d ∈ (octets rest).head?, letter d ≠ '/' := by
        rw [letter_toUInt8 hc]
        intro hstar
        apply head_ne (by decide)
        rintro d hd rfl
        obtain ⟨more, rfl⟩ := List.head?_eq_some_iff.mp hd
        exact hclose more hstar rfl
      rw [octets_cons_ascii hc, cutComment_cons hopen, ih, octets_cons_ascii hc]
    · rw [octets_cons, cutComment_high (le_of_mem_encode hc), ih]
      rfl

end Comments

section Signs

variable {c : Char}

/-- A sign or a stray character that is one byte. -/
theorem singleByte_ascii (hc : c.toNat < 128) : singleByte c.toUInt8 = singleContent c := by
  rw [singleByte, singleContent, letter_toUInt8 hc, strayProblems, encode_ascii hc]
  obtain _ | s := singleSign? c
  · simp only
    split_ifs <;> rfl
  · rfl

/-- **Signs.** The second byte of a sign is a character by itself, or the sign has none. -/
theorem cutSign_octets (hc : c.toNat < 128) (cs : List Char) :
    cutSign c.toUInt8 (octets cs) = encoded (scanSign c cs) := by
  have hsingle (cs : List Char) : encoded (⟨[c], singleContent c⟩, cs) =
      ⟨[c.toUInt8], some (singleByte c.toUInt8), octets cs⟩ := by
    rw [singleByte_ascii hc, encoded, octets_cons_ascii hc]
    rfl
  obtain _ | ⟨d, rest⟩ := cs
  · exact (hsingle []).symm
  · rcases lt_or_ge d.toNat 128 with hd | hd
    · have hpair (s : Sign) : encoded (⟨[c, d], .token (.sign s)⟩, rest) =
          ⟨[c.toUInt8, d.toUInt8], some (.token (.sign s)), octets rest⟩ := by
        rw [encoded, octets_cons_ascii hc, octets_cons_ascii hd]
        rfl
      rw [scanSign, octets_cons_ascii hd, cutSign, letter_toUInt8 hc, letter_toUInt8 hd]
      obtain _ | s := pairSign? c d
      · simp only [hsingle, octets_cons_ascii hd]
      · simp only [hpair]
    · obtain ⟨b, bs, hmem, hbytes⟩ := exists_octets_cons d rest
      rw [scanSign, pairSign?_high (Or.inr hd)]
      simp only [hsingle]
      rw [hbytes, cutSign, pairSign?_high (Or.inr (le_of_mem_encode hd b hmem))]

end Signs

-- ---------------------------------------------------------------------------
-- Pieces
-- ---------------------------------------------------------------------------

section

variable {c : Char}

/-- The scan at a character that begins no blank, no name, no number and no string literal. -/
theorem scan_other (hspace : isSpace c = false) (hname : isNameStart c = false)
    (hdigit : Text.isDigit c = false) (hquote : c ≠ '"') (cs : List Char) :
    scan c cs =
      match cs with
      | d :: rest =>
        if c = '/' ∧ d = '/' then
          (⟨c :: d :: rest.takeWhile beforeNewline, .blank⟩, rest.dropWhile beforeNewline)
        else if c = '/' ∧ d = '*' then
          (⟨c :: d :: (scanBlockComment rest).1, .blank⟩, (scanBlockComment rest).2)
        else scanSign c cs
      | [] => scanSign c cs := by
  unfold scan
  simp only [hspace, hname, hdigit, Bool.false_eq_true, if_false]
  split
  · exact absurd rfl hquote
  · rfl
  · rfl
  · next hline hblock =>
    obtain _ | ⟨d, rest⟩ := cs
    · rfl
    · simp only
      rw [if_neg fun h => hline rest h.1 (by rw [h.2]),
        if_neg fun h => hblock rest h.1 (by rw [h.2])]

/-- What is left when blanks, names, numbers and literals are told apart. -/
theorem cutOther_octets (hc : c.toNat < 128) (hspace : isSpace c = false)
    (hname : isNameStart c = false) (hdigit : Text.isDigit c = false) (hquote : c ≠ '"')
    (cs : List Char) : cutOther c.toUInt8 (octets cs) = encoded (scan c cs) := by
  rw [scan_other hspace hname hdigit hquote]
  obtain _ | ⟨d, rest⟩ := cs
  · exact cutSign_octets hc []
  · have hletter := letter_toUInt8 hc
    have hnewline : Bytewise beforeNewline := bytewise true beforeNewline_high
    obtain ⟨b, bs, hmem, hbytes⟩ := exists_octets_cons d rest
    simp only
    split_ifs with hline hblock
    · obtain ⟨rfl, rfl⟩ := hline
      rw [octets_cons_ascii hc, cutOther, if_pos ⟨hletter, hletter⟩, takeWhile_octets hnewline,
        dropWhile_octets hnewline]
      rfl
    · obtain ⟨rfl, rfl⟩ := hblock
      rw [octets_cons_ascii (by decide), cutOther, if_neg (by decide), if_pos (by decide),
        cutComment_octets]
      rfl
    · have hnoLine : ¬ (letter c.toUInt8 = '/' ∧ letter b = '/') := by
        rwa [hletter, letter_eq_iff (by decide) hmem]
      have hnoBlock : ¬ (letter c.toUInt8 = '/' ∧ letter b = '*') := by
        rwa [hletter, letter_eq_iff (by decide) hmem]
      rw [← cutSign_octets hc, hbytes, cutOther, if_neg hnoLine, if_neg hnoBlock]

theorem cut_blank (hc : c.toNat < 128) (hspace : isSpace c = true) (cs : List Char) :
    cut c.toUInt8 (octets cs) = encoded (scan c cs) := by
  have hspaces : Bytewise isSpace := bytewise false isSpace_high
  unfold cut scan
  rw [letter_toUInt8 hc, if_pos hspace, if_pos hspace, takeWhile_octets hspaces,
    dropWhile_octets hspaces, encoded, octets_cons_ascii hc]

theorem cut_word (hspace : ¬ isSpace c = true) (hname : isNameStart c = true) (cs : List Char) :
    cut c.toUInt8 (octets cs) = encoded (scan c cs) := by
  have hc := ascii_of_class isNameStart_high hname
  have hparts : Bytewise isNamePart := bytewise false isNamePart_high
  have hword : ∀ d ∈ c :: cs.takeWhile isNamePart, d.toNat < 128 := by
    rw [List.forall_mem_cons]
    exact ⟨hc, fun d hd => ascii_of_class isNamePart_high (List.mem_takeWhile_imp hd)⟩
  have hletters := map_letter_octets hword
  rw [octets_cons_ascii hc] at hletters
  unfold cut scan
  rw [letter_toUInt8 hc, if_neg hspace, if_pos hname, if_neg hspace, if_pos hname,
    takeWhile_octets hparts, dropWhile_octets hparts]
  simp only [hletters]
  rw [encoded, octets_cons_ascii hc]

theorem cut_number (hspace : ¬ isSpace c = true) (hname : ¬ isNameStart c = true)
    (hdigit : Text.isDigit c = true) (cs : List Char) :
    cut c.toUInt8 (octets cs) = encoded (scan c cs) := by
  have hc := ascii_of_class isDigit_high hdigit
  have hwhole : ∀ d ∈ c :: cs.takeWhile Text.isDigit, Text.isDigit d = true :=
    List.forall_mem_cons.mpr ⟨hdigit, fun _ => List.mem_takeWhile_imp⟩
  have hnumber := cutNumber_octets hwhole (cs.dropWhile Text.isDigit)
  rw [octets_cons_ascii hc] at hnumber
  unfold cut scan
  rw [letter_toUInt8 hc, if_neg hspace, if_neg hname, if_pos hdigit, if_neg hspace, if_neg hname,
    if_pos hdigit, takeWhile_octets bytewise_isDigit, dropWhile_octets bytewise_isDigit, hnumber]

/-- A string literal with its opening quote. -/
theorem cut_string (cs : List Char) :
    cut '"'.toUInt8 (octets cs) = encoded (scan '"' cs) := by
  have hread := follows_readQuoted cs
  show Cut.mk (_ :: (readQuoted (octets cs)).text) _ _ = _
  rw [hread.text, hread.content?, hread.rest]
  rfl

/-- A character that is a byte by itself begins the same piece. -/
theorem cut_ascii (hc : c.toNat < 128) (cs : List Char) :
    cut c.toUInt8 (octets cs) = encoded (scan c cs) := by
  by_cases hspace : isSpace c = true
  · exact cut_blank hc hspace cs
  by_cases hname : isNameStart c = true
  · exact cut_word hspace hname cs
  by_cases hdigit : Text.isDigit c = true
  · exact cut_number hspace hname hdigit cs
  by_cases hquote : c = '"'
  · rw [hquote]
    exact cut_string cs
  · unfold cut
    rw [letter_toUInt8 hc, if_neg hspace, if_neg hname, if_neg hdigit, if_neg hquote]
    rw [Bool.not_eq_true] at hspace hname hdigit
    exact cutOther_octets hc hspace hname hdigit hquote cs

/-- Any other character is stray, and so is each of its bytes. -/
theorem scan_high (hc : 128 ≤ c.toNat) (cs : List Char) :
    scan c cs = (⟨[c], .problems (strayProblems c)⟩, cs) := by
  have hslash : c ≠ '/' := ne_of_high hc (by decide)
  have hsingle : singleContent c = .problems (strayProblems c) := by
    rw [singleContent, singleSign?_high hc]
  rw [scan_other (isSpace_high hc) (isNameStart_high hc) (isDigit_high hc)
    (ne_of_high hc (by decide))]
  obtain _ | ⟨d, rest⟩ := cs
  · rw [← hsingle]
    rfl
  · simp only
    rw [if_neg fun h => hslash h.1, if_neg fun h => hslash h.1, scanSign,
      pairSign?_high (Or.inl hc), hsingle]

/-- A byte that is no character by itself begins nothing. -/
theorem cut_high {b : UInt8} (hb : 128 ≤ (letter b).toNat) (bs : List UInt8) :
    cut b bs = ⟨[b], some (.problems [(0, .unexpectedByte b)]), bs⟩ := by
  have hslash : letter b ≠ '/' := ne_of_high hb (by decide)
  have hsingle : singleByte b = .problems [(0, .unexpectedByte b)] := by
    rw [singleByte, singleSign?_high hb]
    simp only
    rw [if_neg (ne_of_high hb (by decide))]
  unfold cut
  simp only [isSpace_high hb, isNameStart_high hb, isDigit_high hb, Bool.false_eq_true, if_false]
  rw [if_neg (ne_of_high hb (by decide)), ← hsingle]
  obtain _ | ⟨d, rest⟩ := bs
  · rfl
  · rw [cutOther, if_neg fun h => hslash h.1, if_neg fun h => hslash h.1, cutSign,
      pairSign?_high (Or.inl hb)]

end

-- ---------------------------------------------------------------------------
-- Readings agree
-- ---------------------------------------------------------------------------

/-- Outside of literals and comments each such byte is a problem. -/
theorem findings_high {bs : List UInt8} (hbs : ∀ b ∈ bs, 128 ≤ (letter b).toNat) (p : Place)
    (rest : List UInt8) :
    findings p (bs ++ rest) =
      bs.mapIdx (fun i b => .problem ⟨p.shifted i, .unexpectedByte b⟩) ++
        findings (beyond p bs) rest := by
  induction bs generalizing p with
  | nil => rfl
  | cons b bs ih =>
    obtain ⟨hb, hbs⟩ := List.forall_mem_cons.mp hbs
    have hbeyond : beyond p (b :: bs) = beyond (p.shifted 1) bs := by
      rw [← step_high p hb]
      rfl
    rw [List.cons_append, findings, cut_high hb]
    show _ ++ findings (step p b) (bs ++ rest) = _
    rw [step_high p hb, ih hbs, List.mapIdx_cons, hbeyond]
    simp only [shifted_shifted, Nat.add_comm 1]
    rfl

/-- What is found in the pieces of a text. -/
def pieceFindings (x : Place × Piece) : List Finding := found x.1 (some x.2.content)

/-- **A text is cut alike as characters and as bytes.** -/
theorem findings_octets (p : Place) (cs : List Char) :
    findings p (octets cs) = (placed p (pieces cs)).flatMap pieceFindings := by
  fun_induction pieces cs generalizing p with
  | case1 => exact findings.eq_1 p
  | case2 c cs ih =>
    rw [placed, List.flatMap_cons, ← ih]
    rcases lt_or_ge c.toNat 128 with hc | hc
    · rw [octets_cons_ascii hc, findings, cut_ascii hc]
      simp only [encoded, beyond_octets]
      rfl
    · have hstray : pieceFindings (p, ⟨[c], .problems (strayProblems c)⟩) =
          (String.utf8EncodeChar c).mapIdx
            fun i b => .problem ⟨p.shifted i, .unexpectedByte b⟩ := by
        rw [strayProblems, if_neg (ne_of_high hc (by decide))]
        show List.map _ (List.mapIdx _ _) = _
        rw [List.mapIdx_eq_zipIdx_map, List.mapIdx_eq_zipIdx_map, List.map_map]
        rfl
      rw [octets_cons, findings_high (le_of_mem_encode hc), scan_high hc, hstray, beyond_encode]
      rfl

section

variable (p : Place) (x : Piece)

/-- A piece of a text has the bytes of a text. -/
theorem malformed_not_found : .malformed ∉ pieceFindings (p, x) := by
  obtain ⟨text, content⟩ := x
  cases content <;> simp [pieceFindings, found]

theorem dangling_found_iff : .dangling ∈ pieceFindings (p, x) ↔ x.content = .dangling := by
  obtain ⟨text, content⟩ := x
  cases content <;> simp [pieceFindings, found]

/-- The problems of a piece are found in their order. -/
theorem problems_found :
    (pieceFindings (p, x)).filterMap Finding.problem? = pieceDiagnostics (p, x) := by
  obtain ⟨text, content⟩ := x
  cases content with
  | problems ps =>
    show ((ps.map _).filterMap _) = _
    rw [List.filterMap_map]
    exact congrFun List.filterMap_eq_map ps
  | blank | token | dangling => rfl

/-- So is its token. -/
theorem lexemes_found :
    (pieceFindings (p, x)).filterMap Finding.lexeme? = (pieceLexeme? (p, x)).toList := by
  obtain ⟨text, content⟩ := x
  cases content with
  | problems ps =>
    show ((ps.map _).filterMap _) = _
    rw [List.filterMap_map]
    exact List.filterMap_eq_nil_iff.mpr fun _ _ => rfl
  | blank | token | dangling => rfl

end

theorem map_snd_placed (p : Place) (xs : List Piece) : (placed p xs).map Prod.snd = xs := by
  induction xs generalizing p with
  | nil => rfl
  | cons x xs ih => exact congrArg (x :: ·) (ih _)

section

variable (xs : List (Place × Piece))

theorem malformed_not_mem : .malformed ∉ xs.flatMap pieceFindings := by
  rw [List.mem_flatMap]
  rintro ⟨⟨p, x⟩, -, hx⟩
  exact malformed_not_found p x hx

/-- The source ends too early exactly if a piece does. -/
theorem dangling_mem_iff : .dangling ∈ xs.flatMap pieceFindings ↔
    (xs.map Prod.snd).any (fun x => x.content = .dangling) = true := by
  simp only [List.mem_flatMap, List.any_map, List.any_eq_true, Function.comp_apply,
    decide_eq_true_eq]
  exact exists_congr fun x => and_congr_right fun _ => dangling_found_iff x.1 x.2

theorem filterMap_problem? :
    (xs.flatMap pieceFindings).filterMap Finding.problem? = xs.flatMap pieceDiagnostics := by
  rw [List.filterMap_flatMap]
  exact List.flatMap_congr fun x _ => problems_found x.1 x.2

theorem filterMap_lexeme? :
    (xs.flatMap pieceFindings).filterMap Finding.lexeme? = xs.filterMap pieceLexeme? := by
  rw [List.filterMap_flatMap, List.filterMap_eq_flatMap_toList]
  exact List.flatMap_congr fun x _ => lexemes_found x.1 x.2

end

/-- **Reading the bytes of a source gives what reading its characters gives.** The bytes of string
literals always are a text. -/
theorem read_octets (source : String) : read (octets source.toList) = some (tokenize source) := by
  have hdangling := dangling_mem_iff (placed Place.start (pieces source.toList))
  rw [map_snd_placed] at hdangling
  unfold read tokenize
  simp only [findings_octets, beyond_octets, if_neg (malformed_not_mem _), filterMap_problem?,
    filterMap_lexeme?, hdangling]
  split_ifs
  · rfl
  · obtain _ | ⟨d, ds⟩ := (placed Place.start (pieces source.toList)).flatMap pieceDiagnostics
    · rfl
    · rfl

end Octets

/-- **String literals decode what they encode.** A text is read back from its literal, in which only
backslashes, quotes, line ends and tabs are escaped. And every source gives the same if it is read
byte by byte and the bytes that a string literal denotes have to be the bytes of a text, without any
replacement. -/
theorem string_literals_decode :
    (∀ s : String, tokenize (literalText s) =
      .tokens [⟨.str s, ⟨1, 1⟩⟩, ⟨.eof, Place.behind (literalText s).toList⟩]) ∧
    (∀ source : String, Octets.read source.toUTF8.data.toList = some (tokenize source)) ∧
    ∀ (bs : List UInt8) (s : String), Octets.decode? bs = some s ↔ bs = s.toUTF8.data.toList := by
  refine ⟨tokenize_literalText, ?_, ?_⟩
  · intro source
    rw [Octets.toUTF8_eq]
    exact Octets.read_octets source
  · intro bs s
    rw [Octets.toUTF8_eq]
    exact Octets.decode?_eq_some_iff

-- Between quotes, a byte that no text has: these bytes are no source, and are refused.
example : Octets.read [0x22, 0xFF, 0x22] = none := by cbv

end SeqScript
