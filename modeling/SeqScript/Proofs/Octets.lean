import Mathlib
import SeqScript.Token.Lexer

/-!
# Reading bytes

The scan goes from character to character. Here a source is a row of bytes and is read from byte to
byte (`findings`, `read`): a byte below 128 is a character by itself, columns are bytes, and what a
string literal denotes is collected as bytes, which are the text of the token only if they are the
bytes of a text (`decode?`). Otherwise there is no reading.

A character that is no byte by itself has only bytes that are none (`le_of_mem_encode`). So every
byte of a character is in a class of characters if the character is (`Bytewise`), and a text is cut
at the same place as its bytes (`takeWhile_octets`, `dropWhile_octets`).
-/

namespace SeqScript

-- ---------------------------------------------------------------------------
-- Bytes
-- ---------------------------------------------------------------------------

/-- The bytes of a text. -/
def octets (cs : List Char) : List UInt8 := cs.flatMap String.utf8EncodeChar

theorem octets_cons (c : Char) (cs : List Char) :
    octets (c :: cs) = String.utf8EncodeChar c ++ octets cs := rfl

theorem octets_append (s t : List Char) : octets (s ++ t) = octets s ++ octets t :=
  List.flatMap_append

namespace Octets

/-- The character that a byte below 128 is by itself. -/
def letter (b : UInt8) : Char := Char.ofUInt8 b

theorem toNat_letter (b : UInt8) : (letter b).toNat = b.toNat := b.toNat_toUInt32

/-- The text that bytes are. Nothing is put in the place of bytes that are none. -/
def decode? (bs : List UInt8) : Option String := String.fromUTF8? bs.toByteArray

theorem toUTF8_eq (s : String) : s.toUTF8.data.toList = octets s.toList := by
  rw [String.toUTF8_eq_toByteArray, ← String.utf8Encode_toList]
  exact List.toList_data_toByteArray

theorem decode?_octets (cs : List Char) : decode? (octets cs) = some (String.ofList cs) := by
  have hvalid := (String.ofList cs).isValidUTF8
  rw [String.toByteArray_ofList] at hvalid
  exact dif_pos hvalid

theorem decode?_eq_some_iff {bs : List UInt8} {s : String} :
    decode? bs = some s ↔ bs = octets s.toList := by
  constructor
  · intro h
    rw [decode?, String.fromUTF8?] at h
    split at h
    · cases h
      rw [← toUTF8_eq]
      exact List.toList_data_toByteArray.symm
    · cases h
  · rintro rfl
    rw [decode?_octets, String.ofList_toList]

section

variable {c : Char}

theorem encode_ascii (h : c.toNat < 128) : String.utf8EncodeChar c = [c.toUInt8] := by
  apply String.utf8EncodeChar_eq_singleton
  rw [Char.utf8Size_eq_one_iff, UInt32.le_iff_toNat_le]
  exact Nat.le_of_lt_succ h

theorem letter_toUInt8 (h : c.toNat < 128) : letter c.toUInt8 = c := by
  have hbyte : c.toUInt8.toNat = c.toNat % 2 ^ 8 := c.val.toNat_toUInt8
  apply Char.ext
  apply UInt32.toNat_inj.mp
  show (letter c.toUInt8).toNat = c.toNat
  rw [toNat_letter, hbyte]
  exact Nat.mod_eq_of_lt (by omega)

/-- The bytes of any other character are none that a character is by itself. -/
theorem le_of_mem_encode (h : 128 ≤ c.toNat) :
    ∀ b ∈ String.utf8EncodeChar c, 128 ≤ (letter b).toNat := by
  have hbyte {n : Nat} (hlow : 128 ≤ n) (hhigh : n < 256) :
      128 ≤ (letter (UInt8.ofNat n)).toNat := by
    rw [toNat_letter, UInt8.toNat_ofNat_of_lt' hhigh]
    exact hlow
  have hval : ¬ c.val.toNat ≤ 127 := Nat.not_le.mpr h
  rw [String.utf8EncodeChar]
  simp only [if_neg hval]
  split_ifs
  all_goals
    simp only [List.forall_mem_cons, List.not_mem_nil, false_imp_iff, implies_true, and_true]
  · exact ⟨hbyte (by omega) (by omega), hbyte (by omega) (by omega)⟩
  · exact ⟨hbyte (by omega) (by omega), hbyte (by omega) (by omega), hbyte (by omega) (by omega)⟩
  · exact ⟨hbyte (by omega) (by omega), hbyte (by omega) (by omega), hbyte (by omega) (by omega),
      hbyte (by omega) (by omega)⟩

end

-- ---------------------------------------------------------------------------
-- Cutting bytes
-- ---------------------------------------------------------------------------

/-- A piece at the front of bytes and what follows it. There is no content where bytes should be a
text and are none. -/
structure Cut where
  text : List UInt8
  content : Option Content
  rest : List UInt8

/-- A string literal from behind its opening quote. -/
structure Quoted where
  text : List UInt8
  rest : List UInt8
  ending : Ending
  /-- The bytes that it denotes. -/
  buffer : List UInt8
  /-- The first unknown escape: how many bytes in, and its byte. -/
  bad : Option (Nat × UInt8)

/-- A literal with one more byte in front. -/
def Quoted.plain (b : UInt8) (s : Quoted) : Quoted :=
  { s with
    text := b :: s.text
    buffer := b :: s.buffer
    bad := s.bad.map fun (i, e) => (i + 1, e) }

/-- A literal with one more escape in front. -/
def Quoted.escape (b e : UInt8) (s : Quoted) : Quoted :=
  let text := b :: e :: s.text
  match unescape? (letter e) with
  | some c => { s with
      text
      buffer := c.toUInt8 :: s.buffer
      bad := s.bad.map fun (i, e) => (i + 2, e) }
  | none => { s with text, bad := some (1, e) }

/-- Reads a string literal from behind its opening quote. -/
def readQuoted : List UInt8 → Quoted
  | [] => ⟨[], [], .unterminated, [], none⟩
  | b :: bs =>
    if letter b = '\n' then ⟨[], b :: bs, .unterminated, [], none⟩
    else if letter b = '"' then ⟨[b], bs, .closed, [], none⟩
    else if letter b = '\\' then
      match bs with
      | [] => ⟨[b], [], .dangling, [], none⟩
      | e :: rest => (readQuoted rest).escape b e
    else (readQuoted bs).plain b

/-- What a string literal is. Its bytes matter only if nothing is wrong with it. -/
def Quoted.content? (s : Quoted) : Option Content :=
  match s.ending with
  | .dangling => some .dangling
  | .unterminated => some (.problems [(0, .unterminatedString)])
  | .closed =>
    match s.bad with
    | some (i, e) => some (.problems [(i + 1, .unknownEscape e)])
    | none => (decode? s.buffer).map fun text => .token (.str text)

/-- A number, given its whole digits and what follows them. -/
def cutNumber (whole : List UInt8) : List UInt8 → Cut
  | p :: d :: rest =>
    if letter p = '.' ∧ Text.isDigit (letter d) = true then
      let fraction := d :: rest.takeWhile (Text.isDigit ∘ letter)
      let x := Binary64.ofDecimal (Text.digitsValue ((whole ++ fraction).map letter))
        (-fraction.length)
      ⟨whole ++ p :: fraction, some (.token (.float x)), rest.dropWhile (Text.isDigit ∘ letter)⟩
    else ⟨whole, some (integerContent (whole.map letter)), p :: d :: rest⟩
  | bs => ⟨whole, some (integerContent (whole.map letter)), bs⟩

/-- A block comment from behind its opening. -/
def cutComment : List UInt8 → List UInt8 × List UInt8
  | [] => ([], [])
  | [b] => ([b], [])
  | b :: d :: bs =>
    if letter b = '*' ∧ letter d = '/' then ([b, d], bs)
    else (b :: (cutComment (d :: bs)).1, (cutComment (d :: bs)).2)

/-- A sign of one byte, or a stray byte. -/
def singleByte (b : UInt8) : Content :=
  match singleSign? (letter b) with
  | some s => .token (.sign s)
  | none => .problems [(0, if letter b = '!' then .bareBang else .unexpectedByte b)]

/-- A sign, as long as possible, or a stray byte. -/
def cutSign (b : UInt8) : List UInt8 → Cut
  | [] => ⟨[b], some (singleByte b), []⟩
  | d :: rest =>
    match pairSign? (letter b) (letter d) with
    | some s => ⟨[b, d], some (.token (.sign s)), rest⟩
    | none => ⟨[b], some (singleByte b), d :: rest⟩

/-- A sign, a comment, or a stray byte. -/
def cutOther (b : UInt8) (bs : List UInt8) : Cut :=
  match bs with
  | d :: rest =>
    if letter b = '/' ∧ letter d = '/' then
      ⟨b :: d :: rest.takeWhile (beforeNewline ∘ letter), some .blank,
        rest.dropWhile (beforeNewline ∘ letter)⟩
    else if letter b = '/' ∧ letter d = '*' then
      ⟨b :: d :: (cutComment rest).1, some .blank, (cutComment rest).2⟩
    else cutSign b bs
  | [] => cutSign b bs

/-- The piece at the front of bytes that begin with `b`. -/
def cut (b : UInt8) (bs : List UInt8) : Cut :=
  if isSpace (letter b) then
    ⟨b :: bs.takeWhile (isSpace ∘ letter), some .blank, bs.dropWhile (isSpace ∘ letter)⟩
  else if isNameStart (letter b) then
    let word := b :: bs.takeWhile (isNamePart ∘ letter)
    ⟨word, some (.token (wordToken (String.ofList (word.map letter)))),
      bs.dropWhile (isNamePart ∘ letter)⟩
  else if Text.isDigit (letter b) then
    cutNumber (b :: bs.takeWhile (Text.isDigit ∘ letter)) (bs.dropWhile (Text.isDigit ∘ letter))
  else if letter b = '"' then
    ⟨b :: (readQuoted bs).text, (readQuoted bs).content?, (readQuoted bs).rest⟩
  else cutOther b bs

-- Nothing is lost: a piece and what follows it are the bytes they were cut from.

theorem readQuoted_append (bs : List UInt8) :
    (readQuoted bs).text ++ (readQuoted bs).rest = bs := by
  fun_induction readQuoted bs with
  | case1 => rfl
  | case2 => rfl
  | case3 => rfl
  | case4 => rfl
  | case5 b _ _ _ e rest ih =>
    have htext : ((readQuoted rest).escape b e).text = b :: e :: (readQuoted rest).text := by
      unfold Quoted.escape
      split <;> rfl
    have hrest : ((readQuoted rest).escape b e).rest = (readQuoted rest).rest := by
      unfold Quoted.escape
      split <;> rfl
    rw [htext, hrest, List.cons_append, List.cons_append, ih]
  | case6 b bs _ _ _ ih => exact congrArg (b :: ·) ih

theorem cutNumber_append (whole bs : List UInt8) :
    (cutNumber whole bs).text ++ (cutNumber whole bs).rest = whole ++ bs := by
  unfold cutNumber
  split
  · split <;> simp
  · rfl

theorem cutComment_append (bs : List UInt8) : (cutComment bs).1 ++ (cutComment bs).2 = bs := by
  fun_induction cutComment bs with
  | case1 => rfl
  | case2 => rfl
  | case3 => rfl
  | case4 b d bs _ ih => exact congrArg (b :: ·) ih

theorem cutSign_append (b : UInt8) (bs : List UInt8) :
    (cutSign b bs).text ++ (cutSign b bs).rest = b :: bs := by
  unfold cutSign
  split
  · rfl
  · split <;> rfl

theorem cut_append (b : UInt8) (bs : List UInt8) :
    (cut b bs).text ++ (cut b bs).rest = b :: bs := by
  unfold cut
  split_ifs
  · exact congrArg (b :: ·) List.takeWhile_append_dropWhile
  · exact congrArg (b :: ·) List.takeWhile_append_dropWhile
  · rw [cutNumber_append, List.cons_append, List.takeWhile_append_dropWhile]
  · exact congrArg (b :: ·) (readQuoted_append bs)
  · unfold cutOther
    split
    · next d rest =>
      split_ifs
      · exact congrArg (b :: d :: ·) List.takeWhile_append_dropWhile
      · exact congrArg (b :: d :: ·) (cutComment_append rest)
      · exact cutSign_append b _
    · exact cutSign_append b _

/-- Every piece has at least one byte. -/
theorem cut_text_ne_nil (b : UInt8) (bs : List UInt8) : (cut b bs).text ≠ [] := by
  have hsign (bs : List UInt8) : (cutSign b bs).text ≠ [] := by
    unfold cutSign
    split
    · exact List.cons_ne_nil _ _
    · split <;> exact List.cons_ne_nil _ _
  unfold cut
  split_ifs
  · exact List.cons_ne_nil _ _
  · exact List.cons_ne_nil _ _
  · unfold cutNumber
    split
    · split <;> exact List.cons_ne_nil _ _
    · exact List.cons_ne_nil _ _
  · exact List.cons_ne_nil _ _
  · unfold cutOther
    split
    · split_ifs
      · exact List.cons_ne_nil _ _
      · exact List.cons_ne_nil _ _
      · exact hsign _
    · exact hsign _

theorem length_rest_cut (b : UInt8) (bs : List UInt8) :
    (cut b bs).rest.length < (b :: bs).length := by
  have happ := congrArg List.length (cut_append b bs)
  have hpos := List.length_pos_iff.mpr (cut_text_ne_nil b bs)
  rw [List.length_append] at happ
  omega

-- ---------------------------------------------------------------------------
-- Readings
-- ---------------------------------------------------------------------------

/-- The place behind a byte. -/
def step (p : Place) (b : UInt8) : Place :=
  if letter b = '\n' then ⟨p.line + 1, 1⟩ else ⟨p.line, p.column + 1⟩

/-- The place behind bytes. -/
def beyond (p : Place) (bs : List UInt8) : Place := bs.foldl step p

/-- What is found in a source. -/
inductive Finding where
  | lexeme (l : Lexeme)
  | problem (d : Diagnostic)
  /-- The source ends where an escape should go on. -/
  | dangling
  /-- The bytes of a string literal are no text. -/
  | malformed
  deriving DecidableEq

namespace Finding

def lexeme? : Finding → Option Lexeme
  | lexeme l => some l
  | _ => none

def problem? : Finding → Option Diagnostic
  | problem d => some d
  | _ => none

end Finding

/-- What is found in a piece that stands at `p`. -/
def found (p : Place) : Option Content → List Finding
  | some .blank => []
  | some (.token t) => [.lexeme ⟨t, p⟩]
  | some (.problems ps) => ps.map fun (i, problem) => .problem ⟨p.shifted i, problem⟩
  | some .dangling => [.dangling]
  | none => [.malformed]

/-- What is found in bytes that stand at `p`. -/
def findings (p : Place) : List UInt8 → List Finding
  | [] => []
  | b :: bs => found p (cut b bs).content ++ findings (beyond p (cut b bs).text) (cut b bs).rest
termination_by bs => bs.length
decreasing_by exact length_rest_cut b bs

/-- Reads the tokens of a source, given by its bytes. -/
def read (bs : List UInt8) : Option Reading :=
  let fs := findings Place.start bs
  if .malformed ∈ fs then none
  else if .dangling ∈ fs then some .dangling
  else
    match fs.filterMap Finding.problem? with
    | [] => some (.tokens (fs.filterMap Finding.lexeme? ++ [⟨.eof, beyond Place.start bs⟩]))
    | ds => some (.problems ds)

-- ---------------------------------------------------------------------------
-- Classes of characters
-- ---------------------------------------------------------------------------

section

variable {c : Char}

theorem ne_of_high (h : 128 ≤ c.toNat) {k : Char} (hk : k.toNat < 128) : c ≠ k := by
  rintro rfl
  omega

theorem not_le_of_high (h : 128 ≤ c.toNat) {k : Char} (hk : k.toNat < 128) : ¬ c ≤ k := by
  intro hle
  have hnat : c.toNat ≤ k.toNat := hle
  omega

/-- A class of characters that are bytes by themselves. -/
theorem ascii_of_class {p : Char → Bool} (hp : ∀ {c : Char}, 128 ≤ c.toNat → p c = false)
    (h : p c = true) : c.toNat < 128 := by
  by_contra hhigh
  rw [hp (Nat.not_lt.mp hhigh)] at h
  cases h

theorem isSpace_high (h : 128 ≤ c.toNat) : isSpace c = false := by
  simp [isSpace, ne_of_high h]

theorem isDigit_high (h : 128 ≤ c.toNat) : Text.isDigit c = false := by
  simp [Text.isDigit, not_le_of_high h]

theorem isNameStart_high (h : 128 ≤ c.toNat) : isNameStart c = false := by
  simp [isNameStart, isLetter, not_le_of_high h, ne_of_high h]

theorem isNamePart_high (h : 128 ≤ c.toNat) : isNamePart c = false := by
  simp [isNamePart, isLetter, isDigit_high h, not_le_of_high h, ne_of_high h]

theorem beforeNewline_high (h : 128 ≤ c.toNat) : beforeNewline c = true := by
  simp [beforeNewline, ne_of_high h]

theorem singleSign?_high (h : 128 ≤ c.toNat) : singleSign? c = none := by
  unfold singleSign?
  split
  case h_19 => rfl
  all_goals exact absurd h (by decide)

theorem unescape?_high (h : 128 ≤ c.toNat) : unescape? c = none := by
  unfold unescape?
  split
  case h_5 => rfl
  all_goals exact absurd h (by decide)

theorem pairSign?_high {d : Char} (h : 128 ≤ c.toNat ∨ 128 ≤ d.toNat) : pairSign? c d = none := by
  unfold pairSign?
  split
  case h_11 => rfl
  all_goals exact absurd h (by decide)

end

-- ---------------------------------------------------------------------------
-- Texts as bytes
-- ---------------------------------------------------------------------------

theorem exists_cons_encode (c : Char) : ∃ b bs, String.utf8EncodeChar c = b :: bs := by
  apply List.exists_cons_of_ne_nil
  intro hnil
  have hlength := String.length_utf8EncodeChar c
  rw [hnil] at hlength
  exact absurd hlength c.utf8Size_pos.ne

theorem exists_octets_cons (c : Char) (cs : List Char) :
    ∃ b bs, b ∈ String.utf8EncodeChar c ∧ octets (c :: cs) = b :: (bs ++ octets cs) := by
  obtain ⟨b, bs, hbytes⟩ := exists_cons_encode c
  rw [octets_cons, hbytes]
  exact ⟨b, bs, List.mem_cons_self, rfl⟩

theorem octets_cons_ascii {c : Char} (h : c.toNat < 128) (cs : List Char) :
    octets (c :: cs) = c.toUInt8 :: octets cs := by
  rw [octets_cons, encode_ascii h]
  rfl

theorem map_letter_octets {cs : List Char} (h : ∀ c ∈ cs, c.toNat < 128) :
    (octets cs).map letter = cs := by
  induction cs with
  | nil => rfl
  | cons c cs ih =>
    obtain ⟨hc, hcs⟩ := List.forall_mem_cons.mp h
    rw [octets_cons_ascii hc, List.map_cons, letter_toUInt8 hc, ih hcs]

/-- Every byte of a character is in a class if the character is. -/
def Bytewise (p : Char → Bool) : Prop := ∀ c, ∀ b ∈ String.utf8EncodeChar c, p (letter b) = p c

/-- A class that holds of all characters that are no bytes by themselves, or of none. -/
theorem bytewise {p : Char → Bool} (v : Bool) (hp : ∀ {c : Char}, 128 ≤ c.toNat → p c = v) :
    Bytewise p := by
  intro c b hb
  rcases lt_or_ge c.toNat 128 with hc | hc
  · rw [encode_ascii hc, List.mem_singleton] at hb
    rw [hb, letter_toUInt8 hc]
  · rw [hp hc, hp (le_of_mem_encode hc b hb)]

section

variable {p : Char → Bool} (hp : Bytewise p) (cs : List Char)

include hp

theorem takeWhile_octets : (octets cs).takeWhile (p ∘ letter) = octets (cs.takeWhile p) := by
  induction cs with
  | nil => rfl
  | cons c cs ih =>
    by_cases hc : p c = true
    · have hall : ∀ b ∈ String.utf8EncodeChar c, (p ∘ letter) b = true :=
        fun b hb => (hp c b hb).trans hc
      rw [octets_cons, List.takeWhile_append_of_pos hall, ih, List.takeWhile_cons_of_pos hc,
        octets_cons]
    · obtain ⟨b, bs, hmem, hbytes⟩ := exists_octets_cons c cs
      have hb : ¬ (p ∘ letter) b = true := by rwa [Function.comp_apply, hp c b hmem]
      rw [hbytes, List.takeWhile_cons_of_neg hb, List.takeWhile_cons_of_neg hc]
      rfl

theorem dropWhile_octets : (octets cs).dropWhile (p ∘ letter) = octets (cs.dropWhile p) := by
  induction cs with
  | nil => rfl
  | cons c cs ih =>
    by_cases hc : p c = true
    · have hall : ∀ b ∈ String.utf8EncodeChar c, (p ∘ letter) b = true :=
        fun b hb => (hp c b hb).trans hc
      rw [octets_cons, List.dropWhile_append_of_pos hall, ih, List.dropWhile_cons_of_pos hc]
    · obtain ⟨b, bs, hmem, hbytes⟩ := exists_octets_cons c cs
      have hb : ¬ (p ∘ letter) b = true := by rwa [Function.comp_apply, hp c b hmem]
      rw [List.dropWhile_cons_of_neg hc, hbytes, List.dropWhile_cons_of_neg hb]

end

theorem step_high (p : Place) {b : UInt8} (hb : 128 ≤ (letter b).toNat) : step p b = p.shifted 1 :=
  if_neg (ne_of_high hb (by decide))

theorem shifted_shifted (p : Place) (i j : Nat) : (p.shifted i).shifted j = p.shifted (i + j) :=
  congrArg (Place.mk p.line) (Nat.add_assoc p.column i j)

theorem beyond_high (p : Place) {bs : List UInt8} (hbs : ∀ b ∈ bs, 128 ≤ (letter b).toNat) :
    beyond p bs = p.shifted bs.length := by
  induction bs generalizing p with
  | nil => rfl
  | cons b bs ih =>
    obtain ⟨hb, hbs⟩ := List.forall_mem_cons.mp hbs
    show beyond (step p b) bs = _
    rw [step_high p hb, ih _ hbs, shifted_shifted, Nat.add_comm]
    rfl

theorem beyond_encode (p : Place) (c : Char) : beyond p (String.utf8EncodeChar c) = p.next c := by
  rcases lt_or_ge c.toNat 128 with hc | hc
  · have hsize := String.length_utf8EncodeChar c
    rw [encode_ascii hc] at hsize ⊢
    show step p c.toUInt8 = p.next c
    rw [step, Place.next, letter_toUInt8 hc, ← hsize]
    rfl
  · rw [beyond_high p (le_of_mem_encode hc), String.length_utf8EncodeChar, Place.next,
      if_neg (ne_of_high hc (by decide))]
    rfl

/-- Places are counted in bytes. -/
theorem beyond_octets (p : Place) (cs : List Char) : beyond p (octets cs) = p.past cs := by
  induction cs generalizing p with
  | nil => rfl
  | cons c cs ih =>
    calc beyond p (octets (c :: cs)) = beyond (beyond p (String.utf8EncodeChar c)) (octets cs) :=
          List.foldl_append
      _ = p.past (c :: cs) := by rw [beyond_encode, ih]; rfl

end Octets

end SeqScript
