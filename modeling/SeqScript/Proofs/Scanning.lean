import SeqScript.Proofs.Tiling

/-!
# How reading a source ends

A reading gives tokens, or problems, or it has nothing behind a backslash to go
on with. Which of these happens is said here without the scan that cuts a source
into pieces: `Region.next` follows a source character by character and knows no
more than what is code, comment and string literal.

* `any_dangling_iff` — the scan lacks a character exactly if the source ends with a
  backslash and what is before it leaves a string literal open.
* `sorted_diagnostics` — problems are reported from left to right, no two of them
  at the same place.

What they say of a reading is `tokenize_eq_dangling_iff`, `tokens_end_mark` and
`problems_sorted`.
-/

namespace SeqScript

-- ---------------------------------------------------------------------------
-- Regions
-- ---------------------------------------------------------------------------

/-- What the next character of a source belongs to. -/
inductive Region where
  | code
  /-- Code, behind a slash that may open a comment. -/
  | slash
  /-- A comment that the line ends. -/
  | line
  /-- A comment between signs. -/
  | block
  /-- A comment between signs, behind a star that may close it. -/
  | star
  /-- A string literal. -/
  | literal
  /-- A string literal, behind a backslash that opens an escape. -/
  | escape
  deriving DecidableEq

namespace Region

/-- The region behind a character. The end of a line ends a string literal unless
it is part of an escape. -/
def next : Region → Char → Region
  | code, '"' => literal
  | code, '/' => slash
  | code, _ => code
  | slash, '"' => literal
  | slash, '/' => line
  | slash, '*' => block
  | slash, _ => code
  | line, '\n' => code
  | line, _ => line
  | block, '*' => star
  | block, _ => block
  | star, '/' => code
  | star, '*' => star
  | star, _ => block
  | literal, '"' => code
  | literal, '\n' => code
  | literal, '\\' => escape
  | literal, _ => literal
  | escape, _ => literal

/-- The region behind a text. -/
def after (r : Region) (text : List Char) : Region := text.foldl next r

/-- The region behind the beginning of a source. -/
def behind (before : List Char) : Region := code.after before

@[simp] theorem after_nil (r : Region) : r.after [] = r := rfl

@[simp] theorem after_cons (r : Region) (c : Char) (cs : List Char) :
    r.after (c :: cs) = (r.next c).after cs := rfl

@[simp] theorem after_append (r : Region) (s t : List Char) :
    r.after (s ++ t) = (r.after s).after t :=
  List.foldl_append

theorem next_code {c : Char} (hquote : c ≠ '"') (hslash : c ≠ '/') : code.next c = code := by
  unfold next
  split <;> simp_all

/-- Only a backslash in a string literal opens an escape. -/
theorem next_eq_escape_iff {r : Region} {c : Char} :
    r.next c = escape ↔ r = literal ∧ c = '\\' := by
  unfold next
  split <;> simp_all

/-- Characters that open nothing. -/
theorem after_code {cs : List Char} (h : ∀ c ∈ cs, c ≠ '"' ∧ c ≠ '/') : code.after cs = code := by
  induction cs with
  | nil => rfl
  | cons c cs ih =>
    rw [List.forall_mem_cons] at h
    rw [after_cons, next_code h.1.1 h.1.2, ih h.2]

/-- A text that ends in the middle of an escape ends with the backslash that
opens it. -/
theorem behind_eq_escape_iff {cs : List Char} :
    behind cs = escape ↔ ∃ before, cs = before ++ ['\\'] ∧ behind before = literal := by
  constructor
  · intro h
    induction cs using List.reverseRecOn with
    | nil => cases h
    | append_singleton before c =>
      rw [behind, after_append] at h
      obtain ⟨hliteral, rfl⟩ := next_eq_escape_iff.1 h
      exact ⟨before, rfl, hliteral⟩
  · rintro ⟨before, rfl, hliteral⟩
    rw [behind, after_append, ← behind, hliteral]
    rfl

/-- Going on from a region with a rest comes to the same as beginning anew, as
far as escapes go. -/
def Settled (r : Region) (rest : List Char) : Prop :=
  r.after rest = escape ↔ behind rest = escape

theorem settled_code (rest : List Char) : code.Settled rest := Iff.rfl

/-- A slash that opens no comment is like any other sign. -/
theorem settled_slash {rest : List Char} (h : ∀ d ∈ rest.head?, d ≠ '/' ∧ d ≠ '*') :
    slash.Settled rest := by
  cases rest with
  | nil => simp [Settled, behind]
  | cons d rest =>
    have hd := h d rfl
    have hsame : slash.next d = code.next d := by
      unfold next
      split <;> simp_all
    rw [Settled, behind, after_cons, after_cons, hsame]

/-- What the end of the line ends is over there. -/
theorem settled_of_newline {r : Region} {rest : List Char} (hr : r = line ∨ r = literal)
    (h : ∀ d ∈ rest.head?, d = '\n') : r.Settled rest := by
  cases rest with
  | nil => rcases hr with rfl | rfl <;> simp [Settled, behind]
  | cons d rest =>
    obtain rfl : d = '\n' := h d rfl
    rcases hr with rfl | rfl <;> rfl

end Region

-- ---------------------------------------------------------------------------
-- The regions of pieces
-- ---------------------------------------------------------------------------

/-- What a piece that is cut off in front of `rest` has to do with open escapes:
it is the one that lacks a character, or it leaves the matter to the rest. -/
def Piece.Bounded (x : Piece) (rest : List Char) : Prop :=
  Region.behind (x.text ++ rest) = .escape ↔ x.content = .dangling ∨ Region.behind rest = .escape

theorem bounded_of_settled {x : Piece} {rest : List Char} {r : Region}
    (hcontent : x.content ≠ .dangling) (hr : Region.behind x.text = r) (h : r.Settled rest) :
    x.Bounded rest := by
  have hsplit : Region.behind (x.text ++ rest) = r.after rest := by
    rw [← hr]
    exact Region.after_append ..
  have hrest : r.after rest = .escape ↔ Region.behind rest = .escape := h
  simp [Piece.Bounded, hsplit, hrest, hcontent]

/-- Text that opens nothing. -/
theorem bounded_of_code {x : Piece} {rest : List Char} (hcontent : x.content ≠ .dangling)
    (h : ∀ c ∈ x.text, c ≠ '"' ∧ c ≠ '/') : x.Bounded rest :=
  bounded_of_settled hcontent (Region.after_code h) (Region.settled_code rest)

theorem isSpace_opens_nothing {c : Char} (h : isSpace c = true) : c ≠ '"' ∧ c ≠ '/' := by
  constructor <;> rintro rfl <;> exact absurd h (by decide)

theorem isNamePart_opens_nothing {c : Char} (h : isNamePart c = true) : c ≠ '"' ∧ c ≠ '/' := by
  constructor <;> rintro rfl <;> exact absurd h (by decide)

theorem isDigit_opens_nothing {c : Char} (h : Text.isDigit c = true) : c ≠ '"' ∧ c ≠ '/' := by
  constructor <;> rintro rfl <;> exact absurd h (by decide)

theorem isNamePart_of_isNameStart {c : Char} (h : isNameStart c = true) : isNamePart c = true := by
  unfold isNameStart at h
  unfold isNamePart
  rcases Bool.or_eq_true_iff.1 h with h | h <;> simp [h]

theorem integerContent_ne_dangling (digits : List Char) : integerContent digits ≠ .dangling := by
  simp only [integerContent]
  split <;> simp

theorem bounded_number {whole rest : List Char} (h : ∀ c ∈ whole, Text.isDigit c = true) :
    (scanNumber whole rest).1.Bounded (scanNumber whole rest).2 := by
  have hwhole : ∀ c ∈ whole, c ≠ '"' ∧ c ≠ '/' := fun c hc => isDigit_opens_nothing (h c hc)
  unfold scanNumber
  split
  · next d ds =>
    split
    · next hd =>
      refine bounded_of_code (by simp) fun c hc => ?_
      rcases List.mem_append.1 hc with hc | hc
      · exact hwhole c hc
      rcases List.mem_cons.1 hc with rfl | hc
      · decide
      rcases List.mem_cons.1 hc with rfl | hc
      · exact isDigit_opens_nothing hd
      · exact isDigit_opens_nothing (List.all_eq_true.1 List.all_takeWhile c hc)
    · exact bounded_of_code (integerContent_ne_dangling whole) hwhole
  · exact bounded_of_code (integerContent_ne_dangling whole) hwhole

/-- Where a string literal leaves off, from behind its opening quote. -/
theorem after_scanString (cs : List Char) :
    match (scanString cs).ending with
    | .closed => Region.literal.after (scanString cs).text = .code
    | .unterminated => Region.literal.after (scanString cs).text = .literal ∧
        ∀ d ∈ (scanString cs).rest.head?, d = '\n'
    | .dangling => Region.literal.after (scanString cs).text = .escape ∧
        (scanString cs).rest = [] := by
  fun_induction scanString cs with
  | case1 => simp
  | case2 rest => simp
  | case3 rest => rfl
  | case4 => exact ⟨rfl, rfl⟩
  | case5 e rest ih =>
    have hparts : ((scanString rest).escape e).ending = (scanString rest).ending ∧
        ((scanString rest).escape e).rest = (scanString rest).rest ∧
        ((scanString rest).escape e).text = '\\' :: e :: (scanString rest).text := by
      unfold StringScan.escape
      split <;> simp
    rw [hparts.1, hparts.2.1, hparts.2.2]
    exact ih
  | case6 c rest hnewline hquote hlone hescape ih =>
    have hslash : c ≠ '\\' := by
      rintro rfl
      cases rest with
      | nil => exact hlone rfl rfl
      | cons e rest => exact hescape e rest rfl rfl
    have hnext : Region.literal.next c = .literal := by
      unfold Region.next
      split <;> simp_all
    simpa [StringScan.plain, hnext] using ih

theorem toContent_ne_dangling {s : StringScan} (h : s.ending ≠ .dangling) :
    s.toContent ≠ .dangling := by
  unfold StringScan.toContent
  split
  · next hdangling => exact absurd hdangling h
  · simp
  · split <;> simp

theorem bounded_string (cs : List Char) :
    Piece.Bounded ⟨'"' :: (scanString cs).text, (scanString cs).toContent⟩
      (scanString cs).rest := by
  have hafter := after_scanString cs
  cases hending : (scanString cs).ending with
  | dangling =>
    rw [hending] at hafter
    have hcontent : (scanString cs).toContent = .dangling := by rw [StringScan.toContent, hending]
    have hbehind : Region.behind ('"' :: (scanString cs).text) = .escape := hafter.1
    rw [Piece.Bounded, hafter.2, List.append_nil]
    simp [hbehind, hcontent]
  | unterminated =>
    rw [hending] at hafter
    exact bounded_of_settled (toContent_ne_dangling (by simp [hending])) hafter.1
      (Region.settled_of_newline (Or.inr rfl) hafter.2)
  | closed =>
    rw [hending] at hafter
    exact bounded_of_settled (toContent_ne_dangling (by simp [hending])) hafter
      (Region.settled_code _)

theorem bounded_lineComment (cs : List Char) :
    Piece.Bounded ⟨'/' :: '/' :: cs.takeWhile beforeNewline, .blank⟩
      (cs.dropWhile beforeNewline) := by
  have hline : ∀ text : List Char, (∀ c ∈ text, c ≠ '\n') → Region.line.after text = .line := by
    intro text htext
    induction text with
    | nil => rfl
    | cons c text ih =>
      rw [List.forall_mem_cons] at htext
      have hnext : Region.line.next c = .line := by
        unfold Region.next
        split <;> simp_all
      rw [Region.after_cons, hnext, ih htext.2]
  have hcomment : ∀ c ∈ cs.takeWhile beforeNewline, c ≠ '\n' := by
    intro c hc
    simpa [beforeNewline] using List.all_eq_true.1 List.all_takeWhile c hc
  have hrest : ∀ d ∈ (cs.dropWhile beforeNewline).head?, d = '\n' := by
    intro d hd
    simpa [beforeNewline] using head?_dropWhile d hd
  exact bounded_of_settled (by simp) (hline _ hcomment)
    (Region.settled_of_newline (Or.inl rfl) hrest)

/-- A comment between signs is over where the scan says so, or it goes on to the
end of the source. -/
theorem settled_blockComment (cs : List Char) :
    (Region.block.after (scanBlockComment cs).1).Settled (scanBlockComment cs).2 := by
  fun_induction scanBlockComment cs with
  | case1 => simp [Region.Settled, Region.behind]
  | case2 rest => exact Region.settled_code rest
  | case3 c rest hclose ih =>
    show ((Region.block.next c).after (scanBlockComment rest).1).Settled _
    by_cases hstar : c = '*'
    · subst hstar
      cases rest with
      | nil => simp [scanBlockComment, Region.next, Region.Settled, Region.behind]
      | cons d rest =>
        -- what follows the star is no slash, so it might as well not be there
        have hslash : d ≠ '/' := fun heq => hclose rest rfl (heq ▸ rfl)
        have hnext : (Region.block.next '*').next d = Region.block.next d := by
          simp only [Region.next]
          split <;> simp_all
        obtain ⟨text, htext⟩ : ∃ text, (scanBlockComment (d :: rest)).1 = d :: text := by
          rw [scanBlockComment.eq_def]
          split <;> simp_all
        rw [htext] at ih ⊢
        rw [Region.after_cons, hnext]
        exact ih
    · have hnext : Region.block.next c = .block := by
        unfold Region.next
        split <;> simp_all
      rw [hnext]
      exact ih

theorem behind_pairSign {c d : Char} {s : Sign} (h : pairSign? c d = some s) :
    Region.behind [c, d] = .code := by
  unfold pairSign? at h
  split at h
  case h_11 => cases h
  all_goals rfl

theorem singleContent_ne_dangling (c : Char) : singleContent c ≠ .dangling := by
  unfold singleContent
  split <;> simp

theorem bounded_sign {c : Char} {cs : List Char} (hquote : c ≠ '"')
    (hcomment : c = '/' → ∀ d ∈ cs.head?, d ≠ '/' ∧ d ≠ '*') :
    (scanSign c cs).1.Bounded (scanSign c cs).2 := by
  have hsingle : Piece.Bounded ⟨[c], singleContent c⟩ cs := by
    have hcontent := singleContent_ne_dangling c
    by_cases hslash : c = '/'
    · subst hslash
      exact bounded_of_settled hcontent rfl (Region.settled_slash (hcomment rfl))
    · exact bounded_of_code hcontent (by simp [hquote, hslash])
  cases cs with
  | nil => exact hsingle
  | cons d rest =>
    simp only [scanSign]
    split
    · next s hpair =>
      exact bounded_of_settled (by simp) (behind_pairSign hpair) (Region.settled_code rest)
    · exact hsingle

theorem bounded_scan (c : Char) (cs : List Char) : (scan c cs).1.Bounded (scan c cs).2 := by
  unfold scan
  split
  · next hspace =>
    refine bounded_of_code (by simp) (List.forall_mem_cons.2 ⟨isSpace_opens_nothing hspace, ?_⟩)
    exact fun d hd => isSpace_opens_nothing (List.all_eq_true.1 List.all_takeWhile d hd)
  split
  · next hname =>
    have hc := isNamePart_opens_nothing (isNamePart_of_isNameStart hname)
    refine bounded_of_code (by simp) (List.forall_mem_cons.2 ⟨hc, ?_⟩)
    exact fun d hd => isNamePart_opens_nothing (List.all_eq_true.1 List.all_takeWhile d hd)
  split
  · next hdigit =>
    refine bounded_number (List.forall_mem_cons.2 ⟨hdigit, ?_⟩)
    exact fun d hd => List.all_eq_true.1 List.all_takeWhile d hd
  split
  · exact bounded_string _
  · exact bounded_lineComment _
  · exact bounded_of_settled (by simp) rfl (settled_blockComment _)
  · next hquote hline hblock =>
    refine bounded_sign hquote ?_
    rintro rfl d hd
    cases cs with
    | nil => cases hd
    | cons e rest =>
      obtain rfl : e = d := Option.some.inj hd
      constructor
      · rintro rfl
        exact hline rest rfl rfl
      · rintro rfl
        exact hblock rest rfl rfl

/-- **A reading lacks a character exactly if the source ends in an escape.** -/
theorem any_dangling_iff (cs : List Char) :
    (∃ x ∈ pieces cs, x.content = .dangling) ↔ Region.behind cs = .escape := by
  fun_induction pieces cs with
  | case1 => simp [Region.behind]
  | case2 c cs ih =>
    have hbounded := bounded_scan c cs
    rw [Piece.Bounded, scan_append] at hbounded
    rw [hbounded, ← ih]
    simp

-- ---------------------------------------------------------------------------
-- The order of problems
-- ---------------------------------------------------------------------------

/-- `p` comes before `q`: on an earlier line, or on the same one and further left. -/
def Place.Before (p q : Place) : Prop := p.line < q.line ∨ p.line = q.line ∧ p.column < q.column

namespace Place

variable {p q r : Place}

theorem Before.trans (h₁ : p.Before q) (h₂ : q.Before r) : p.Before r := by
  unfold Before at *
  omega

theorem Before.of_not (h₁ : p.Before q) (h₂ : ¬ r.Before q) : p.Before r := by
  unfold Before at *
  omega

theorem shifted_before {i j : Nat} (h : i < j) : (p.shifted i).Before (p.shifted j) :=
  Or.inr ⟨rfl, Nat.add_lt_add_left h p.column⟩

theorem next_eq_shifted {c : Char} (h : c ≠ '\n') : p.next c = p.shifted c.utf8Size := by
  rw [next, if_neg h]
  rfl

theorem before_next (p : Place) (c : Char) : p.Before (p.next c) := by
  by_cases hc : c = '\n'
  · rw [next, if_pos hc]
    exact Or.inl (Nat.lt_succ_self p.line)
  · rw [next_eq_shifted hc]
    exact shifted_before c.utf8Size_pos

/-- No place comes before one that it is behind. -/
theorem not_past_before (p : Place) (text : List Char) : ¬ (p.past text).Before p := by
  induction text generalizing p with
  | nil => simp [Before]
  | cons c text ih => exact fun hbefore => ih (p.next c) (hbefore.trans (p.before_next c))

/-- A byte of a text comes before what follows the text, even if it is counted on
along the first line. -/
theorem shifted_before_past {text : List Char} {i : Nat} (h : i < byteCount text) :
    (p.shifted i).Before (p.past text) := by
  induction text generalizing p i with
  | nil => cases h
  | cons c text ih =>
    have hbytes : byteCount (c :: text) = c.utf8Size + byteCount text := by simp [byteCount]
    have hbehind : ¬ (p.past (c :: text)).Before (p.next c) := not_past_before (p.next c) text
    by_cases hc : c = '\n'
    · have hline : (p.shifted i).Before (p.next c) := by
        rw [next, if_pos hc]
        exact Or.inl (Nat.lt_succ_self p.line)
      exact hline.of_not hbehind
    · rw [next_eq_shifted hc] at hbehind
      by_cases hi : i < c.utf8Size
      · exact (shifted_before hi).of_not hbehind
      · have hrest := ih (p := p.next c) (i := i - c.utf8Size) (by omega)
        have hsame : (p.next c).shifted (i - c.utf8Size) = p.shifted i := by
          rw [next_eq_shifted hc, shifted, shifted, shifted, Nat.add_assoc,
            Nat.add_sub_of_le (Nat.le_of_not_lt hi)]
        rwa [hsame] at hrest

end Place

/-- The problems of a piece are found in its bytes from left to right, and they are
problems of characters. -/
structure Piece.Orderly (x : Piece) (found : List (Nat × Problem)) : Prop where
  ordered : found.Pairwise fun a b => a.1 < b.1
  inside : ∀ a ∈ found, a.1 < byteCount x.text
  lexical : ∀ a ∈ found, a.2.code ∈ ["L001", "L002", "L003", "L004"]

theorem orderly_singleton {x : Piece} {i : Nat} {problem : Problem} (hi : i < byteCount x.text)
    (hcode : problem.code ∈ ["L001", "L002", "L003", "L004"]) : x.Orderly [(i, problem)] where
  ordered := List.pairwise_singleton ..
  inside := by simpa using hi
  lexical := by simpa using hcode

theorem orderly_stray {c : Char} {content : Content} :
    Piece.Orderly ⟨[c], content⟩ (strayProblems c) := by
  have hbytes : byteCount [c] = c.utf8Size := by simp [byteCount]
  unfold strayProblems
  split
  · exact orderly_singleton (hbytes ▸ c.utf8Size_pos) (by decide)
  · refine ⟨?_, ?_, ?_⟩
    · rw [List.pairwise_iff_getElem]
      intro i j hi hj hij
      simpa using hij
    · intro a ha
      obtain ⟨i, hi, rfl⟩ := List.mem_mapIdx.1 ha
      show i < byteCount [c]
      rw [hbytes]
      simpa using hi
    · intro a ha
      obtain ⟨i, hi, rfl⟩ := List.mem_mapIdx.1 ha
      show "L001" ∈ _
      simp

/-- An unknown escape is reported inside its literal. -/
theorem bad_lt_byteCount {cs : List Char} {i : Nat} {b : UInt8}
    (h : (scanString cs).bad = some (i, b)) : i < byteCount (scanString cs).text := by
  fun_induction scanString cs generalizing i b with
  | case1 => cases h
  | case2 => cases h
  | case3 => cases h
  | case4 => cases h
  | case5 e rest ih =>
    have htext : ((scanString rest).escape e).text = '\\' :: e :: (scanString rest).text := by
      unfold StringScan.escape
      split <;> rfl
    have hbytes : byteCount ('\\' :: e :: (scanString rest).text) =
        1 + e.utf8Size + byteCount (scanString rest).text := by
      simp [byteCount, Nat.add_assoc, show '\\'.utf8Size = 1 from rfl]
    have hsize := e.utf8Size_pos
    rw [htext, hbytes]
    unfold StringScan.escape at h
    split at h
    · obtain ⟨⟨j, b'⟩, hj, heq⟩ := Option.map_eq_some_iff.1 h
      have hlt := ih hj
      obtain ⟨rfl, -⟩ := Prod.mk.inj heq
      omega
    · obtain ⟨rfl, -⟩ := Prod.mk.inj (Option.some.inj h)
      omega
  | case6 c rest _ _ _ _ ih =>
    have hbytes : byteCount (c :: (scanString rest).text) =
        c.utf8Size + byteCount (scanString rest).text := by
      simp [byteCount]
    obtain ⟨⟨j, b'⟩, hj, heq⟩ := Option.map_eq_some_iff.1 h
    have hlt := ih hj
    obtain ⟨rfl, -⟩ := Prod.mk.inj heq
    show j + c.utf8Size < byteCount (c :: (scanString rest).text)
    omega

theorem orderly_string {cs : List Char} {found : List (Nat × Problem)}
    (h : (scanString cs).toContent = .problems found) :
    Piece.Orderly ⟨'"' :: (scanString cs).text, (scanString cs).toContent⟩ found := by
  have hbytes : byteCount ('"' :: (scanString cs).text) = 1 + byteCount (scanString cs).text := by
    simp [byteCount, show '"'.utf8Size = 1 from rfl]
  have hcontent := h
  unfold StringScan.toContent at hcontent
  split at hcontent
  · cases hcontent
  · cases hcontent
    refine orderly_singleton ?_ (by decide)
    show 0 < byteCount ('"' :: (scanString cs).text)
    omega
  · split at hcontent
    · next i b hbad =>
      cases hcontent
      have hlt := bad_lt_byteCount hbad
      refine orderly_singleton ?_ (List.mem_of_elem_eq_true rfl)
      show i + 1 < byteCount ('"' :: (scanString cs).text)
      omega
    · cases hcontent

theorem orderly_integer {whole : List Char} {found : List (Nat × Problem)} (hne : whole ≠ [])
    (h : integerContent whole = .problems found) :
    Piece.Orderly ⟨whole, integerContent whole⟩ found := by
  have hcontent := h
  simp only [integerContent] at hcontent
  split at hcontent
  · cases hcontent
  · cases hcontent
    exact orderly_singleton (byteCount_pos hne) (List.mem_of_elem_eq_true rfl)

theorem orderly_number {whole rest : List Char} {found : List (Nat × Problem)} (hne : whole ≠ [])
    (h : (scanNumber whole rest).1.content = .problems found) :
    (scanNumber whole rest).1.Orderly found := by
  unfold scanNumber at h ⊢
  split at h
  · split at h
    · cases h
    · next hdigit =>
      rw [if_neg hdigit]
      exact orderly_integer hne h
  · exact orderly_integer hne h

theorem orderly_sign {c : Char} {cs : List Char} {found : List (Nat × Problem)}
    (h : (scanSign c cs).1.content = .problems found) : (scanSign c cs).1.Orderly found := by
  have hsingle : singleContent c = .problems found →
      Piece.Orderly ⟨[c], singleContent c⟩ found := by
    intro hcontent
    unfold singleContent at hcontent
    split at hcontent
    · cases hcontent
    · cases hcontent
      exact orderly_stray
  cases cs with
  | nil => exact hsingle h
  | cons d rest =>
    simp only [scanSign] at h ⊢
    split at h
    · cases h
    · exact hsingle h

theorem orderly_scan {c : Char} {cs : List Char} {found : List (Nat × Problem)}
    (h : (scan c cs).1.content = .problems found) : (scan c cs).1.Orderly found := by
  revert h
  unfold scan
  split
  · intro h
    cases h
  split
  · intro h
    cases h
  split
  · exact orderly_number (by simp)
  split
  · exact orderly_string
  · intro h
    cases h
  · intro h
    cases h
  · exact orderly_sign

/-- What is reported of a piece lies between its beginning and what follows it. -/
theorem sorted_pieceDiagnostics (p : Place) {x : Piece}
    (hx : ∀ found, x.content = .problems found → x.Orderly found) :
    ((pieceDiagnostics (p, x)).Pairwise fun d e => d.place.Before e.place) ∧
      ∀ d ∈ pieceDiagnostics (p, x), ¬ d.place.Before p ∧ d.place.Before (p.past x.text) ∧
        d.problem.code ∈ ["L001", "L002", "L003", "L004"] := by
  obtain ⟨text, content⟩ := x
  cases content with
  | problems found =>
    have horderly := hx found rfl
    have hdiagnostics : pieceDiagnostics (p, ⟨text, .problems found⟩) =
        found.map fun a => ⟨p.shifted a.1, a.2⟩ := rfl
    rw [hdiagnostics]
    refine ⟨?_, ?_⟩
    · exact horderly.ordered.map _ fun a b hab => Place.shifted_before hab
    · intro d hd
      obtain ⟨a, ha, rfl⟩ := List.mem_map.1 hd
      refine ⟨?_, Place.shifted_before_past (horderly.inside a ha), horderly.lexical a ha⟩
      simp [Place.Before, Place.shifted]
  | blank => exact ⟨.nil, by simp [pieceDiagnostics]⟩
  | token t => exact ⟨.nil, by simp [pieceDiagnostics]⟩
  | dangling => exact ⟨.nil, by simp [pieceDiagnostics]⟩

/-- **Problems are reported from left to right,** none of them before the place
where the pieces begin. -/
theorem sorted_diagnostics (p : Place) (cs : List Char) :
    (((placed p (pieces cs)).flatMap pieceDiagnostics).Pairwise
        fun d e => d.place.Before e.place) ∧
      ∀ d ∈ (placed p (pieces cs)).flatMap pieceDiagnostics,
        ¬ d.place.Before p ∧ d.problem.code ∈ ["L001", "L002", "L003", "L004"] := by
  fun_induction pieces cs generalizing p with
  | case1 => exact ⟨.nil, by simp [placed]⟩
  | case2 c cs ih =>
    have horderly : ∀ found, (scan c cs).1.content = .problems found →
        (scan c cs).1.Orderly found := fun found => orderly_scan
    obtain ⟨hfirst, hinside⟩ := sorted_pieceDiagnostics p horderly
    obtain ⟨hrest, hbehind⟩ := ih (p.past (scan c cs).1.text)
    rw [placed, List.flatMap_cons]
    constructor
    · refine List.pairwise_append.2 ⟨hfirst, hrest, fun d hd e he => ?_⟩
      exact (hinside d hd).2.1.of_not (hbehind e he).1
    · intro d hd
      rcases List.mem_append.1 hd with hd | hd
      · exact ⟨(hinside d hd).1, (hinside d hd).2.2⟩
      · refine ⟨fun hbefore => (hbehind d hd).1 ?_, (hbehind d hd).2⟩
        exact hbefore.of_not (Place.not_past_before p _)

-- ---------------------------------------------------------------------------
-- Readings
-- ---------------------------------------------------------------------------

theorem length_pieces_le (cs : List Char) : (pieces cs).length ≤ cs.length := by
  fun_induction pieces cs with
  | case1 => exact Nat.le_refl 0
  | case2 c cs ih =>
    have hshorter := scan_rest_length c cs
    rw [List.length_cons]
    omega

theorem tokenize_eq_dangling_iff (source : String) :
    tokenize source = .dangling ↔ Region.behind source.toList = .escape := by
  rw [← any_dangling_iff]
  simp only [tokenize]
  split
  · next hany => simpa using hany
  · next hnone =>
    have hno : ¬ ∃ x ∈ pieces source.toList, x.content = .dangling := by simpa using hnone
    split <;> simp [hno]

theorem tokenize_eq_problems {source : String} {ds : List Diagnostic}
    (h : tokenize source = .problems ds) :
    ds ≠ [] ∧ ds = (placed Place.start (pieces source.toList)).flatMap pieceDiagnostics := by
  simp only [tokenize] at h
  split at h
  · cases h
  · split at h
    · cases h
    · next hne =>
      cases h
      exact ⟨hne, rfl⟩

/-- Behind the tokens of a source stands the end mark, and nowhere else. -/
theorem tokens_end_mark {source : String} {ts : List Lexeme} (h : tokenize source = .tokens ts) :
    ∃ front, ts = front ++ [⟨.eof, Place.behind source.toList⟩] ∧
      ∀ t ∈ front, t.token ≠ .eof := by
  obtain ⟨hclean, rfl⟩ := tokenize_eq_tokens h
  obtain ⟨tiles, tail, htiled, -, hmap⟩ := tiled_pieces source.toList [] hclean
  refine ⟨_, by rw [past_start], ?_⟩
  intro t ht
  have hplace : Place.behind [] = Place.start := rfl
  rw [← hplace, ← hmap] at ht
  obtain ⟨x, hx, rfl⟩ := List.mem_map.1 ht
  exact htiled.token_ne_eof x hx

/-- The problems of a source are at least one, each at a place before that of the next. -/
theorem problems_sorted {source : String} {ds : List Diagnostic}
    (h : tokenize source = .problems ds) :
    ds ≠ [] ∧ (ds.Pairwise fun d e => d.place.Before e.place) ∧
      ∀ d ∈ ds, d.problem.code ∈ ["L001", "L002", "L003", "L004"] := by
  obtain ⟨hne, rfl⟩ := tokenize_eq_problems h
  obtain ⟨hsorted, hlexical⟩ := sorted_diagnostics Place.start source.toList
  exact ⟨hne, hsorted, fun d hd => (hlexical d hd).2⟩

-- Of two backslashes the second belongs to the escape that the first opens.
example : tokenize "\"\\\\" = .problems [⟨⟨1, 1⟩, .unterminatedString⟩] := by cbv

end SeqScript
