import Mathlib
import SeqScript.Proofs.Scanning
import SeqScript.Proofs.Octets.Agreement

/-!
# Reading bytes by position

A source is an array of bytes, and a head stands somewhere in it. Every byte is fetched by its
position, and fetching one that is not there is a trap: `advance`, `peek` and `peekNext` then give
nothing, and with them all that reads by them. `advance` does not look first whether the source has
an end here. Its callers do, all but one: behind the backslash of a string literal the next byte is
fetched unseen (`readLiteral`).

What lies before the head (`unread`) ties this to the cutting of rows of bytes. Each reader takes
away the piece that is cut there (`readWhile_eq`, `skipComment_eq`, `readLiteral_eq`,
`nextToken_eq`), and there is a trap exactly where the cut is `dangling`.

* `readAll_eq` — the loop over a source finds what `findings` finds, or falls into the trap.
* `readSource_eq` — a source has the reading that `tokenize` gives, and there is a trap exactly if
  that is none.

`tokenize_endings` says how the loop ends, without the cutting.
-/

namespace SeqScript

namespace Octets

-- ---------------------------------------------------------------------------
-- The head
-- ---------------------------------------------------------------------------

/-- Where a source is read: how many bytes lie behind, and the place that is. -/
structure Head where
  pos : Nat
  place : Place

/-- The head in front of a source. -/
def Head.start : Head := ⟨0, Place.start⟩

/-- The head behind some more bytes. -/
def Head.past (h : Head) (bs : List UInt8) : Head := ⟨h.pos + bs.length, beyond h.place bs⟩

theorem Head.past_past (h : Head) (s t : List UInt8) : (h.past s).past t = h.past (s ++ t) := by
  simp only [Head.past, beyond, List.foldl_append, List.length_append, Nat.add_assoc]

section Readers

variable (source : Array UInt8)

/-- Whether no byte is left. -/
def isAtEnd (h : Head) : Bool := decide (source.size ≤ h.pos)

/-- Fetches a byte and goes on behind it. -/
def advance (h : Head) : Option (UInt8 × Head) :=
  source[h.pos]?.map fun b => (b, ⟨h.pos + 1, step h.place b⟩)

/-- The byte at the head, zero at the end. -/
def peek (h : Head) : Option UInt8 := if isAtEnd source h then some 0 else source[h.pos]?

/-- The byte behind the one at the head, zero if there is none. -/
def peekNext (h : Head) : Option UInt8 :=
  if source.size ≤ h.pos + 1 then some 0 else source[h.pos + 1]?

variable {source}

/-- A byte was fetched, so fewer are left. -/
theorem left_advance {h next : Head} {b : UInt8} (hread : advance source h = some (b, next)) :
    source.size - next.pos < source.size - h.pos := by
  obtain ⟨c, hfetch, hpair⟩ := Option.map_eq_some_iff.mp hread
  obtain ⟨hlt, -⟩ := Array.getElem?_eq_some_iff.mp hfetch
  obtain ⟨-, rfl⟩ := Prod.mk.inj hpair
  show source.size - (h.pos + 1) < source.size - h.pos
  omega

variable (source)

/-- Reads on while there are bytes and the next one is in a class. -/
def readWhile (p : Char → Bool) (h : Head) : Option (List UInt8 × Head) :=
  if isAtEnd source h then some ([], h)
  else
    match peek source h with
    | none => none
    | some next =>
      if p (letter next) then
        match hread : advance source h with
        | none => none
        | some (b, h') =>
          have := left_advance hread
          (readWhile p h').map fun (bs, last) => (b :: bs, last)
      else some ([], h)
termination_by source.size - h.pos

/-- Whether a block comment is closed here. The second byte is looked at only behind a star. -/
def closesComment (h : Head) : Option Bool := do
  if letter (← peek source h) = '*' then
    return letter (← peekNext source h) = '/'
  else return false

/-- Goes on behind the close of a block comment, or to the end of the source. -/
def skipComment (h : Head) : Option Head :=
  if isAtEnd source h then some h
  else
    match closesComment source h with
    | none => none
    | some true => do
      let (_, h) ← advance source h
      let (_, h) ← advance source h
      return h
    | some false =>
      match hread : advance source h with
      | none => none
      | some (_, h') =>
        have := left_advance hread
        skipComment h'
termination_by source.size - h.pos

/-- How a string literal ends: without its closing quote, or with what was collected and the first
unknown escape. -/
inductive Collected where
  | unterminated
  | closed (buffer : Array UInt8) (error : Option Diagnostic)

/-- Whether the line or the source ends here. -/
def lineEnds (h : Head) : Option Bool :=
  if isAtEnd source h then some true else (peek source h).map fun b => letter b = '\n'

/-- Collects a string literal from behind its opening quote. -/
def readLiteral (buffer : Array UInt8) (error : Option Diagnostic) (h : Head) :
    Option (Collected × Head) :=
  match lineEnds source h with
  | none => none
  | some true => some (.unterminated, h)
  | some false =>
    match hread : advance source h with
    | none => none
    | some (b, h₁) =>
      have := left_advance hread
      if letter b = '"' then some (.closed buffer error, h₁)
      else if letter b = '\\' then
        -- the one byte that is fetched without a look at the end
        match hnext : advance source h₁ with
        | none => none
        | some (e, h₂) =>
          have := left_advance hnext
          match unescape? (letter e) with
          | some c => readLiteral (buffer.push c.toUInt8) error h₂
          | none => readLiteral buffer (error.or (some ⟨h₁.place, .unknownEscape e⟩)) h₂
      else readLiteral (buffer.push b) error h₁
termination_by source.size - h.pos

/-- A string literal that opens at `start`, from behind its opening quote. -/
def readString (start : Place) (h : Head) : Option (List Finding × Head) := do
  match ← readLiteral source #[] none h with
  | (.unterminated, h) => return ([.problem ⟨start, .unterminatedString⟩], h)
  | (.closed _ (some error), h) => return ([.problem error], h)
  | (.closed buffer none, h) =>
    return (found start ((decode? buffer.toList).map fun text => .token (.str text)), h)

/-- Whether a point and a digit follow. The digit is looked for only behind a point. -/
def pointFollows (h : Head) : Option Bool := do
  if isAtEnd source h then return false
  else if letter (← peek source h) = '.' then
    return Text.isDigit (letter (← peekNext source h))
  else return false

/-- A number that begins at `start` with the digit `first`, from behind that digit. -/
def readNumber (start : Place) (first : UInt8) (h : Head) : Option (List Finding × Head) := do
  let (digits, h) ← readWhile source Text.isDigit h
  let whole := first :: digits
  if ← pointFollows source h then
    let (_, h) ← advance source h
    let (fraction, h) ← readWhile source Text.isDigit h
    let x := Binary64.ofDecimal (Text.digitsValue ((whole ++ fraction).map letter))
      (-fraction.length)
    return ([.lexeme ⟨.float x, start⟩], h)
  else return (found start (some (integerContent (whole.map letter))), h)

/-- A name that begins at `start` with `first`, from behind that byte. -/
def readName (start : Place) (first : UInt8) (h : Head) : Option (List Finding × Head) := do
  let (bytes, h) ← readWhile source isNamePart h
  return ([.lexeme ⟨wordToken (String.ofList ((first :: bytes).map letter)), start⟩], h)

/-- A sign, a comment or a stray byte at `start` that begins with `first`, from behind that byte. -/
def readOther (start : Place) (first : UInt8) (h : Head) : Option (List Finding × Head) := do
  let next ← peek source h
  if letter first = '/' ∧ letter next = '/' then
    let (_, h) ← readWhile source beforeNewline h
    return ([], h)
  else if letter first = '/' ∧ letter next = '*' then
    let (_, h) ← advance source h
    let h ← skipComment source h
    return ([], h)
  else
    match pairSign? (letter first) (letter next) with
    | some sign =>
      let (_, h) ← advance source h
      return ([.lexeme ⟨.sign sign, start⟩], h)
    | none => return (found start (some (singleByte first)), h)

/-- Reads a token, a problem or a comment. The head does not stand at a blank. -/
def nextToken (h : Head) : Option (List Finding × Head) := do
  let (b, h₁) ← advance source h
  if isNameStart (letter b) then readName source h.place b h₁
  else if Text.isDigit (letter b) then readNumber source h.place b h₁
  else if letter b = '"' then readString source h.place h₁
  else readOther source h.place b h₁

end Readers

-- ---------------------------------------------------------------------------
-- What lies before the head
-- ---------------------------------------------------------------------------

/-- The bytes before the head. -/
def unread (source : Array UInt8) (h : Head) : List UInt8 := source.toList.drop h.pos

section Unread

variable {source : Array UInt8} {h : Head}

theorem unread_start : unread source Head.start = source.toList := rfl

/-- Behind a part of what lies before the head lies the rest. -/
theorem unread_past {text rest : List UInt8} (hu : unread source h = text ++ rest) :
    unread source (h.past text) = rest := by
  show source.toList.drop (h.pos + text.length) = rest
  rw [← List.drop_drop]
  show (unread source h).drop text.length = rest
  rw [hu, List.drop_left]

theorem unread_advance {b : UInt8} {bs : List UInt8} (hu : unread source h = b :: bs) :
    unread source (h.past [b]) = bs :=
  @unread_past source h [b] bs hu

theorem isAtEnd_eq : isAtEnd source h = (unread source h).isEmpty := by
  rw [isAtEnd, Bool.eq_iff_iff, decide_eq_true_iff, List.isEmpty_iff, unread,
    List.drop_eq_nil_iff, Array.length_toList]

/-- The byte at a position before the head. -/
theorem fetch_eq (i : Nat) : source[h.pos + i]? = (unread source h)[i]? := by
  rw [unread, List.getElem?_drop, Array.getElem?_toList]

theorem advance_eq : advance source h = (unread source h).head?.map fun b => (b, h.past [b]) := by
  have hfetch : source[h.pos]? = (unread source h)[0]? := fetch_eq 0
  rw [advance, hfetch, List.head?_eq_getElem?]
  rfl

/-- Fetching the next byte, where there is one. -/
theorem advance_cons {b : UInt8} {bs : List UInt8} (hu : unread source h = b :: bs) :
    advance source h = some (b, h.past [b]) := by
  rw [advance_eq, hu]
  rfl

/-- Fetching a byte at the end is a trap. -/
theorem advance_nil (hu : unread source h = []) : advance source h = none := by
  rw [advance_eq, hu]
  rfl

/-- Elsewhere it is none. -/
theorem advance_ne_none {b : UInt8} {bs : List UInt8} (hu : unread source h = b :: bs) :
    advance source h ≠ none := by
  rw [advance_cons hu]
  exact Option.some_ne_none _

theorem eq_of_advance {b c : UInt8} {bs : List UInt8} {next : Head}
    (hu : unread source h = b :: bs) (hread : advance source h = some (c, next)) :
    c = b ∧ next = h.past [b] := by
  rw [advance_cons hu] at hread
  obtain ⟨rfl, rfl⟩ := Prod.mk.inj (Option.some.inj hread)
  exact ⟨rfl, rfl⟩

/-- Looking at the next byte is no trap. -/
theorem peek_eq : peek source h = some ((unread source h).headD 0) := by
  have hfetch : source[h.pos]? = (unread source h)[0]? := fetch_eq 0
  rw [peek, isAtEnd_eq, hfetch]
  cases unread source h with
  | nil => rfl
  | cons b bs => rfl

/-- Nor is looking at the one behind it. -/
theorem peekNext_eq : peekNext source h = some ((unread source h).tail.headD 0) := by
  have hsize : source.size ≤ h.pos + 1 ↔ (unread source h).tail = [] := by
    rw [unread, List.tail_drop, List.drop_eq_nil_iff, Array.length_toList]
  rw [peekNext, fetch_eq]
  split_ifs with hend
  · rw [hsize.mp hend]
    rfl
  · rw [hsize] at hend
    rcases hu : unread source h with _ | ⟨b, _ | ⟨d, bs⟩⟩
    · exact absurd (by rw [hu]; rfl) hend
    · exact absurd (by rw [hu]; rfl) hend
    · rfl

end Unread

-- ---------------------------------------------------------------------------
-- Reading is cutting
-- ---------------------------------------------------------------------------

section Cutting

variable {source : Array UInt8} {h : Head} {b : UInt8} {bs : List UInt8}

/-- One round of a loop over a class, with a byte before the head. -/
theorem readWhile_cons (p : Char → Bool) (hu : unread source h = b :: bs) :
    readWhile source p h =
      if p (letter b) then
        (readWhile source p (h.past [b])).map fun (bs, last) => (b :: bs, last)
      else some ([], h) := by
  rw [readWhile]
  simp only [isAtEnd_eq, peek_eq, hu, List.isEmpty_cons, List.headD_cons, Bool.false_eq_true,
    if_false]
  split_ifs
  · split
    · next hread => exact absurd hread (advance_ne_none hu)
    · next hread =>
      obtain ⟨rfl, rfl⟩ := eq_of_advance hu hread
      rfl
  · rfl

/-- The bytes of a class are taken as far as they go. -/
theorem readWhile_eq (p : Char → Bool) (h : Head) :
    readWhile source p h = some ((unread source h).takeWhile (p ∘ letter),
      h.past ((unread source h).takeWhile (p ∘ letter))) := by
  induction hu : unread source h generalizing h with
  | nil =>
    rw [readWhile, isAtEnd_eq, hu]
    rfl
  | cons b bs ih =>
    rw [readWhile_cons p hu, List.takeWhile_cons, Function.comp_apply]
    split_ifs
    · rw [ih _ (unread_advance hu)]
      exact congrArg (fun last => some (_, last)) (Head.past_past h [b] _)
    · rfl

/-- At the end of the source the byte that is looked at is zero, and closes no comment. -/
theorem closesComment_eq : closesComment source h =
    some (decide (letter ((unread source h).headD 0) = '*' ∧
      letter ((unread source h).tail.headD 0) = '/')) := by
  rw [closesComment, peek_eq, peekNext_eq]
  generalize (unread source h).headD 0 = b, (unread source h).tail.headD 0 = d
  show (if letter b = '*' then some (decide (letter d = '/')) else some false) = _
  split_ifs with hstar
  · simp only [hstar, true_and]
  · simp only [hstar, false_and, decide_false]

/-- One round of the loop over a comment that is not closed here. -/
theorem skipComment_cons (hu : unread source h = b :: bs)
    (hopen : ¬ (letter b = '*' ∧ letter (bs.headD 0) = '/')) :
    skipComment source h = skipComment source (h.past [b]) := by
  rw [skipComment]
  simp only [isAtEnd_eq, closesComment_eq, hu, List.isEmpty_cons, List.headD_cons, List.tail_cons,
    decide_eq_false hopen, Bool.false_eq_true, if_false]
  split
  · next hread => exact absurd hread (advance_ne_none hu)
  · next hread =>
    obtain ⟨rfl, rfl⟩ := eq_of_advance hu hread
    rfl

/-- A comment is skipped as far as it goes. -/
theorem skipComment_eq (h : Head) :
    skipComment source h = some (h.past (cutComment (unread source h)).1) := by
  generalize hu : unread source h = bs
  fun_induction cutComment bs generalizing h with
  | case1 =>
    rw [skipComment, isAtEnd_eq, hu]
    rfl
  | case2 b =>
    rw [skipComment_cons hu fun hclose => absurd hclose.2 (by decide), skipComment, isAtEnd_eq,
      unread_advance hu]
    rfl
  | case3 b d bs hclose =>
    have hcloses : closesComment source h = some true := by
      rw [closesComment_eq, hu]
      exact congrArg some (decide_eq_true hclose)
    rw [skipComment, isAtEnd_eq, hu]
    simp only [List.isEmpty_cons, Bool.false_eq_true, if_false, hcloses, advance_cons hu]
    show (advance source (h.past [b])).bind _ = _
    rw [advance_cons (unread_advance hu)]
    exact congrArg some (Head.past_past h [b] [d])
  | case4 b d bs hopen ih =>
    rw [skipComment_cons hu hopen, ih _ (unread_advance hu), Head.past_past]
    rfl

-- String literals.

theorem lineEnds_nil (hu : unread source h = []) : lineEnds source h = some true := by
  rw [lineEnds, isAtEnd_eq, hu]
  rfl

theorem lineEnds_cons (hu : unread source h = b :: bs) :
    lineEnds source h = some (decide (letter b = '\n')) := by
  rw [lineEnds, isAtEnd_eq, peek_eq, hu]
  rfl

/-- What a literal adds to what was collected in front of it. -/
def Quoted.collected (s : Quoted) (buffer : Array UInt8) (error : Option Diagnostic) (h : Head) :
    Option (Collected × Head) :=
  match s.ending with
  | .dangling => none
  | .unterminated => some (.unterminated, h.past s.text)
  | .closed => some (.closed (buffer ++ s.buffer.toArray)
      (error.or (s.bad.map fun (i, e) => ⟨h.place.shifted i, .unknownEscape e⟩)), h.past s.text)

section Literals

variable (buffer : Array UInt8) (error : Option Diagnostic)

/-- A literal breaks off where its line ends, and nothing is taken. -/
theorem readLiteral_end (hend : lineEnds source h = some true) :
    readLiteral source buffer error h = some (.unterminated, h) := by
  rw [readLiteral]
  simp only [hend]

/-- One round of the loop over a literal. It is the only one that can end in the trap. -/
theorem readLiteral_cons (hu : unread source h = b :: bs) (hb : letter b ≠ '\n') :
    readLiteral source buffer error h =
      if letter b = '"' then some (.closed buffer error, h.past [b])
      else if letter b = '\\' then
        match bs with
        | [] => none
        | e :: _ =>
          match unescape? (letter e) with
          | some c => readLiteral source (buffer.push c.toUInt8) error (h.past [b, e])
          | none => readLiteral source buffer
              (error.or (some ⟨h.place.shifted 1, .unknownEscape e⟩)) (h.past [b, e])
      else readLiteral source (buffer.push b) error (h.past [b]) := by
  have hplace : (h.past [b]).place = h.place.shifted 1 := if_neg hb
  rw [readLiteral]
  simp only [lineEnds_cons hu, decide_eq_false hb]
  split
  · next hread => exact absurd hread (advance_ne_none hu)
  next hread =>
  obtain ⟨rfl, rfl⟩ := eq_of_advance hu hread
  have hrest := unread_advance hu
  split_ifs
  · rfl
  · obtain _ | ⟨e, rest⟩ := bs
    · split
      · rfl
      · next hnext => exact absurd (hnext.symm.trans (advance_nil hrest)) (Option.some_ne_none _)
    · split
      · next hnext => exact absurd hnext (advance_ne_none hrest)
      · next hnext =>
        obtain ⟨rfl, rfl⟩ := eq_of_advance hrest hnext
        rw [Head.past_past, hplace]
        rfl
  · rfl

variable {buffer error} (s : Quoted) {e : UInt8}

/-- The place of an escape, seen from further in front on the same line. -/
theorem shifted_bad (p : Place) (n : Nat) (bad : Option (Nat × UInt8)) :
    ((bad.map fun (i, e) => (i + n, e)).map fun (i, e) =>
      (⟨p.shifted i, .unknownEscape e⟩ : Diagnostic)) =
    bad.map fun (i, e) => ⟨(p.shifted n).shifted i, .unknownEscape e⟩ := by
  obtain _ | ⟨i, e⟩ := bad
  · rfl
  · simp only [Option.map_some, shifted_shifted, Nat.add_comm]

/-- A byte that stands for itself. -/
theorem Quoted.collected_plain (hb : letter b ≠ '\n') :
    (s.plain b).collected buffer error h = s.collected (buffer.push b) error (h.past [b]) := by
  have hplace : (h.past [b]).place = h.place.shifted 1 := if_neg hb
  obtain ⟨text, rest, _ | _ | _, bytes, bad⟩ := s
  · simp only [Quoted.collected, Quoted.plain, hplace, Head.past_past, shifted_bad,
      List.singleton_append, ← List.push_append_toArray]
  · simp only [Quoted.collected, Quoted.plain, Head.past_past, List.singleton_append]
  · rfl

/-- An escape, which is two bytes on one line. -/
theorem Quoted.collected_escape {c : Char} (hc : unescape? (letter e) = some c)
    (hb : letter b ≠ '\n') :
    (s.escape b e).collected buffer error h =
      s.collected (buffer.push c.toUInt8) error (h.past [b, e]) := by
  have he : letter e ≠ '\n' := by
    intro hnewline
    rw [hnewline] at hc
    cases hc
  have hplace : (h.past [b, e]).place = h.place.shifted 2 := by
    show step (step h.place b) e = _
    rw [step, step, if_neg hb, if_neg he]
    rfl
  obtain ⟨text, rest, _ | _ | _, bytes, bad⟩ := s
  · simp only [Quoted.collected, Quoted.escape, hc, hplace, Head.past_past, shifted_bad,
      List.cons_append, List.nil_append, ← List.push_append_toArray]
  · simp only [Quoted.collected, Quoted.escape, hc, Head.past_past, List.cons_append,
      List.nil_append]
  · simp only [Quoted.collected, Quoted.escape, hc]

/-- Behind an unknown escape no other one counts, so its line may have ended with it. -/
theorem Quoted.collected_unknown (hc : unescape? (letter e) = none) :
    (s.escape b e).collected buffer error h =
      s.collected buffer (error.or (some ⟨h.place.shifted 1, .unknownEscape e⟩))
        (h.past [b, e]) := by
  obtain ⟨text, rest, _ | _ | _, bytes, bad⟩ := s
  · simp only [Quoted.collected, Quoted.escape, hc, Head.past_past, Option.or_assoc,
      Option.some_or, Option.map_some, List.cons_append, List.nil_append]
  · simp only [Quoted.collected, Quoted.escape, hc, Head.past_past, List.cons_append,
      List.nil_append]
  · simp only [Quoted.collected, Quoted.escape, hc]

/-- **A literal is collected as it is cut, and the trap is behind its backslash.** -/
theorem readLiteral_eq (buffer : Array UInt8) (error : Option Diagnostic) (h : Head) :
    readLiteral source buffer error h =
      (readQuoted (unread source h)).collected buffer error h := by
  generalize hu : unread source h = bs
  fun_induction readQuoted bs generalizing buffer error h with
  | case1 => exact readLiteral_end buffer error (lineEnds_nil hu)
  | case2 b bs hnewline =>
    apply readLiteral_end buffer error
    rw [lineEnds_cons hu, decide_eq_true hnewline]
  | case3 b bs hnewline hquote =>
    rw [readLiteral_cons buffer error hu hnewline, if_pos hquote]
    simp only [Quoted.collected, Array.append_empty, Option.map_none, Option.or_none]
  | case4 b hnewline hquote hslash =>
    rw [readLiteral_cons buffer error hu hnewline, if_neg hquote, if_pos hslash]
    rfl
  | case5 b hnewline hquote hslash e rest ih =>
    have hrest : unread source (h.past [b, e]) = rest := @unread_past source h [b, e] rest hu
    rw [readLiteral_cons buffer error hu hnewline, if_neg hquote, if_pos hslash]
    rcases hc : unescape? (letter e) with _ | c
    · simp only [hc, ih _ _ _ hrest, Quoted.collected_unknown _ hc]
    · simp only [hc, ih _ _ _ hrest, Quoted.collected_escape _ hc hnewline]
  | case6 b bs hnewline hquote hslash ih =>
    rw [readLiteral_cons buffer error hu hnewline, if_neg hquote, if_neg hslash,
      ih _ _ _ (unread_advance hu), Quoted.collected_plain _ hnewline]

end Literals

-- Pieces, each from behind its first byte.

/-- What is found in a piece at the head, and the head behind it. -/
def Cut.taken (c : Cut) (h : Head) : Option (List Finding × Head) :=
  if c.content = some .dangling then none else some (found h.place c.content, h.past c.text)

theorem Cut.taken_of_ne {c : Cut} (hc : c.content ≠ some .dangling) :
    c.taken h = some (found h.place c.content, h.past c.text) :=
  if_neg hc

/-- A string literal is read as it is cut. -/
theorem readString_eq (hu : unread source h = b :: bs) (hb : letter b = '"') :
    readString source h.place (h.past [b]) =
      Cut.taken ⟨b :: (readQuoted bs).text, (readQuoted bs).content?, (readQuoted bs).rest⟩ h := by
  have hplace : (h.past [b]).place = h.place.shifted 1 := if_neg (by rw [hb]; decide)
  rw [readString, readLiteral_eq, unread_advance hu]
  obtain ⟨text, rest, ending, bytes, bad⟩ := readQuoted bs
  have hpast : (h.past [b]).past text = h.past (b :: text) := Head.past_past h [b] text
  obtain _ | _ | _ := ending
  · obtain _ | ⟨i, e⟩ := bad
    · simp [Quoted.collected, Quoted.content?, Cut.taken, hpast]
    · simp [Quoted.collected, Quoted.content?, Cut.taken, hpast, hplace, found, shifted_shifted,
        Nat.add_comm]
  · simp only [Quoted.collected, hpast]
    rfl
  · rfl

/-- At the end of the source the bytes that are looked at are zero, and neither point nor digit. -/
theorem pointFollows_eq : pointFollows source h =
    some (decide (letter ((unread source h).headD 0) = '.' ∧
      Text.isDigit (letter ((unread source h).tail.headD 0)) = true)) := by
  rw [pointFollows, peek_eq, peekNext_eq, isAtEnd_eq]
  obtain _ | ⟨b, bs⟩ := unread source h
  · rfl
  · show (if letter b = '.' then some (Text.isDigit (letter (bs.headD 0))) else some false) = _
    split_ifs with hpoint
    · simp only [List.headD_cons, List.tail_cons, hpoint, true_and, Bool.decide_eq_true]
    · simp only [List.headD_cons, hpoint, false_and, decide_false]

theorem cutNumber_whole {bs : List UInt8}
    (hpoint : ¬ (letter (bs.headD 0) = '.' ∧ Text.isDigit (letter (bs.tail.headD 0)) = true))
    (whole : List UInt8) :
    cutNumber whole bs = ⟨whole, some (integerContent (whole.map letter)), bs⟩ := by
  rcases bs with _ | ⟨p, _ | ⟨d, rest⟩⟩
  · rfl
  · rfl
  · exact if_neg hpoint

theorem integerContent_ne_dangling (digits : List Char) :
    integerContent digits ≠ .dangling := by
  unfold integerContent
  simp only
  split_ifs <;> exact nofun

theorem singleByte_ne_dangling (b : UInt8) : singleByte b ≠ .dangling := by
  unfold singleByte
  split <;> exact nofun

/-- A number is read as it is cut. -/
theorem readNumber_eq (hu : unread source h = b :: bs) :
    readNumber source h.place b (h.past [b]) =
      (cutNumber (b :: bs.takeWhile (Text.isDigit ∘ letter))
        (bs.dropWhile (Text.isDigit ∘ letter))).taken h := by
  have hrest : unread source (h.past (b :: bs.takeWhile (Text.isDigit ∘ letter))) =
      bs.dropWhile (Text.isDigit ∘ letter) := by
    apply unread_past
    rw [hu, List.cons_append, List.takeWhile_append_dropWhile]
  rw [readNumber, readWhile_eq, unread_advance hu, Head.past_past, List.singleton_append]
  generalize bs.takeWhile (Text.isDigit ∘ letter) = digits at hrest ⊢
  generalize bs.dropWhile (Text.isDigit ∘ letter) = rest at hrest ⊢
  show (pointFollows source (h.past (b :: digits))).bind _ = _
  rw [pointFollows_eq, hrest]
  by_cases hpoint : letter (rest.headD 0) = '.' ∧ Text.isDigit (letter (rest.tail.headD 0)) = true
  · obtain ⟨p, d, more, rfl⟩ : ∃ p d more, rest = p :: d :: more := by
      rcases rest with _ | ⟨p, _ | ⟨d, more⟩⟩
      · exact absurd hpoint.1 (by decide)
      · exact absurd (show Text.isDigit (letter 0) = true from hpoint.2) (by decide)
      · exact ⟨p, d, more, rfl⟩
    have hd : (Text.isDigit ∘ letter) d = true := hpoint.2
    rw [decide_eq_true hpoint]
    show (advance source (h.past (b :: digits))).bind _ = _
    rw [advance_cons hrest]
    show (readWhile source Text.isDigit ((h.past (b :: digits)).past [p])).bind _ = _
    rw [readWhile_eq, unread_advance hrest, List.takeWhile_cons_of_pos hd, Head.past_past,
      Head.past_past, cutNumber, if_pos ⟨hpoint.1, hd⟩]
    rfl
  · rw [decide_eq_false hpoint, cutNumber_whole hpoint, Cut.taken_of_ne]
    · rfl
    · exact fun hcontent => integerContent_ne_dangling _ (Option.some.inj hcontent)

/-- A name is read as it is cut. -/
theorem readName_eq (hu : unread source h = b :: bs) :
    readName source h.place b (h.past [b]) =
      let word := b :: bs.takeWhile (isNamePart ∘ letter)
      Cut.taken ⟨word, some (.token (wordToken (String.ofList (word.map letter)))),
        bs.dropWhile (isNamePart ∘ letter)⟩ h := by
  rw [readName, readWhile_eq, unread_advance hu]
  show some (_, (h.past [b]).past _) = _
  rw [Head.past_past]
  rfl

/-- The zero that is seen at the end of a source makes no sign longer. -/
theorem pairSign?_zero (c : Char) : pairSign? c (letter 0) = none := by
  unfold pairSign?
  split
  case h_11 => rfl
  all_goals exact absurd ‹letter 0 = _› (by decide)

/-- A sign, a comment or a stray byte is read as it is cut. -/
theorem readOther_eq (hu : unread source h = b :: bs) :
    readOther source h.place b (h.past [b]) = (cutOther b bs).taken h := by
  have hrest := unread_advance hu
  have hsingle : (Cut.taken ⟨[b], some (singleByte b), bs⟩ h) =
      some (found h.place (some (singleByte b)), h.past [b]) :=
    Cut.taken_of_ne fun hcontent => singleByte_ne_dangling b (Option.some.inj hcontent)
  rw [readOther, peek_eq, hrest]
  show ite _ _ _ = _
  obtain _ | ⟨d, rest⟩ := bs
  · have hzero (k : Char) (hk : letter 0 ≠ k) : ¬ (letter b = '/' ∧ letter 0 = k) :=
      fun hpair => hk hpair.2
    rw [List.headD_nil, if_neg (hzero '/' (by decide)), if_neg (hzero '*' (by decide)),
      pairSign?_zero]
    exact hsingle.symm
  · rw [List.headD_cons, cutOther]
    by_cases hline : letter b = '/' ∧ letter d = '/'
    · have hd : (beforeNewline ∘ letter) d = true := by
        rw [Function.comp_apply, hline.2]
        rfl
      rw [if_pos hline, if_pos hline, readWhile_eq, hrest, List.takeWhile_cons_of_pos hd,
        Head.past_past]
      rfl
    rw [if_neg hline, if_neg hline]
    by_cases hblock : letter b = '/' ∧ letter d = '*'
    · rw [if_pos hblock, if_pos hblock, advance_cons hrest]
      show (skipComment source ((h.past [b]).past [d])).bind _ = _
      rw [skipComment_eq, unread_advance hrest, Head.past_past, Head.past_past]
      rfl
    rw [if_neg hblock, if_neg hblock, cutSign]
    rcases pairSign? (letter b) (letter d) with _ | sign
    · exact hsingle.symm
    · rw [advance_cons hrest, Head.past_past]
      rfl

/-- **Reading a token is cutting what lies before the head.** It falls into the trap exactly if the
cut is dangling. -/
theorem nextToken_eq (hu : unread source h = b :: bs) (hb : isSpace (letter b) = false) :
    nextToken source h = (cut b bs).taken h := by
  have hspace : ¬ isSpace (letter b) = true := by
    rw [hb]
    exact Bool.false_ne_true
  rw [nextToken, advance_cons hu, cut, if_neg hspace]
  show ite _ _ _ = _
  split_ifs with hname hdigit hquote
  · exact readName_eq hu
  · exact readNumber_eq hu
  · exact readString_eq hu hquote
  · exact readOther_eq hu

end Cutting

-- ---------------------------------------------------------------------------
-- The whole source
-- ---------------------------------------------------------------------------

section Loop

variable {source : Array UInt8}

theorem length_unread (h : Head) : (unread source h).length = source.size - h.pos := by
  rw [unread, List.length_drop, Array.length_toList]

/-- Blanks are skipped as far as they go. -/
theorem readWhile_isSpace {h h₁ : Head} {blanks : List UInt8}
    (hblanks : readWhile source isSpace h = some (blanks, h₁)) :
    h₁ = h.past ((unread source h).takeWhile (isSpace ∘ letter)) ∧
      unread source h₁ = (unread source h).dropWhile (isSpace ∘ letter) := by
  rw [readWhile_eq] at hblanks
  obtain ⟨-, rfl⟩ := Prod.mk.inj (Option.some.inj hblanks)
  exact ⟨rfl, unread_past List.takeWhile_append_dropWhile.symm⟩

/-- Behind the blanks at the head comes a piece that is none. -/
theorem nextToken_behind_blanks {h h₁ : Head} {blanks : List UInt8}
    (hblanks : readWhile source isSpace h = some (blanks, h₁)) (hmore : isAtEnd source h₁ = false) :
    ∃ b bs, unread source h₁ = b :: bs ∧ nextToken source h₁ = (cut b bs).taken h₁ := by
  obtain ⟨-, hrest⟩ := readWhile_isSpace hblanks
  have hnext := List.head?_dropWhile_not (isSpace ∘ letter) (unread source h)
  rw [← hrest] at hnext
  rw [isAtEnd_eq] at hmore
  rcases hu : unread source h₁ with _ | ⟨b, bs⟩
  · rw [hu] at hmore
    cases hmore
  · rw [hu] at hnext
    exact ⟨b, bs, rfl, nextToken_eq hu hnext⟩

theorem Cut.taken_eq_some {c : Cut} {h last : Head} {fs : List Finding}
    (hc : c.taken h = some (fs, last)) :
    c.content ≠ some .dangling ∧ fs = found h.place c.content ∧ last = h.past c.text := by
  unfold Cut.taken at hc
  split_ifs at hc with hcontent
  obtain ⟨rfl, rfl⟩ := Prod.mk.inj (Option.some.inj hc)
  exact ⟨hcontent, rfl, rfl⟩

theorem Cut.taken_eq_none {c : Cut} {h : Head} (hc : c.taken h = none) :
    c.content = some .dangling := by
  by_contra hcontent
  rw [Cut.taken_of_ne hcontent] at hc
  cases hc

/-- A token was read, so fewer bytes are left. -/
theorem left_nextToken {h h₁ h₂ : Head} {blanks : List UInt8} {fs : List Finding}
    (hblanks : readWhile source isSpace h = some (blanks, h₁)) (hmore : isAtEnd source h₁ = false)
    (hread : nextToken source h₁ = some (fs, h₂)) :
    source.size - h₂.pos < source.size - h.pos := by
  obtain ⟨b, bs, hu, hcut⟩ := nextToken_behind_blanks hblanks hmore
  obtain ⟨rfl, -⟩ := readWhile_isSpace hblanks
  rw [hcut] at hread
  obtain ⟨-, -, rfl⟩ := Cut.taken_eq_some hread
  have hleft := congrArg List.length hu
  have htext := List.length_pos_iff.mpr (cut_text_ne_nil b bs)
  rw [length_unread, List.length_cons] at hleft
  simp only [Head.past] at hleft ⊢
  omega

variable (source)

/-- Reads a source from the head on: what is found, and the head behind it all. -/
def readAll (h : Head) : Option (List Finding × Head) :=
  match hblanks : readWhile source isSpace h with
  | none => none
  | some (_, h₁) =>
    match hmore : isAtEnd source h₁ with
    | true => some ([], h₁)
    | false =>
      match hread : nextToken source h₁ with
      | none => none
      | some (fs, h₂) =>
        have := left_nextToken hblanks hmore hread
        (readAll h₂).map fun (more, last) => (fs ++ more, last)
termination_by source.size - h.pos

/-- Nothing is found in blanks. -/
theorem findings_blanks (p : Place) (bs : List UInt8) :
    findings p bs = findings (beyond p (bs.takeWhile (isSpace ∘ letter)))
      (bs.dropWhile (isSpace ∘ letter)) := by
  obtain _ | ⟨b, bs⟩ := bs
  · rfl
  · by_cases hb : (isSpace ∘ letter) b = true
    · have hspace : isSpace (letter b) = true := hb
      rw [findings, cut, if_pos hspace, List.takeWhile_cons_of_pos hb,
        List.dropWhile_cons_of_pos hb]
      rfl
    · rw [List.takeWhile_cons_of_neg hb, List.dropWhile_cons_of_neg hb]
      rfl

/-- Only a dangling piece shows where the source ends too early. -/
theorem dangling_mem_found {p : Place} {content : Option Content} :
    .dangling ∈ found p content ↔ content = some .dangling := by
  rcases content with _ | content
  · simp [found]
  · cases content <;> simp [found]

variable {source}

/-- The loop skips blanks first, and loses nothing by it. -/
theorem findings_behind_blanks {h h₁ : Head} {blanks : List UInt8}
    (hblanks : readWhile source isSpace h = some (blanks, h₁)) :
    findings h.place (unread source h) = findings h₁.place (unread source h₁) ∧
      h.past (unread source h) = h₁.past (unread source h₁) := by
  obtain ⟨rfl, hrest⟩ := readWhile_isSpace hblanks
  rw [hrest, Head.past_past, List.takeWhile_append_dropWhile, findings_blanks h.place]
  exact ⟨rfl, rfl⟩

/-- **Reading by position finds what cutting finds.** It falls into the trap exactly if a cut is
dangling. -/
theorem readAll_eq (h : Head) : readAll source h =
    if .dangling ∈ findings h.place (unread source h) then none
    else some (findings h.place (unread source h), h.past (unread source h)) := by
  fun_induction readAll source h with
  | case1 h hblanks =>
    rw [readWhile_eq] at hblanks
    cases hblanks
  | case2 h blanks h₁ hblanks hend =>
    obtain ⟨hfind, hpast⟩ := findings_behind_blanks hblanks
    rw [isAtEnd_eq, List.isEmpty_iff] at hend
    rw [hfind, hpast, hend, findings, if_neg List.not_mem_nil]
    rfl
  | case3 h blanks h₁ hblanks hmore hread =>
    obtain ⟨hfind, -⟩ := findings_behind_blanks hblanks
    obtain ⟨b, bs, hu, hcut⟩ := nextToken_behind_blanks hblanks hmore
    rw [hcut] at hread
    have hmem : .dangling ∈ found h₁.place (cut b bs).content :=
      dangling_mem_found.mpr (Cut.taken_eq_none hread)
    rw [hfind, hu, findings, if_pos (List.mem_append_left _ hmem)]
  | case4 h blanks h₁ hblanks hmore fs h₂ hread hless ih =>
    obtain ⟨hfind, hpast⟩ := findings_behind_blanks hblanks
    obtain ⟨b, bs, hu, hcut⟩ := nextToken_behind_blanks hblanks hmore
    rw [hcut] at hread
    obtain ⟨hcontent, rfl, rfl⟩ := Cut.taken_eq_some hread
    have hnone : .dangling ∉ found h₁.place (cut b bs).content := mt dangling_mem_found.mp hcontent
    have hsplit : unread source h₁ = (cut b bs).text ++ (cut b bs).rest := by rw [hu, cut_append]
    have hplace : (h₁.past (cut b bs).text).place = beyond h₁.place (cut b bs).text := rfl
    rw [ih, unread_past hsplit, hfind, hpast, Head.past_past, ← hsplit, hu, findings, hplace]
    simp only [List.mem_append, hnone, false_or]
    split_ifs <;> rfl

/-- What comes of reading a source. -/
inductive Outcome where
  | reading (r : Reading)
  /-- The bytes of a string literal are no text. -/
  | malformed
  /-- A byte was fetched that is not there. -/
  | trap

/-- What a reading is an outcome of. One that breaks off in an escape comes from the trap. -/
def Outcome.ofReading : Reading → Outcome
  | .dangling => .trap
  | r => .reading r

theorem Outcome.ofReading_eq_trap_iff {r : Reading} : ofReading r = .trap ↔ r = .dangling := by
  cases r <;> simp [ofReading]

/-- Reads the tokens of a source: problems, if there are any, and otherwise the tokens with the end
mark behind them. -/
def readSource (source : Array UInt8) : Outcome :=
  match readAll source Head.start with
  | none => .trap
  | some (fs, last) =>
    if .malformed ∈ fs then .malformed
    else
      match fs.filterMap Finding.problem? with
      | [] => .reading (.tokens (fs.filterMap Finding.lexeme? ++ [⟨.eof, last.place⟩]))
      | ds => .reading (.problems ds)

/-- **A source has by position the reading that it has by characters.** There is a trap exactly if
that is none. -/
theorem readSource_eq (source : String) :
    readSource source.toUTF8.data = .ofReading (tokenize source) := by
  have hread := read_octets source
  have hbytes := toUTF8_eq source
  rw [← hbytes] at hread
  generalize source.toUTF8.data = bytes at hread ⊢
  have hplace : Head.start.place = Place.start := rfl
  rw [readSource, readAll_eq, unread_start, hplace]
  unfold read at hread
  by_cases hmalformed : .malformed ∈ findings Place.start bytes.toList
  · simp only [hmalformed, if_true] at hread
    cases hread
  by_cases hdangling : .dangling ∈ findings Place.start bytes.toList
  · simp only [hmalformed, hdangling, if_true, if_false, Option.some.injEq] at hread ⊢
    rw [← hread]
    rfl
  simp only [hmalformed, hdangling, if_false] at hread ⊢
  rcases hproblems : (findings Place.start bytes.toList).filterMap Finding.problem? with _ | ⟨d, ds⟩
  · simp only [hproblems, Option.some.injEq] at hread ⊢
    rw [← hread]
    rfl
  · simp only [hproblems, Option.some.injEq] at hread ⊢
    rw [← hread]
    rfl

end Loop

end Octets

-- ---------------------------------------------------------------------------
-- Main result
-- ---------------------------------------------------------------------------

/-- **How reading a source ends.** The scan comes to its end after at most as many pieces as the
source has characters, and the loop over its bytes has fewer of them left after every round. The
loop fetches a byte that is not there exactly if the source ends with a backslash and what is before
it leaves a string literal open and ready for an escape. Otherwise it reads what `tokenize` reads:
tokens with the end mark as the last and no other, or at least one problem, all of them problems of
characters and each reported at a place before that of the next. -/
theorem tokenize_endings (source : String) :
    (pieces source.toList).length ≤ source.length ∧
    (Octets.readSource source.toUTF8.data = .trap ↔
      ∃ before, source.toList = before ++ ['\\'] ∧ Region.behind before = .literal) ∧
    match Octets.readSource source.toUTF8.data with
    | .trap => tokenize source = .dangling
    | .malformed => False
    | .reading r => tokenize source = r ∧
      match r with
      | .dangling => False
      | .tokens ts => ∃ front, ts = front ++ [⟨.eof, Place.behind source.toList⟩] ∧
          ∀ t ∈ front, t.token ≠ .eof
      | .problems ds => ds ≠ [] ∧ (ds.Pairwise fun d e => d.place.Before e.place) ∧
          ∀ d ∈ ds, d.problem.code ∈ ["L001", "L002", "L003", "L004"] := by
  have htrap := tokenize_eq_dangling_iff source
  rw [Region.behind_eq_escape_iff, ← Octets.Outcome.ofReading_eq_trap_iff] at htrap
  rw [Octets.readSource_eq]
  refine ⟨length_pieces_le source.toList, htrap, ?_⟩
  cases hread : tokenize source with
  | dangling => rfl
  | tokens ts => exact ⟨rfl, tokens_end_mark hread⟩
  | problems ds => exact ⟨rfl, problems_sorted hread⟩

end SeqScript
