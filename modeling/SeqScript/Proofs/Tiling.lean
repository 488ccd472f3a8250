import Mathlib
import SeqScript.Token.Lexer

/-!
# How tokens lie in a source

A source without problems is tokens with gaps between them. Here is what that
means, without reference to the order in which characters are looked at:

* `denoted?` — the token that a whole text stands for, if any.
* `Longest` — a name, a number or a sign does not end where it could go on.
* `Gap` — blanks and comments. Only at the end may a comment be left open.
* `Place.behind` — line and column, counted from the text before.

`Tiled` puts these together, and `tokens_tile_source` says that it holds of what
the scan finds. `sound_scan` has the cases of the scan, and `tiled_pieces` goes
from piece to piece.
-/

namespace SeqScript

-- ---------------------------------------------------------------------------
-- What a text denotes
-- ---------------------------------------------------------------------------

/-- The names that are no identifiers. -/
def reservedNames : List (String × Token) :=
  [("let", .keyword .letK), ("func", .keyword .funcK), ("Func", .keyword .funcK),
    ("if", .keyword .ifK), ("else", .keyword .elseK), ("while", .keyword .whileK),
    ("match", .keyword .matchK), ("case", .keyword .caseK), ("return", .keyword .returnK),
    ("and", .keyword .andK), ("or", .keyword .orK), ("not", .keyword .notK),
    ("true", .bool true), ("false", .bool false),
    ("int", .typeWord .int), ("Int", .typeWord .int),
    ("float", .typeWord .float), ("Float", .typeWord .float),
    ("bool", .typeWord .bool), ("Bool", .typeWord .bool),
    ("string", .typeWord .string), ("String", .typeWord .string),
    ("array", .typeWord .array), ("Array", .typeWord .array),
    ("list", .typeWord .list), ("List", .typeWord .list),
    ("_", .sign .underscore)]

/-- The signs that are no names. -/
def signTexts : List (String × Sign) :=
  [("+", .plus), ("-", .minus), ("*", .star), ("/", .slash), ("%", .percent),
    ("+=", .plusEq), ("-=", .minusEq), ("*=", .starEq), ("/=", .slashEq),
    ("=", .eq), ("==", .eqEq), ("!=", .bangEq),
    ("<", .lt), ("<=", .ltEq), (">", .gt), (">=", .gtEq), ("->", .arrow), ("=>", .fatArrow),
    (":", .colon), (",", .comma), (";", .semicolon), (".", .dot), ("(", .lparen), (")", .rparen),
    ("\x7b", .lbrace), ("\x7d", .rbrace), ("[", .lbracket), ("]", .rbracket)]

/-- Letters, digits and underscores, the first of them no digit. -/
def isName : List Char → Bool
  | [] => false
  | c :: cs => isNameStart c && cs.all isNamePart

/-- The number of a text of digits, with or without a point among them. -/
def numeral? (text : List Char) : Option Token :=
  let whole := text.takeWhile Text.isDigit
  match text.dropWhile Text.isDigit with
  | [] =>
    if Text.digitsValue whole < 0x8000000000000000 then
      some (.int (Int64.ofNat (Text.digitsValue whole)))
    else none
  | '.' :: fraction =>
    if fraction ≠ [] ∧ fraction.all Text.isDigit = true then
      some (.float (Binary64.ofDecimal (Text.digitsValue (whole ++ fraction)) (-fraction.length)))
    else none
  | _ => none

/-- What a text between quotes means, from behind the opening quote to the
closing one, which must be its end. -/
def unquoted? : List Char → Option (List Char)
  | [] => none
  | ['"'] => some []
  | '\\' :: e :: cs => do return (← unescape? e) :: (← unquoted? cs)
  | c :: cs => if c = '"' ∨ c = '\\' ∨ c = '\n' then none else (unquoted? cs).map (c :: ·)

/-- The token that a whole text stands for. -/
def denoted? : List Char → Option Token
  | [] => none
  | c :: cs =>
    let text := c :: cs
    if isName text then
      some ((reservedNames.lookup (String.ofList text)).getD (.ident (String.ofList text)))
    else if Text.isDigit c then numeral? text
    else if c = '"' then (unquoted? cs).map fun content => .str (String.ofList content)
    else (signTexts.lookup (String.ofList text)).map .sign

/-- A name, a number or a sign does not end where it could go on. -/
structure Longest (text rest : List Char) : Prop where
  name : isName text = true → ∀ d ∈ rest.head?, isNamePart d = false
  digits : (∀ c ∈ text.head?, Text.isDigit c = true) → ∀ d ∈ rest.head?, Text.isDigit d = false
  fraction : text.all Text.isDigit = true → ∀ d cs, rest = '.' :: d :: cs → Text.isDigit d = false
  sign : (signTexts.lookup (String.ofList text)).isSome = true → ∀ d ∈ rest.head?,
    signTexts.lookup (String.ofList (text ++ [d])) = none
  comment : text = ['/'] → ∀ d ∈ rest.head?, d ≠ '/' ∧ d ≠ '*'

/-- Blanks and comments before a rest. A comment to the end of the line leaves
the end of the line alone. A comment in signs goes to the first sign that closes
it, and if there is none to the end of the source. -/
inductive Gap : List Char → List Char → Prop
  | nil (rest : List Char) : Gap [] rest
  | blank {c : Char} {gap rest : List Char} :
    c ∈ [' ', '\t', '\r', '\n'] → Gap gap rest → Gap (c :: gap) rest
  | line {comment gap rest : List Char} :
    '\n' ∉ comment → (∀ c ∈ (gap ++ rest).head?, c = '\n') → Gap gap rest →
    Gap ('/' :: '/' :: comment ++ gap) rest
  | block {comment gap rest : List Char} :
    ¬ ['*', '/'] <:+: comment → Gap gap rest →
    Gap ('/' :: '*' :: comment ++ ['*', '/'] ++ gap) rest
  | unclosed {comment : List Char} :
    ¬ ['*', '/'] <:+: comment → Gap ('/' :: '*' :: comment) []

-- ---------------------------------------------------------------------------
-- Tables
-- ---------------------------------------------------------------------------

theorem isDigit_of_isNameStart {c : Char} (h : isNameStart c = true) :
    Text.isDigit c = false := by
  simp only [isNameStart, isLetter, Text.isDigit, Bool.or_eq_true, Bool.and_eq_true,
    decide_eq_true_eq, beq_iff_eq, Bool.and_eq_false_iff, decide_eq_false_iff_not,
    Char.le_def, UInt32.le_iff_toNat_le] at *
  rcases h with (h | h) | rfl
  · exact Or.inr (by have : 'a'.val.toNat = 97 := rfl; have : '9'.val.toNat = 57 := rfl; omega)
  · exact Or.inr (by have : 'A'.val.toNat = 65 := rfl; have : '9'.val.toNat = 57 := rfl; omega)
  · exact Or.inr (by decide)

/-- Characters of a class that has no blanks are none. -/
theorem isSpace_eq_false {p : Char → Bool} {c : Char} (hc : p c = true)
    (hblanks : [' ', '\t', '\r', '\n'].any p = false) : isSpace c = false := by
  rw [Bool.eq_false_iff]
  intro hspace
  have hmem : c ∈ [' ', '\t', '\r', '\n'] := by simpa [isSpace, or_assoc] using hspace
  exact List.any_eq_false.mp hblanks c hmem hc

theorem wordToken_eq (w : String) : wordToken w = (reservedNames.lookup w).getD (.ident w) := by
  unfold wordToken
  split
  case h_28 =>
    have hnone : reservedNames.lookup w = none := by
      rw [List.lookup_eq_none_iff]
      simp_all [reservedNames]
    rw [hnone]
    rfl
  all_goals rfl

theorem lookup_pairSign {c d : Char} {s : Sign} (h : pairSign? c d = some s) :
    signTexts.lookup (String.ofList [c, d]) = some s := by
  unfold pairSign? at h
  split at h
  case h_11 => cases h
  all_goals
    cases h
    decide

theorem lookup_singleSign {c : Char} {s : Sign} (h : singleSign? c = some s) :
    signTexts.lookup (String.ofList [c]) = some s := by
  unfold singleSign? at h
  split at h
  case h_19 => cases h
  all_goals
    cases h
    decide

theorem mem_of_lookup_isSome {text : List Char}
    (h : (signTexts.lookup (String.ofList text)).isSome = true) :
    ∃ p ∈ signTexts, p.1.toList = text := by
  obtain ⟨p, hp, heq⟩ := List.lookup_isSome_iff.1 h
  exact ⟨p, hp, by rw [← eq_of_beq heq, String.toList_ofList]⟩

/-- Signs begin with characters that nothing else begins with. -/
theorem signTexts_head {c : Char} {cs : List Char}
    (h : (signTexts.lookup (String.ofList (c :: cs))).isSome = true) :
    isNameStart c = false ∧ Text.isDigit c = false ∧ c ≠ '"' := by
  obtain ⟨p, hp, heq⟩ := mem_of_lookup_isSome h
  have hall : ∀ p ∈ signTexts, p.1.toList.head?.all (fun c =>
      !isNameStart c && !Text.isDigit c && decide (c ≠ '"')) = true := by decide
  have hhead := hall p hp
  rw [heq] at hhead
  simpa [and_assoc] using hhead

/-- A sign as it is written: one character, or a pair that the lexer knows. -/
def isSignText : List Char → Bool
  | [c, d] => (pairSign? c d).isSome
  | _ :: _ :: _ => false
  | _ => true

/-- No sign of two characters is missing from the table, and none has more. -/
theorem lookup_eq_none {c d : Char} {cs : List Char} (h : pairSign? c d = none ∨ cs ≠ []) :
    signTexts.lookup (String.ofList (c :: d :: cs)) = none := by
  rw [Option.eq_none_iff_forall_not_mem]
  intro s hs
  obtain ⟨p, hp, heq⟩ := mem_of_lookup_isSome (Option.isSome_of_mem hs)
  have hall : ∀ p ∈ signTexts, isSignText p.1.toList = true := by decide
  have hpair := hall p hp
  rw [heq] at hpair
  cases cs with
  | nil => simp_all [isSignText]
  | cons _ _ => exact Bool.noConfusion hpair

theorem wordToken_ne_eof (w : String) : wordToken w ≠ .eof := by
  unfold wordToken
  split <;> exact Token.noConfusion

theorem denoted_ne_eof (text : List Char) : denoted? text ≠ some .eof := by
  cases text with
  | nil => nofun
  | cons c cs =>
    simp only [denoted?]
    split
    · rw [← wordToken_eq]
      exact fun h => wordToken_ne_eof _ (Option.some.inj h)
    split
    · simp only [numeral?]
      split
      · split <;> simp
      · split <;> simp
      · simp
    split <;> simp

-- ---------------------------------------------------------------------------
-- Pieces
-- ---------------------------------------------------------------------------

/-- What a piece that is cut off in front of `rest` is. -/
def Piece.Sound (x : Piece) (rest : List Char) : Prop :=
  match x.content with
  | .blank => ∀ gap rest', rest = gap ++ rest' → Gap gap rest' → Gap (x.text ++ gap) rest'
  | .token t => denoted? x.text = some t ∧ Longest x.text rest
  | .problems found => found ≠ []
  | .dangling => True

theorem head?_dropWhile {p : Char → Bool} {cs : List Char} :
    ∀ d ∈ (cs.dropWhile p).head?, p d = false := by
  intro d hd
  have hnot := List.head?_dropWhile_not p cs
  rw [Option.mem_def.1 hd] at hnot
  exact hnot

theorem sound_word {c : Char} (hc : isNameStart c = true) (cs : List Char) :
    Piece.Sound ⟨c :: cs.takeWhile isNamePart,
      .token (wordToken (String.ofList (c :: cs.takeWhile isNamePart)))⟩
      (cs.dropWhile isNamePart) := by
  have hname : isName (c :: cs.takeWhile isNamePart) = true := by simp [isName, hc]
  have hdigit := isDigit_of_isNameStart hc
  refine ⟨?_, fun _ => head?_dropWhile, ?_, ?_, ?_, ?_⟩
  · rw [denoted?, if_pos hname, wordToken_eq]
  · simp [hdigit]
  · simp [hdigit]
  · intro hsome
    rw [(signTexts_head hsome).1] at hc
    cases hc
  · intro heq
    rw [(List.cons.inj heq).1] at hc
    exact absurd hc (by decide)

section Numbers

variable {c : Char} {whole rest : List Char}

theorem denoted_digit (hname : isNameStart c = false) (hc : Text.isDigit c = true)
    (cs : List Char) : denoted? (c :: cs) = numeral? (c :: cs) := by
  rw [denoted?, if_neg (by simp [isName, hname]), if_pos hc]

theorem longest_digit (hname : isNameStart c = false) (hc : Text.isDigit c = true)
    {cs : List Char} (hrest : ∀ d ∈ rest.head?, Text.isDigit d = false)
    (hpoint : (c :: cs).all Text.isDigit = true →
      ∀ d ds, rest = '.' :: d :: ds → Text.isDigit d = false) : Longest (c :: cs) rest := by
  refine ⟨?_, fun _ => hrest, hpoint, ?_, ?_⟩
  · simp [isName, hname]
  · intro hsome
    rw [(signTexts_head hsome).2.1] at hc
    cases hc
  · intro heq
    rw [(List.cons.inj heq).1] at hc
    exact absurd hc (by decide)

theorem sound_integer (hname : isNameStart c = false)
    (hdigits : ∀ d ∈ c :: whole, Text.isDigit d = true)
    (hrest : ∀ d ∈ rest.head?, Text.isDigit d = false)
    (hpoint : ∀ d ds, rest = '.' :: d :: ds → Text.isDigit d = false) :
    Piece.Sound ⟨c :: whole, integerContent (c :: whole)⟩ rest := by
  have hc : Text.isDigit c = true := hdigits c List.mem_cons_self
  have hnumeral : denoted? (c :: whole) =
      if Text.digitsValue (c :: whole) < 0x8000000000000000 then
        some (.int (Int64.ofNat (Text.digitsValue (c :: whole)))) else none := by
    rw [denoted_digit hname hc, numeral?, List.takeWhile_eq_self_iff.2 hdigits,
      List.dropWhile_eq_nil_iff.2 hdigits]
  simp only [integerContent]
  split
  · next hlt => exact ⟨hnumeral.trans (if_pos hlt), longest_digit hname hc hrest fun _ => hpoint⟩
  · exact List.cons_ne_nil _ _

theorem sound_number (hname : isNameStart c = false)
    (hdigits : ∀ d ∈ c :: whole, Text.isDigit d = true)
    (hrest : ∀ d ∈ rest.head?, Text.isDigit d = false) :
    (scanNumber (c :: whole) rest).1.Sound (scanNumber (c :: whole) rest).2 := by
  have hc : Text.isDigit c = true := hdigits c List.mem_cons_self
  have hdot : Text.isDigit '.' = false := by decide
  unfold scanNumber
  split
  · next d ds =>
    split
    · next hd =>
      refine ⟨?_, longest_digit hname hc head?_dropWhile fun hall => ?_⟩
      · show denoted? (c :: whole ++ _) = _
        rw [List.cons_append, denoted_digit hname hc, ← List.cons_append, numeral?,
          List.takeWhile_append_of_pos hdigits, List.dropWhile_append_of_pos hdigits]
        simp [hdot, hd]
      · simp [hdot] at hall
    · next hd =>
      refine sound_integer hname hdigits hrest fun d' ds' heq => ?_
      obtain ⟨rfl, -⟩ := List.cons.inj (List.cons.inj heq).2
      simpa using hd
  · next hno => exact sound_integer hname hdigits hrest fun d ds heq => (hno d ds heq).elim

end Numbers

theorem unquoted_scanString {cs : List Char} (hclosed : (scanString cs).ending = .closed)
    (hgood : (scanString cs).bad = none) :
    unquoted? (scanString cs).text = some (scanString cs).content := by
  fun_induction scanString cs with
  | case1 => cases hclosed
  | case2 => cases hclosed
  | case3 rest => rfl
  | case4 => cases hclosed
  | case5 e rest ih =>
    unfold StringScan.escape at hclosed hgood ⊢
    cases he : unescape? e with
    | none => simp [he] at hgood
    | some c =>
      simp only [he, Option.map_eq_none_iff] at hclosed hgood ⊢
      simp [unquoted?, he, ih hclosed hgood]
  | case6 c rest hnewline hquote hlone hescape ih =>
    simp only [StringScan.plain, Option.map_eq_none_iff] at hclosed hgood ⊢
    have hslash : c ≠ '\\' := by
      rintro rfl
      cases rest with
      | nil => exact hlone rfl rfl
      | cons e rest => exact hescape e rest rfl rfl
    have hplain : ¬ (c = '"' ∨ c = '\\' ∨ c = '\n') := by
      rintro (h | h | h)
      exacts [hquote h, hslash h, hnewline h]
    rw [unquoted?, if_neg hplain, ih hclosed hgood]
    · rfl
    · exact fun h => absurd h hquote
    · exact fun _ _ h => absurd h hslash

theorem sound_string (cs : List Char) :
    Piece.Sound ⟨'"' :: (scanString cs).text, (scanString cs).toContent⟩ (scanString cs).rest := by
  have hname : isNameStart '"' = false := by decide
  have hdigit : Text.isDigit '"' = false := by decide
  unfold StringScan.toContent
  split
  · trivial
  · exact List.cons_ne_nil _ _
  · next hclosed =>
    split
    · exact List.cons_ne_nil _ _
    · next hgood =>
      refine ⟨?_, by simp [isName, hname], by simp [hdigit], by simp [hdigit], ?_, by simp⟩
      · rw [denoted?, if_neg (by simp [isName, hname]), if_neg (by simp [hdigit]), if_pos rfl,
          unquoted_scanString hclosed hgood]
        rfl
      · exact fun hsome => absurd rfl (signTexts_head hsome).2.2

theorem strayProblems_ne_nil (c : Char) : strayProblems c ≠ [] := by
  unfold strayProblems
  split
  · exact List.cons_ne_nil _ _
  · simp

theorem sound_sign {c : Char} {cs : List Char} (hname : isNameStart c = false)
    (hdigit : Text.isDigit c = false) (hquote : c ≠ '"')
    (hcomment : c = '/' → ∀ d ∈ cs.head?, d ≠ '/' ∧ d ≠ '*') :
    (scanSign c cs).1.Sound (scanSign c cs).2 := by
  have hdenoted {more : List Char} {s : Sign}
      (hs : signTexts.lookup (String.ofList (c :: more)) = some s) :
      denoted? (c :: more) = some (.sign s) := by
    rw [denoted?, if_neg (by simp [isName, hname]), if_neg (by simp [hdigit]), if_neg hquote, hs]
    rfl
  have hlongest {more rest : List Char}
      (hsign : ∀ d ∈ rest.head?, signTexts.lookup (String.ofList (c :: more ++ [d])) = none)
      (hcomment : c :: more = ['/'] → ∀ d ∈ rest.head?, d ≠ '/' ∧ d ≠ '*') :
      Longest (c :: more) rest :=
    ⟨by simp [isName, hname], by simp [hdigit], by simp [hdigit], fun _ => hsign, hcomment⟩
  have hsingle (hpair : ∀ d ∈ cs.head?, pairSign? c d = none) :
      Piece.Sound ⟨[c], singleContent c⟩ cs := by
    unfold singleContent
    split
    · next s hs =>
      refine ⟨hdenoted (lookup_singleSign hs), hlongest (fun d hd => ?_) fun heq => ?_⟩
      · exact lookup_eq_none (Or.inl (hpair d hd))
      · exact hcomment (List.cons.inj heq).1
    · exact strayProblems_ne_nil c
  cases cs with
  | nil => exact hsingle (by simp)
  | cons d rest =>
    simp only [scanSign]
    split
    · next s hpair =>
      refine ⟨hdenoted (lookup_pairSign hpair), hlongest (fun e _ => ?_) (by simp)⟩
      exact lookup_eq_none (Or.inr (by simp))
    · next hpair => exact hsingle (by simpa using hpair)

theorem gap_spaces {spaces gap rest : List Char} (h : ∀ c ∈ spaces, isSpace c = true)
    (hgap : Gap gap rest) : Gap (spaces ++ gap) rest := by
  induction spaces with
  | nil => exact hgap
  | cons c spaces ih =>
    rw [List.forall_mem_cons] at h
    refine .blank ?_ (ih h.2)
    simpa [isSpace, or_assoc] using h.1

/-- A comment in signs ends with the first sign that closes it, or never. -/
theorem scanBlockComment_spec (cs : List Char) :
    (∃ comment, ¬ ['*', '/'] <:+: comment ∧ (scanBlockComment cs).1 = comment ++ ['*', '/']) ∨
      (¬ ['*', '/'] <:+: (scanBlockComment cs).1 ∧ (scanBlockComment cs).2 = []) := by
  fun_induction scanBlockComment cs with
  | case1 => exact Or.inr ⟨by simp, rfl⟩
  | case2 rest => exact Or.inl ⟨[], by simp, rfl⟩
  | case3 c rest hclose ih =>
    have happ := scanBlockComment_append rest
    -- the sign cannot begin at `c`, as the scan would have seen it
    have hcons {text more : List Char} (htext : ¬ ['*', '/'] <:+: text)
        (hrest : text ++ more = rest) : ¬ ['*', '/'] <:+: c :: text := by
      intro hinfix
      rcases List.infix_cons_iff.1 hinfix with ⟨tail, htail⟩ | hinner
      · obtain ⟨rfl, rfl⟩ := List.cons.inj htail
        exact hclose (tail ++ more) rfl hrest.symm
      · exact htext hinner
    rcases ih with ⟨comment, hnone, heq⟩ | ⟨hnone, hnil⟩
    · have hrest : comment ++ (['*', '/'] ++ (scanBlockComment rest).2) = rest := by
        rw [← List.append_assoc, ← heq, happ]
      exact Or.inl ⟨c :: comment, hcons hnone hrest, by simp [heq]⟩
    · exact Or.inr ⟨hcons hnone happ, hnil⟩

theorem sound_blockComment (cs : List Char) :
    Piece.Sound ⟨'/' :: '*' :: (scanBlockComment cs).1, .blank⟩ (scanBlockComment cs).2 := by
  intro gap rest hrest hgap
  rcases scanBlockComment_spec cs with ⟨comment, hnone, heq⟩ | ⟨hnone, hnil⟩
  · have := Gap.block hnone hgap
    simpa [heq] using this
  · rw [hnil] at hrest
    obtain ⟨rfl, rfl⟩ := List.append_eq_nil_iff.1 hrest.symm
    rw [List.append_nil]
    exact .unclosed hnone

theorem sound_lineComment (cs : List Char) :
    Piece.Sound ⟨'/' :: '/' :: cs.takeWhile beforeNewline, .blank⟩
      (cs.dropWhile beforeNewline) := by
  intro gap rest hrest hgap
  refine Gap.line (fun hmem => ?_) (fun d hd => ?_) hgap
  · have := List.all_eq_true.1 List.all_takeWhile _ hmem
    exact absurd this (by decide)
  · have := head?_dropWhile d (hrest ▸ hd)
    simpa [beforeNewline] using this

/-- **What the scan cuts off is sound,** whatever the text. -/
theorem sound_scan (c : Char) (cs : List Char) : (scan c cs).1.Sound (scan c cs).2 := by
  unfold scan
  split
  · next hspace =>
    intro gap rest _ hgap
    refine gap_spaces (List.forall_mem_cons.2 ⟨hspace, fun d hd => ?_⟩) hgap
    exact List.all_eq_true.1 List.all_takeWhile d hd
  split
  · next hname => exact sound_word hname cs
  split
  · next hname hdigit =>
    refine sound_number (by simpa using hname) (List.forall_mem_cons.2 ⟨hdigit, fun d hd => ?_⟩)
      head?_dropWhile
    exact List.all_eq_true.1 List.all_takeWhile d hd
  split
  · exact sound_string _
  · exact sound_lineComment _
  · exact sound_blockComment _
  · next hname hdigit _ _ hquote hline hblock =>
    refine sound_sign (by simpa using hname) (by simpa using hdigit) hquote ?_
    rintro rfl d hd
    obtain ⟨rest, rfl⟩ : ∃ rest, cs = d :: rest := by
      cases cs with
      | nil => cases hd
      | cons e rest => exact ⟨rest, by rw [Option.some.inj hd]⟩
    constructor
    · rintro rfl
      exact hline rest rfl rfl
    · rintro rfl
      exact hblock rest rfl rfl

-- ---------------------------------------------------------------------------
-- Places
-- ---------------------------------------------------------------------------

/-- The number of bytes of a text. -/
def byteCount (cs : List Char) : Nat := (cs.map Char.utf8Size).sum

/-- The line that a text breaks off in, as far as it goes. -/
def lastLine (cs : List Char) : List Char := (cs.reverse.takeWhile (· != '\n')).reverse

/-- The place behind a text that begins where the source begins. -/
def Place.behind (before : List Char) : Place where
  line := 1 + before.count '\n'
  column := 1 + byteCount (lastLine before)

theorem byteCount_append (s t : List Char) : byteCount (s ++ t) = byteCount s + byteCount t := by
  simp [byteCount]

theorem byteCount_pos {cs : List Char} (h : cs ≠ []) : 0 < byteCount cs := by
  cases cs with
  | nil => exact absurd rfl h
  | cons c cs =>
    have := c.utf8Size_pos
    simp only [byteCount, List.map_cons, List.sum_cons]
    omega

theorem size_utf8Encode (cs : List Char) : cs.utf8Encode.size = byteCount cs := by
  induction cs with
  | nil => rfl
  | cons c cs ih =>
    rw [List.utf8Encode_cons, ByteArray.size_append, ih, List.utf8Encode_singleton]
    simp [byteCount]

theorem lastLine_concat (cs : List Char) (c : Char) :
    lastLine (cs ++ [c]) = if c = '\n' then [] else lastLine cs ++ [c] := by
  split <;> simp_all [lastLine]

theorem past_start (cs : List Char) : Place.start.past cs = Place.behind cs := by
  induction cs using List.reverseRecOn with
  | nil => rfl
  | append_singleton cs c ih =>
    rw [Place.past_append, ih]
    show (Place.behind cs).next c = _
    unfold Place.next Place.behind
    rw [lastLine_concat, List.count_append]
    split
    · next hc => simp [hc, byteCount, Nat.add_assoc]
    · next hc => simp [hc, byteCount, Nat.add_assoc]

-- ---------------------------------------------------------------------------
-- Tiles
-- ---------------------------------------------------------------------------

/-- A token in a source: the bytes from `first` up to `last`, which read `text`,
behind a gap. -/
structure Tile where
  first : Nat
  last : Nat
  gap : List Char
  text : List Char
  lexeme : Lexeme

/-- All that a tile takes up. -/
def Tile.whole (x : Tile) : List Char := x.gap ++ x.text

/-- A tile between what is before it and the rest of the source. -/
structure Tile.Fits (before : List Char) (x : Tile) (rest : List Char) : Prop where
  first : x.first = byteCount (before ++ x.gap)
  last : x.last = byteCount (before ++ x.whole)
  gap : Gap x.gap (x.text ++ rest)
  text : x.text ≠ []
  kind : denoted? x.text = some x.lexeme.token
  longest : Longest x.text rest
  place : x.lexeme.place = Place.behind (before ++ x.gap)

/-- Tiles one behind another and a gap behind them all. -/
def Tiled (before : List Char) : List Tile → List Char → Prop
  | [], tail => Gap tail []
  | x :: xs, tail => x.Fits before (xs.flatMap Tile.whole ++ tail) ∧
      Tiled (before ++ x.whole) xs tail

/-- A blank piece in front belongs to the gap that follows it. -/
theorem Tiled.blank {before text tail : List Char} {xs : List Tile}
    (htext : ∀ gap rest, xs.flatMap Tile.whole ++ tail = gap ++ rest → Gap gap rest →
      Gap (text ++ gap) rest)
    (hxs : Tiled (before ++ text) xs tail) :
    ∃ ys tail', Tiled before ys tail' ∧ ys.map Tile.lexeme = xs.map Tile.lexeme ∧
      ys.flatMap Tile.whole ++ tail' = text ++ (xs.flatMap Tile.whole ++ tail) := by
  cases xs with
  | nil => exact ⟨[], text ++ tail, htext tail [] (by simp) hxs, rfl, rfl⟩
  | cons x xs =>
    obtain ⟨hx, hxs⟩ := hxs
    have hwhole : before ++ text ++ x.whole = before ++ (text ++ x.gap ++ x.text) := by
      simp [Tile.whole]
    refine ⟨{ x with gap := text ++ x.gap } :: xs, tail, ⟨?_, ?_⟩, rfl, by simp [Tile.whole]⟩
    · have hgap := htext x.gap (x.text ++ (xs.flatMap Tile.whole ++ tail))
        (by simp [Tile.whole]) hx.gap
      refine ⟨?_, hx.last.trans (congrArg byteCount hwhole), hgap, hx.text, hx.kind,
        hx.longest, ?_⟩
      · rw [hx.first, List.append_assoc]
      · rw [hx.place, List.append_assoc]
    · show Tiled (before ++ (text ++ x.gap ++ x.text)) xs tail
      rw [← hwhole]
      exact hxs

theorem tiled_pieces (cs before : List Char)
    (hclean : ∀ x ∈ pieces cs, x.content = .blank ∨ ∃ t, x.content = .token t) :
    ∃ tiles tail, Tiled before tiles tail ∧ tiles.flatMap Tile.whole ++ tail = cs ∧
      tiles.map Tile.lexeme =
        (placed (Place.behind before) (pieces cs)).filterMap pieceLexeme? := by
  fun_induction pieces cs generalizing before with
  | case1 => exact ⟨[], [], .nil [], rfl, rfl⟩
  | case2 c cs ih =>
    rw [List.forall_mem_cons] at hclean
    obtain ⟨hpiece, hclean⟩ := hclean
    have hsound := sound_scan c cs
    have hne := scan_text_ne_nil c cs
    have hplace : (Place.behind before).past (scan c cs).1.text =
        Place.behind (before ++ (scan c cs).1.text) := by
      rw [← past_start, ← past_start, Place.past_append]
    obtain ⟨xs, tail, hxs, hrest, hmap⟩ := ih (before ++ (scan c cs).1.text) hclean
    rw [placed, hplace, ← scan_append c cs]
    generalize scan c cs = r at *
    obtain ⟨⟨text, content⟩, rest⟩ := r
    rcases hpiece with rfl | ⟨t, rfl⟩
    · obtain ⟨ys, tail', hys, hsame, heq⟩ := Tiled.blank (hrest ▸ hsound) hxs
      exact ⟨ys, tail', hys, by rw [heq, hrest], hsame.trans hmap⟩
    · let x : Tile := ⟨byteCount before, byteCount (before ++ text), [], text, t, .behind before⟩
      have hx : x.Fits before rest := by
        refine ⟨?_, rfl, .nil _, hne, hsound.1, hsound.2, ?_⟩
        all_goals simp [x]
      refine ⟨x :: xs, tail, ⟨hrest ▸ hx, hxs⟩, ?_, congrArg _ hmap⟩
      rw [List.flatMap_cons, List.append_assoc, hrest]
      rfl

variable {before tail : List Char} {tiles : List Tile}

theorem Tiled.token_ne_eof (h : Tiled before tiles tail) :
    ∀ x ∈ tiles, x.lexeme.token ≠ .eof := by
  induction tiles generalizing before with
  | nil => simp
  | cons x xs ih =>
    obtain ⟨hx, hxs⟩ := h
    exact List.forall_mem_cons.2 ⟨fun heof => denoted_ne_eof x.text (heof ▸ hx.kind), ih hxs⟩

theorem Tiled.le_first (h : Tiled before tiles tail) :
    ∀ x ∈ tiles, byteCount before ≤ x.first ∧ x.first < x.last := by
  induction tiles generalizing before with
  | nil => simp
  | cons x xs ih =>
    obtain ⟨hx, hxs⟩ := h
    have hpos := byteCount_pos hx.text
    have hfirst := hx.first
    have hlast := hx.last
    simp only [Tile.whole, byteCount_append] at hfirst hlast
    refine List.forall_mem_cons.2 ⟨⟨by omega, by omega⟩, fun y hy => ?_⟩
    have hy := ih hxs y hy
    rw [byteCount_append] at hy
    exact ⟨by omega, hy.2⟩

theorem Tiled.pairwise (h : Tiled before tiles tail) :
    tiles.Pairwise fun x y => x.last ≤ y.first := by
  induction tiles generalizing before with
  | nil => exact .nil
  | cons x xs ih =>
    obtain ⟨hx, hxs⟩ := h
    exact .cons (fun y hy => hx.last ▸ (hxs.le_first y hy).1) (ih hxs)

theorem Tiled.bytes (h : Tiled before tiles tail) :
    ∀ x ∈ tiles, (before ++ (tiles.flatMap Tile.whole ++ tail)).utf8Encode.extract x.first x.last =
      x.text.utf8Encode := by
  induction tiles generalizing before with
  | nil => simp
  | cons x xs ih =>
    obtain ⟨hx, hxs⟩ := h
    refine List.forall_mem_cons.2 ⟨?_, fun y hy => ?_⟩
    · have hsplit : before ++ ((x :: xs).flatMap Tile.whole ++ tail) =
          (before ++ x.gap) ++ x.text ++ (xs.flatMap Tile.whole ++ tail) := by
        simp [Tile.whole]
      have hlast : x.last = ((before ++ x.gap) ++ x.text).utf8Encode.size := by
        rw [size_utf8Encode, hx.last, Tile.whole, List.append_assoc]
      have hfirst : x.first = (before ++ x.gap).utf8Encode.size := by
        rw [size_utf8Encode, hx.first]
      rw [hsplit, List.utf8Encode_append, hlast, ByteArray.extract_append_size_left, ← hlast,
        List.utf8Encode_append]
      refine ByteArray.extract_append_eq_right hfirst ?_
      rw [hlast, List.utf8Encode_append, ByteArray.size_append]
    · have hbytes := ih hxs y hy
      simpa using hbytes

theorem mem_placed {x : Piece} {xs : List Piece} (h : x ∈ xs) (p : Place) :
    ∃ q, (q, x) ∈ placed p xs := by
  induction xs generalizing p with
  | nil => cases h
  | cons y xs ih =>
    rcases List.mem_cons.1 h with rfl | h
    · exact ⟨p, List.mem_cons_self⟩
    · obtain ⟨q, hq⟩ := ih h (p.past y.text)
      exact ⟨q, List.mem_cons_of_mem _ hq⟩

theorem sound_of_mem_pieces {cs : List Char} :
    ∀ x ∈ pieces cs, ∃ rest, x.Sound rest := by
  fun_induction pieces cs with
  | case1 => simp
  | case2 c cs ih => exact List.forall_mem_cons.2 ⟨⟨_, sound_scan c cs⟩, ih⟩

/-- Where nothing is reported, every piece is blank or a token. -/
theorem clean_of_no_diagnostics {cs : List Char}
    (hdangling : ∀ x ∈ pieces cs, x.content ≠ .dangling)
    (hnone : (placed Place.start (pieces cs)).flatMap pieceDiagnostics = []) :
    ∀ x ∈ pieces cs, x.content = .blank ∨ ∃ t, x.content = .token t := by
  intro x hx
  obtain ⟨q, hq⟩ := mem_placed hx Place.start
  obtain ⟨rest, hsound⟩ := sound_of_mem_pieces x hx
  have hquiet := List.flatMap_eq_nil_iff.1 hnone _ hq
  obtain ⟨text, content⟩ := x
  cases content with
  | blank => exact Or.inl rfl
  | token t => exact Or.inr ⟨t, rfl⟩
  | problems found => exact absurd (List.map_eq_nil_iff.1 hquiet) hsound
  | dangling => exact absurd rfl (hdangling _ hx)

theorem tokenize_eq_tokens {source : String} {ts : List Lexeme}
    (h : tokenize source = .tokens ts) :
    (∀ x ∈ pieces source.toList, x.content = .blank ∨ ∃ t, x.content = .token t) ∧
      ts = (placed Place.start (pieces source.toList)).filterMap pieceLexeme? ++
        [⟨.eof, Place.start.past source.toList⟩] := by
  simp only [tokenize] at h
  split at h
  · cases h
  · next hdangling =>
    split at h
    · next hnone =>
      cases h
      exact ⟨clean_of_no_diagnostics (by simpa using hdangling) hnone, rfl⟩
    · cases h

/-- **The tokens of a source tile it.** There is a row of bytes for each token,
none of them empty, one behind another. The token is the one that its text
denotes, and the text is as long as it can be. What is between the rows, before
them and behind them are blanks and comments, of which only the very last may be
left open. Line and column of a token count the line ends before it and the bytes
since the last of them. The end mark is the last token and no other, and stands
where the source ends. -/
theorem tokens_tile_source {source : String} {ts : List Lexeme}
    (h : tokenize source = .tokens ts) :
    ∃ tiles tail,
      source.toList = tiles.flatMap Tile.whole ++ tail ∧
      Tiled [] tiles tail ∧
      (∀ x ∈ tiles, x.first < x.last ∧
        source.toByteArray.extract x.first x.last = x.text.utf8Encode ∧
        x.lexeme.token ≠ .eof) ∧
      (tiles.Pairwise fun x y => x.last ≤ y.first) ∧
      ts = tiles.map Tile.lexeme ++ [⟨.eof, Place.behind source.toList⟩] := by
  obtain ⟨hclean, rfl⟩ := tokenize_eq_tokens h
  obtain ⟨tiles, tail, htiled, hsource, hmap⟩ := tiled_pieces source.toList [] hclean
  refine ⟨tiles, tail, hsource.symm, htiled,
    fun x hx => ⟨?_, ?_, htiled.token_ne_eof x hx⟩, htiled.pairwise, ?_⟩
  · exact (htiled.le_first x hx).2
  · have hbytes := htiled.bytes x hx
    rwa [List.nil_append, hsource, String.utf8Encode_toList] at hbytes
  · rw [hmap, past_start]
    rfl

/-- A comment with a character of two bytes, and one that nothing ends. -/
theorem tokens_tile_source_comments :
    let source := "a /*é*/ +=\n1//"
    let ts : List Lexeme := [⟨.ident "a", ⟨1, 1⟩⟩, ⟨.sign .plusEq, ⟨1, 10⟩⟩,
      ⟨.int 1, ⟨2, 1⟩⟩, ⟨.eof, ⟨2, 4⟩⟩]
    tokenize source = .tokens ts ∧ ∃ tiles tail,
      source.toList = tiles.flatMap Tile.whole ++ tail ∧ Tiled [] tiles tail ∧
        ts = tiles.map Tile.lexeme ++ [⟨.eof, Place.behind source.toList⟩] := by
  intro source ts
  have hread : tokenize source = .tokens ts := by cbv
  obtain ⟨tiles, tail, hsource, htiled, -, -, hts⟩ := tokens_tile_source hread
  exact ⟨hread, tiles, tail, hsource, htiled, hts⟩

end SeqScript
