import Mathlib
import SeqScript.Proofs.Numerals
import SeqScript.Proofs.Parsing
import SeqScript.Proofs.Rendering

/-!
# Literals as tokens

A literal that is a source by itself is one piece of it, so that it is enough to know what the scan
cuts off (`tokenize_of_token`, `tokenize_of_problem`).

* Digits are the number that they denote by their places, or too large (`tokenize_digits`,
  `tokenize_digits_too_large`). So no token of any source has a negative number
  (`nonneg_of_mem_tokens`), and patterns, where a number behind a minus sign is negated, have
  exactly the numbers that are written (`Pattern.Spelled`): `digits_read_exactly`.
* A text between quotes, with escapes for the characters that need one, is the text again
  (`tokenize_literalText`).
-/

namespace SeqScript

-- ---------------------------------------------------------------------------
-- Sources of one piece
-- ---------------------------------------------------------------------------

section

variable {c : Char} {cs text : List Char} {x : Piece} {source : String}

/-- A source of which the scan leaves nothing is one piece. -/
theorem pieces_of_scan (h : scan c cs = (x, [])) : pieces (c :: cs) = [x] := by
  rw [pieces, h, pieces]

/-- A source of one token is read as that token and the end mark. -/
theorem tokenize_of_token {t : Token} (h : pieces source.toList = [⟨text, .token t⟩]) :
    tokenize source = .tokens [⟨t, Place.start⟩, ⟨.eof, Place.start.past source.toList⟩] := by
  rw [tokenize, h]
  rfl

theorem tokenize_of_problem {problem : Problem}
    (h : pieces source.toList = [⟨text, .problems [(0, problem)]⟩]) :
    tokenize source = .problems [⟨Place.start, problem⟩] := by
  rw [tokenize, h]
  rfl

end

-- ---------------------------------------------------------------------------
-- Texts between quotes
-- ---------------------------------------------------------------------------

/-- How a character of a text is written between quotes. -/
def literalChar : Char → List Char
  | '\\' => ['\\', '\\']
  | '"' => ['\\', '"']
  | '\n' => ['\\', 'n']
  | '\t' => ['\\', 't']
  | c => [c]

/-- The literal of a text. -/
def literalText (s : String) : String :=
  String.ofList ('"' :: s.toList.flatMap literalChar ++ ['"'])

/-- A character as it is written in a literal is read as itself. -/
theorem scanString_literalChar (c : Char) (cs : List Char) :
    scanString (literalChar c ++ cs) =
      { scanString cs with
        text := literalChar c ++ (scanString cs).text
        content := c :: (scanString cs).content
        bad := (scanString cs).bad.map fun (i, b) => (i + byteCount (literalChar c), b) } := by
  unfold literalChar
  split
  · rfl
  · rfl
  · rfl
  · rfl
  · next hslash hquote hnewline _ =>
    show scanString (c :: cs) = _
    rw [scanString]
    · rfl
    · exact hnewline
    · exact hquote
    · exact fun h => absurd h hslash
    · exact fun _ _ h => absurd h hslash

/-- So is a whole text, by induction on its characters. -/
theorem scanString_literal (cs rest : List Char) :
    scanString (cs.flatMap literalChar ++ '"' :: rest) =
      ⟨cs.flatMap literalChar ++ ['"'], rest, .closed, cs, none⟩ := by
  induction cs with
  | nil => rfl
  | cons c cs ih =>
    rw [List.flatMap_cons, List.append_assoc, scanString_literalChar, ih, List.append_assoc]
    rfl

/-- **A text is read back from its literal.** -/
theorem tokenize_literalText (s : String) : tokenize (literalText s) =
    .tokens [⟨.str s, ⟨1, 1⟩⟩, ⟨.eof, Place.behind (literalText s).toList⟩] := by
  have hscan : scan '"' (s.toList.flatMap literalChar ++ ['"']) =
      (⟨'"' :: (s.toList.flatMap literalChar ++ ['"']), .token (.str s)⟩, []) := by
    show (Piece.mk ('"' :: (scanString _).text) (scanString _).toContent, (scanString _).rest) = _
    rw [scanString_literal, StringScan.toContent, String.ofList_toList]
  have hpieces := pieces_of_scan hscan
  rw [← past_start]
  apply tokenize_of_token
  rw [literalText, String.toList_ofList]
  exact hpieces

-- ---------------------------------------------------------------------------
-- Digits
-- ---------------------------------------------------------------------------

section

variable {c : Char} {cs ds : List Char}

theorem isNameStart_of_isDigit (hc : Text.isDigit c = true) : isNameStart c = false := by
  rw [Bool.eq_false_iff]
  intro hname
  rw [isDigit_of_isNameStart hname] at hc
  cases hc

/-- Digits are taken as far as they go. -/
theorem scan_digits (h : ∀ d ∈ c :: cs, Text.isDigit d = true) :
    scan c cs = (⟨c :: cs, integerContent (c :: cs)⟩, []) := by
  obtain ⟨hc, hcs⟩ := List.forall_mem_cons.mp h
  have hspace : isSpace c = false := isSpace_eq_false hc (by decide)
  unfold scan
  rw [if_neg (by simp [hspace]), if_neg (by simp [isNameStart_of_isDigit hc]), if_pos hc,
    List.takeWhile_eq_self_iff.mpr hcs, List.dropWhile_eq_nil_iff.mpr hcs]
  rfl

theorem pieces_digits (h : Text.Digits ds) : pieces ds = [⟨ds, integerContent ds⟩] := by
  obtain ⟨c, cs, rfl, -⟩ := h.exists_cons
  exact pieces_of_scan (scan_digits h.isDigit)

/-- Digits are one column wide each. -/
theorem past_digits (h : ∀ d ∈ ds, Text.isDigit d = true) (p : Place) :
    p.past ds = ⟨p.line, p.column + ds.length⟩ := by
  induction ds generalizing p with
  | nil => rfl
  | cons c cs ih =>
    obtain ⟨hc, hcs⟩ := List.forall_mem_cons.mp h
    have hrange := Text.toNat_of_isDigit hc
    have hsize : c.utf8Size = 1 := by
      rw [Char.utf8Size_eq_one_iff, UInt32.le_iff_toNat_le]
      exact hrange.2.trans (by decide)
    have hnext : p.next c = ⟨p.line, p.column + 1⟩ := by
      rw [Place.next, if_neg (by rintro rfl; exact absurd hc (by decide)), hsize]
    show (p.next c).past cs = _
    rw [hnext, ih hcs]
    exact congrArg (Place.mk p.line) (Nat.add_right_comm p.column 1 cs.length)

/-- Digits whose value fits are the number that they denote. -/
theorem tokenize_digits (h : Text.Digits ds) (hsmall : Text.placeValue ds < 2 ^ 63) :
    tokenize (String.ofList ds) = .tokens
      [⟨.int (Int64.ofNat (Text.placeValue ds)), ⟨1, 1⟩⟩, ⟨.eof, ⟨1, 1 + ds.length⟩⟩] := by
  have hcontent : integerContent ds = .token (.int (Int64.ofNat (Text.placeValue ds))) := by
    rw [integerContent, Text.digitsValue_eq]
    exact if_pos hsmall
  have hpieces : pieces (String.ofList ds).toList =
      [⟨ds, .token (.int (Int64.ofNat (Text.placeValue ds)))⟩] := by
    rw [String.toList_ofList, pieces_digits h, hcontent]
  rw [tokenize_of_token hpieces, String.toList_ofList, past_digits h.isDigit]
  rfl

/-- All others are too large, and say so. -/
theorem tokenize_digits_too_large (h : Text.Digits ds) (hlarge : 2 ^ 63 ≤ Text.placeValue ds) :
    tokenize (String.ofList ds) = .problems [⟨⟨1, 1⟩, .integerTooLarge (String.ofList ds)⟩] := by
  have hcontent : integerContent ds = .problems [(0, .integerTooLarge (String.ofList ds))] := by
    rw [integerContent, Text.digitsValue_eq]
    exact if_neg (Nat.not_lt.mpr hlarge)
  have hpieces : pieces (String.ofList ds).toList =
      [⟨ds, .problems [(0, .integerTooLarge (String.ofList ds))]⟩] := by
    rw [String.toList_ofList, pieces_digits h, hcontent]
  exact tokenize_of_problem hpieces

end

-- ---------------------------------------------------------------------------
-- The numbers of tokens
-- ---------------------------------------------------------------------------

theorem wordToken_ne_int (w : String) (v : Int64) : wordToken w ≠ .int v := by
  unfold wordToken
  split <;> exact Token.noConfusion

/-- A numeral has no sign. -/
theorem nonneg_of_numeral {text : List Char} {v : Int64} (h : numeral? text = some (.int v)) :
    0 ≤ v.toInt := by
  rw [numeral?] at h
  split at h
  · split at h
    · next hsmall =>
      cases h
      rw [Int64.toInt_ofNat_of_lt hsmall]
      exact Int.natCast_nonneg _
    · cases h
  · split at h <;> cases h
  · cases h

/-- No other token is a number. -/
theorem nonneg_of_denoted {text : List Char} {v : Int64} (h : denoted? text = some (.int v)) :
    0 ≤ v.toInt := by
  obtain _ | ⟨c, cs⟩ := text
  · cases h
  · simp only [denoted?] at h
    split at h
    · rw [← wordToken_eq] at h
      exact absurd (Option.some.inj h) (wordToken_ne_int _ v)
    · split at h
      · exact nonneg_of_numeral h
      · split at h
        all_goals
          obtain ⟨_, -, hother⟩ := Option.map_eq_some_iff.mp h
          cases hother

/-- What a token is, its own text says. -/
theorem Tiled.kind {before tail : List Char} {tiles : List Tile} (h : Tiled before tiles tail) :
    ∀ x ∈ tiles, denoted? x.text = some x.lexeme.token := by
  induction tiles generalizing before with
  | nil => simp
  | cons x xs ih => exact List.forall_mem_cons.mpr ⟨h.1.kind, ih h.2⟩

/-- **No token has a negative number.** -/
theorem nonneg_of_mem_tokens {source : String} {ts : List Lexeme} (h : tokenize source = .tokens ts)
    {l : Lexeme} (hl : l ∈ ts) {v : Int64} (hv : l.token = .int v) : 0 ≤ v.toInt := by
  obtain ⟨hclean, rfl⟩ := tokenize_eq_tokens h
  obtain ⟨tiles, tail, htiled, -, hmap⟩ := tiled_pieces source.toList [] hclean
  rcases List.mem_append.mp hl with hbody | hend
  · have hmem : l ∈ tiles.map Tile.lexeme := hmap ▸ hbody
    obtain ⟨x, hx, rfl⟩ := List.mem_map.mp hmem
    exact nonneg_of_denoted (hv ▸ htiled.kind x hx)
  · rw [List.mem_singleton.mp hend] at hv
    cases hv

-- ---------------------------------------------------------------------------
-- Patterns
-- ---------------------------------------------------------------------------

/-- A pattern with the literals that tokens spell. Behind a minus sign a number is negated, which
for an integer is to be exact. -/
inductive Pattern.Spelled (ls : List Lexeme) : Pattern → Prop
  | wildcard : Spelled ls .wildcard
  | bind (name : String) : Spelled ls (.bind name)
  | literal {l : Lexeme} {v : Literal} : l ∈ ls → l.token = v.token → Spelled ls (.literal v)
  | negativeInt {l : Lexeme} {v w : Int64} : l ∈ ls → l.token = .int v → w.toInt = -v.toInt →
    Spelled ls (.literal (.int w))
  | negativeFloat {l : Lexeme} {x : Binary64} : l ∈ ls → l.token = .float x →
    Spelled ls (.literal (.float (-x)))
  | items {ps : List Pattern} : (∀ p ∈ ps, Spelled ls p) → Spelled ls (.items ps)

/-- A word without a minus sign can be given one. -/
theorem toInt_neg_of_nonneg {v : Int64} (hv : 0 ≤ v.toInt) : (-v).toInt = -v.toInt := by
  have hrange := v.toInt_lt
  rw [Int64.toInt_neg]
  exact Int.bmod_eq_of_le (by omega) (by omega)

namespace Parser

variable {o : Cursor}

/-- A number behind a minus sign is negated. -/
theorem negativeLiteral_of_int {c : Cursor} {v : Int64} (h : c.current.token = .int v) :
    negativeLiteral c = .ok (.literal (.int (-v))) c.next := by
  obtain ⟨⟨t, place⟩, ls⟩ := c
  obtain rfl : t = .int v := h
  rfl

section

variable (hint : ∀ l ∈ o.row, ∀ v, l.token = .int v → 0 ≤ v.toInt)

include hint

theorem reader_negativeLiteral_spelled (n : Nat) :
    Reader o n negativeLiteral (Pattern.Spelled o.row) := by
  intro c hc _
  have hmem : c.current ∈ o.row := hc.suffix.mem List.mem_cons_self
  rw [negativeLiteral]
  apply Reads.advance_bind
  split
  · next v htoken =>
    have hexact := toInt_neg_of_nonneg (hint _ hmem v htoken)
    exact .pure ⟨hc.bound_next (by simp [htoken]), .negativeInt hmem htoken hexact⟩
  · next x htoken =>
    exact .pure ⟨hc.bound_next (by simp [htoken]), .negativeFloat hmem htoken⟩
  · exact .failAt c.suffix_next hc.suffix Problem.noConfusion

/-- By induction on the levels of nesting: every literal of a pattern is one of the row, or the
negation of one. -/
theorem reader_patternAt_spelled (n : Nat) : Reader o n (patternAt n) (Pattern.Spelled o.row) := by
  induction n with
  | zero => exact fun c _ hn => absurd hn c.not_bound_le_zero
  | succ n ih =>
    intro c hc hn
    have hmem : c.current ∈ o.row := hc.suffix.mem List.mem_cons_self
    apply Reads.advance_bind
    cases htoken : c.current.token with
    | int | float | bool | str =>
      exact .pure ⟨hc.bound_next (by simp [htoken]), .literal hmem htoken⟩
    | ident name => exact .pure ⟨hc.bound_next (by simp [htoken]), .bind name⟩
    | keyword | typeWord | eof => exact .failAt c.suffix_next hc.suffix Problem.noConfusion
    | sign s =>
      have hnext := hc.bound_next (by simp [htoken])
      cases s with
      | underscore => exact .pure ⟨hnext, .wildcard⟩
      | minus =>
        exact (reader_negativeLiteral_spelled hint _ c.next hc.next (Nat.le_refl _)).imp
          fun _ _ _ h => ⟨by omega, h.2⟩
      | lbracket =>
        apply (reads_items ih _ hc.next (by omega)).bind hc.next
        intro ps c₁ hc₁ h₁ hps
        apply (reader_expect Token.noConfusion).bind hc₁ (Nat.le_refl _)
        intro _ c₂ _ h₂ _
        exact .pure ⟨by omega, .items hps⟩
      | _ => exact .failAt c.suffix_next hc.suffix Problem.noConfusion

end

end Parser

/-- **Digits are read exactly, and negation in patterns is exact.** One decimal digit or more, with
zeros in front or without, are the token of the number that they denote if it is less than
`2 ^ 63`, and otherwise nothing but a problem where they begin.

So wherever reading is in the tokens of a source, a number there can be negated, and a pattern that
is read from there on has exactly the numbers that are written. -/
theorem digits_read_exactly :
    (∀ ds, Text.Digits ds →
      (Text.placeValue ds < 2 ^ 63 → ∃ v : Int64, v.toInt = Text.placeValue ds ∧
        tokenize (String.ofList ds) =
          .tokens [⟨.int v, ⟨1, 1⟩⟩, ⟨.eof, ⟨1, 1 + ds.length⟩⟩]) ∧
      (2 ^ 63 ≤ Text.placeValue ds → ∃ problem : Problem, problem.code = "L004" ∧
        tokenize (String.ofList ds) = .problems [⟨⟨1, 1⟩, problem⟩])) ∧
    ∀ source ts, tokenize source = .tokens ts → ∀ c : Cursor, c.row <:+ ts →
      (∀ v, c.current.token = .int v → ∃ w : Int64, w.toInt = -v.toInt ∧
        Parser.negativeLiteral c = .ok (.literal (.int w)) c.next) ∧
      ∀ p c', Parser.pattern c = .ok p c' → p.Spelled c.row := by
  constructor
  · intro ds hds
    constructor
    · intro hsmall
      exact ⟨_, Int64.toInt_ofNat_of_lt hsmall, tokenize_digits hds hsmall⟩
    · intro hlarge
      exact ⟨_, rfl, tokenize_digits_too_large hds hlarge⟩
  · intro source ts hts c hc
    have hint : ∀ l ∈ c.row, ∀ v, l.token = .int v → 0 ≤ v.toInt :=
      fun l hl v => nonneg_of_mem_tokens hts (hc.mem hl)
    constructor
    · intro v hv
      have hexact := toInt_neg_of_nonneg (hint c.current List.mem_cons_self v hv)
      exact ⟨_, hexact, Parser.negativeLiteral_of_int hv⟩
    · intro p c' hp
      have hwithin : c.Within c := .refl ((closed_of_tokenize hts).of_suffix hc)
      have hread := Parser.reader_patternAt_spelled hint c.bound c hwithin (Nat.le_refl _)
      have hrun : Parser.patternAt c.bound c = .ok p c' := hp
      rw [Parser.Reads, hrun] at hread
      exact hread.2.2

/-- The largest word behind a zero, the number that is larger by one, and a pattern in which the
largest word is negated. -/
theorem digits_read_exactly_bound :
    (∃ v : Int64, v.toInt = 2 ^ 63 - 1 ∧ tokenize "09223372036854775807" =
      .tokens [⟨.int v, ⟨1, 1⟩⟩, ⟨.eof, ⟨1, 21⟩⟩]) ∧
    (∃ problem : Problem, problem.code = "L004" ∧
      tokenize "9223372036854775808" = .problems [⟨⟨1, 1⟩, problem⟩]) ∧
    let rest : List Lexeme := [⟨.sign .minus, ⟨1, 2⟩⟩, ⟨.int 9223372036854775807, ⟨1, 3⟩⟩,
      ⟨.sign .rbracket, ⟨1, 22⟩⟩, ⟨.eof, ⟨1, 23⟩⟩]
    tokenize "[-9223372036854775807]" = .tokens (⟨.sign .lbracket, ⟨1, 1⟩⟩ :: rest) ∧
      ∃ p c', Parser.pattern ⟨⟨.sign .lbracket, ⟨1, 1⟩⟩, rest⟩ = .ok p c' ∧
        p = .items [.literal (.int (-9223372036854775807))] ∧
        p.Spelled (⟨.sign .lbracket, ⟨1, 1⟩⟩ :: rest) := by
  have hfits := (digits_read_exactly.1 "09223372036854775807".toList (by decide)).1 (by decide)
  have hlarge := (digits_read_exactly.1 "9223372036854775808".toList (by decide)).2 (by decide)
  refine ⟨hfits, hlarge, ?_⟩
  intro rest
  have htokens : tokenize "[-9223372036854775807]" =
      .tokens (⟨.sign .lbracket, ⟨1, 1⟩⟩ :: rest) := by cbv
  have hread := (digits_read_exactly.2 _ _ htokens ⟨⟨.sign .lbracket, ⟨1, 1⟩⟩, rest⟩
    (List.suffix_refl _)).2
  exact ⟨htokens, _, _, rfl, rfl, hread _ _ rfl⟩

end SeqScript
