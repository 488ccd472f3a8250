import SeqScript.Fault
import SeqScript.Proofs.RoundTrip.Stmt

/-!
# Types as they are written

The text that a type has in messages can be read again. It is several tokens without blanks between
them, so each must end where the next one begins: `CutInto` says that a text is cut into given
tokens in front of a rest, and that none of them reaches into the rest.

* `cutInto_name`, `cutInto_sign` — a name ends before what is no part of a name, and a sign before
  what makes no longer sign with it.
* `CutInto.append` — what is cut so one behind the other is cut so together.
* `Ty.cutInto_text` — the text of a type is cut into its tokens. Closing brackets stay apart: behind
  one there is another or nothing, and neither makes a longer sign with it.
* `Ty.read_text` — so reading gives the type and stops at the end mark.

So different types have different texts (`Ty.text_injective`). Two kinds of message name a type, and
in both its text ends or begins at a character that no type has. A message about one type is then
never one about another (`Cause.eq_of_mismatch`, `Cause.eq_of_badCast`).
-/

namespace SeqScript

-- ---------------------------------------------------------------------------
-- Characters of a class
-- ---------------------------------------------------------------------------

section

variable {p : Char → Bool} {text rest : List Char}

theorem takeWhile_append_stop (htext : ∀ c ∈ text, p c = true)
    (hrest : ∀ c ∈ rest.head?, p c = false) : (text ++ rest).takeWhile p = text := by
  rw [List.takeWhile_append_of_pos htext]
  obtain _ | ⟨c, rest⟩ := rest
  · exact List.append_nil text
  · rw [List.takeWhile_cons_of_neg (by simp [hrest c rfl]), List.append_nil]

theorem dropWhile_append_stop (htext : ∀ c ∈ text, p c = true)
    (hrest : ∀ c ∈ rest.head?, p c = false) : (text ++ rest).dropWhile p = rest := by
  have hwhole : (text ++ rest).takeWhile p ++ (text ++ rest).dropWhile p = text ++ rest :=
    List.takeWhile_append_dropWhile
  rw [takeWhile_append_stop htext hrest] at hwhole
  exact List.append_cancel_left hwhole

end

-- ---------------------------------------------------------------------------
-- Texts of several tokens
-- ---------------------------------------------------------------------------

/-- In front of `rest`, the text is cut into pieces that are the given tokens, and nothing of `rest`
goes with them. -/
def CutInto (text : List Char) (ts : List Token) (rest : List Char) : Prop :=
  ∃ xs : List Piece, pieces (text ++ rest) = xs ++ pieces rest ∧
    xs.map Piece.content = ts.map Content.token

section

variable {c : Char} {cs text more rest : List Char} {ts us : List Token}

theorem CutInto.append (h : CutInto text ts (more ++ rest)) (hmore : CutInto more us rest) :
    CutInto (text ++ more) (ts ++ us) rest := by
  obtain ⟨xs, hxs, hts⟩ := h
  obtain ⟨ys, hys, hus⟩ := hmore
  have hcut : pieces (text ++ more ++ rest) = xs ++ ys ++ pieces rest := by
    rw [List.append_assoc, hxs, hys, List.append_assoc]
  have hcontent : (xs ++ ys).map Piece.content = (ts ++ us).map Content.token := by
    rw [List.map_append, hts, hus, List.map_append]
  exact ⟨xs ++ ys, hcut, hcontent⟩

theorem cutInto_of_scan {t : Token} (h : scan c (cs ++ rest) = (⟨c :: cs, .token t⟩, rest)) :
    CutInto (c :: cs) [t] rest :=
  ⟨[⟨c :: cs, .token t⟩], by rw [List.cons_append, pieces, h]; rfl, rfl⟩

theorem cutInto_name (hname : isName text = true)
    (hrest : ∀ d ∈ rest.head?, isNamePart d = false) :
    CutInto text [wordToken (String.ofList text)] rest := by
  obtain _ | ⟨c, cs⟩ := text
  · cases hname
  obtain ⟨hc, hcs⟩ : isNameStart c = true ∧ ∀ d ∈ cs, isNamePart d = true := by
    simpa [isName] using hname
  have hspace : isSpace c = false := isSpace_eq_false hc (by decide)
  apply cutInto_of_scan
  unfold scan
  rw [if_neg (by simp [hspace]), if_pos hc, takeWhile_append_stop hcs hrest,
    dropWhile_append_stop hcs hrest]

/-- A sign begins nothing but signs, unless it opens a comment. -/
theorem scan_sign {s : Sign} (hc : singleSign? c = some s) (hslash : c ≠ '/') (cs : List Char) :
    scan c cs = scanSign c cs := by
  unfold singleSign? at hc
  split at hc
  case h_4 => exact absurd rfl hslash
  case h_19 => cases hc
  all_goals rfl

theorem cutInto_sign {s : Sign} (hc : singleSign? c = some s) (hslash : c ≠ '/')
    (hrest : ∀ d ∈ rest.head?, pairSign? c d = none) : CutInto [c] [.sign s] rest := by
  have hcontent : singleContent c = .token (.sign s) := by rw [singleContent, hc]
  apply cutInto_of_scan
  rw [List.nil_append, scan_sign hc hslash]
  obtain _ | ⟨d, ds⟩ := rest
  · rw [scanSign, hcontent]
  · rw [scanSign, hrest d rfl, hcontent]

-- ---------------------------------------------------------------------------
-- From pieces to tokens
-- ---------------------------------------------------------------------------

/-- Pieces that are tokens have no problems, wherever they begin. -/
theorem lexemes_of_contents {xs : List Piece} (h : xs.map Piece.content = ts.map Content.token)
    (p : Place) : (placed p xs).flatMap pieceDiagnostics = [] ∧
      ((placed p xs).filterMap pieceLexeme?).map Lexeme.token = ts := by
  induction xs generalizing ts p with
  | nil =>
    obtain rfl : ts = [] := List.map_eq_nil_iff.mp h.symm
    exact ⟨rfl, rfl⟩
  | cons x xs ih =>
    obtain ⟨t, ts, rfl, ht, hts⟩ := List.map_eq_cons_iff.mp h.symm
    obtain ⟨text, content⟩ := x
    obtain rfl : .token t = content := ht
    obtain ⟨hproblems, htokens⟩ := ih hts.symm (p.past text)
    exact ⟨hproblems, congrArg (t :: ·) htokens⟩

theorem tokenize_of_cutInto {source : String} (h : CutInto source.toList ts []) :
    ∃ ls, tokenize source = .tokens (ls ++ [⟨.eof, Place.behind source.toList⟩]) ∧
      ls.map Lexeme.token = ts := by
  obtain ⟨xs, hxs, hcontents⟩ := h
  rw [List.append_nil, pieces, List.append_nil] at hxs
  obtain ⟨hproblems, htokens⟩ := lexemes_of_contents hcontents Place.start
  have hdangling : (xs.any fun x => x.content = .dangling) = false := by
    rw [List.any_eq_false]
    intro x hx
    have hmem : x.content ∈ ts.map Content.token := hcontents ▸ List.mem_map_of_mem hx
    obtain ⟨t, -, ht⟩ := List.mem_map.mp hmem
    simp [← ht]
  refine ⟨(placed Place.start xs).filterMap pieceLexeme?, ?_, htokens⟩
  simp only [tokenize, hxs, hdangling, hproblems, past_start]
  rfl

end

-- ---------------------------------------------------------------------------
-- The tokens of a type
-- ---------------------------------------------------------------------------

/-- Brackets of types become part of a longer sign only before an equals sign. -/
theorem pairSign?_bracket {c d : Char} (hc : c = '<' ∨ c = '>') (hd : d ≠ '=') :
    pairSign? c d = none := by
  rcases hc with rfl | rfl <;> unfold pairSign? <;> split <;> simp_all

namespace Ty

/-- The text of a type begins with a letter. -/
theorem head_text (t : Ty) : ∃ c cs, t.text.toList = c :: cs ∧ isNameStart c = true := by
  cases t with
  | int | float | bool | string | func => exact ⟨_, _, rfl, by decide⟩
  | array t | list t =>
    rw [text, String.toList_append, String.toList_append]
    exact ⟨_, _, rfl, by decide⟩

/-- What may follow a type so that its text ends there: nothing that goes on with a word, and
nothing that makes a longer sign with a closing bracket. -/
def Ends (rest : List Char) : Prop := ∀ d ∈ rest.head?, isNamePart d = false ∧ d ≠ '='

theorem ends_nil : Ends [] := by
  rintro d ⟨⟩

/-- Closing brackets stay apart. -/
theorem ends_bracket (rest : List Char) : Ends ('>' :: rest) := by
  rintro d ⟨rfl⟩
  decide

/-- A word with a type in brackets behind it. -/
theorem cutInto_bracketed {t : Ty} {rest : List Char} (word : String)
    (hword : isName word.toList = true) (ht : CutInto t.text.toList t.tokens ('>' :: rest))
    (hrest : Ends rest) :
    CutInto (word ++ "<" ++ t.text ++ ">").toList
      (wordToken word :: .sign .lt :: t.tokens ++ [.sign .gt]) rest := by
  have hname : CutInto word.toList [wordToken (String.ofList word.toList)]
      ('<' :: (t.text.toList ++ '>' :: rest)) := by
    apply cutInto_name hword
    rintro d ⟨rfl⟩
    decide
  have hopen : CutInto ['<'] [.sign .lt] (t.text.toList ++ '>' :: rest) := by
    -- No type begins with the equals sign that `<` could take along.
    obtain ⟨c, cs, hhead, hc⟩ := t.head_text
    apply cutInto_sign rfl (by decide)
    rw [hhead]
    rintro d ⟨rfl⟩
    apply pairSign?_bracket (Or.inl rfl)
    rintro rfl
    exact absurd hc (by decide)
  have hclose : CutInto ['>'] [.sign .gt] rest :=
    cutInto_sign rfl (by decide) fun d hd => pairSign?_bracket (Or.inr rfl) (hrest d hd).2
  rw [String.ofList_toList] at hname
  rw [String.toList_append, String.toList_append, String.toList_append]
  exact ((hname.append hopen).append ht).append hclose

/-- **The text of a type is cut into its tokens,** however deep it nests. -/
theorem cutInto_text (t : Ty) {rest : List Char} (hrest : Ends rest) :
    CutInto t.text.toList t.tokens rest := by
  induction t generalizing rest with
  | int | float | bool | string | func =>
    exact cutInto_name (by decide) fun d hd => (hrest d hd).1
  | array t ih => exact cutInto_bracketed "array" (by decide) (ih (ends_bracket rest)) hrest
  | list t ih => exact cutInto_bracketed "list" (by decide) (ih (ends_bracket rest)) hrest

-- Before an equals sign the text does not end where the type does.
example : tokenize "list<array<func>>=" = .tokens
    [⟨.typeWord .list, ⟨1, 1⟩⟩, ⟨.sign .lt, ⟨1, 5⟩⟩, ⟨.typeWord .array, ⟨1, 6⟩⟩,
      ⟨.sign .lt, ⟨1, 11⟩⟩, ⟨.keyword .funcK, ⟨1, 12⟩⟩, ⟨.sign .gt, ⟨1, 16⟩⟩,
      ⟨.sign .gtEq, ⟨1, 17⟩⟩, ⟨.eof, ⟨1, 19⟩⟩] := by cbv

end Ty

-- ---------------------------------------------------------------------------
-- Reading a type
-- ---------------------------------------------------------------------------

/-- There is a cursor in front of any tokens. -/
theorem Cursor.exists_takes (ls : List Lexeme) (d : Cursor) :
    ∃ c : Cursor, c.row = ls ++ d.row ∧ c.Takes (ls.map Lexeme.token) d := by
  induction ls with
  | nil => exact ⟨d, rfl, rfl⟩
  | cons l ls ih =>
    obtain ⟨c, hrow, htakes⟩ := ih
    exact ⟨⟨l, c.row⟩, congrArg (l :: ·) hrow, rfl, Nat.lt_succ_self _, htakes⟩

namespace Ty

/-- Reading goes over all of the text and gives the type. -/
theorem read_text (t : Ty) : ∃ l ls, tokenize t.text = .tokens (l :: ls) ∧
    (l :: ls).map Lexeme.token = t.tokens ++ [.eof] ∧
    Parser.ty ⟨l, ls⟩ = .ok t ⟨⟨.eof, Place.behind t.text.toList⟩, []⟩ := by
  obtain ⟨body, htokenize, hbody⟩ := tokenize_of_cutInto (t.cutInto_text ends_nil)
  obtain ⟨c, hrow, htakes⟩ :=
    Cursor.exists_takes body ⟨⟨.eof, Place.behind t.text.toList⟩, []⟩
  rw [hbody] at htakes
  obtain ⟨_, hread, rfl⟩ := Parser.yields_ty htakes
  refine ⟨c.current, c.rest, ?_, ?_, hread⟩
  · rw [htokenize]
    exact congrArg Reading.tokens hrow.symm
  · exact htakes.tokens_row

theorem text_injective : Function.Injective text := by
  intro t u h
  obtain ⟨l, ls, htokenize, -, hread⟩ := t.read_text
  obtain ⟨l', ls', htokenize', -, hread'⟩ := u.read_text
  rw [h, htokenize'] at htokenize
  cases htokenize
  rw [hread] at hread'
  cases hread'
  rfl

end Ty

-- ---------------------------------------------------------------------------
-- Types in messages
-- ---------------------------------------------------------------------------

namespace Ty

/-- The characters of types. -/
def isTextChar (c : Char) : Bool := isLetter c || c == '<' || c == '>'

theorem all_text (t : Ty) : t.text.toList.all isTextChar = true := by
  induction t with
  | int | float | bool | string | func => decide
  | array t ih | list t ih =>
    rw [text, String.toList_append, String.toList_append, List.all_append, List.all_append, ih]
    decide

section

variable {t u : Ty} {x y : List Char}

theorem eq_of_text_append (hx : ∀ c ∈ x.head?, isTextChar c = false)
    (hy : ∀ c ∈ y.head?, isTextChar c = false)
    (h : t.text.toList ++ x = u.text.toList ++ y) : t = u := by
  have ht := takeWhile_append_stop (List.all_eq_true.mp t.all_text) hx
  have hu := takeWhile_append_stop (List.all_eq_true.mp u.all_text) hy
  apply text_injective
  apply String.toList_injective
  rw [← ht, h, hu]

theorem eq_of_append_text (hx : ∀ c ∈ x.getLast?, isTextChar c = false)
    (hy : ∀ c ∈ y.getLast?, isTextChar c = false)
    (h : x ++ t.text.toList = y ++ u.text.toList) : t = u := by
  have hall (v : Ty) : ∀ c ∈ v.text.toList.reverse, isTextChar c = true := by
    simpa using v.all_text
  have ht := takeWhile_append_stop (hall t) (List.head?_reverse ▸ hx)
  have hu := takeWhile_append_stop (hall u) (List.head?_reverse ▸ hy)
  apply text_injective
  apply String.toList_injective
  apply List.reverse_injective
  rw [← ht, ← hu, ← List.reverse_append, ← List.reverse_append, h]

end

end Ty

namespace Cause

variable {t u : Ty} {k k' : Kind} {s s' : String}

theorem message_mismatch (t : Ty) (k : Kind) (s : String) : ∃ behind,
    (mismatch t k s).message.toList = "expected ".toList ++ (t.text.toList ++ ',' :: behind) := by
  have hmessage : (mismatch t k s).message =
      "expected " ++ t.text ++ (", got " ++ k.name) ++ " " ++ ("`" ++ s ++ "`") := rfl
  rw [hmessage]
  simp only [String.toList_append, List.append_assoc]
  exact ⟨_, rfl⟩

theorem message_badCast (k : Kind) (s : String) (t : Ty) : ∃ before,
    (badCast k s t).message.toList = before ++ [' '] ++ t.text.toList := by
  have hmessage : (badCast k s t).message =
      "cannot cast " ++ k.name ++ " " ++ ("`" ++ s ++ "`") ++ (" to" ++ " ") ++ t.text := rfl
  rw [hmessage]
  simp only [String.toList_append, ← List.append_assoc]
  exact ⟨_, rfl⟩

theorem eq_of_mismatch (h : (mismatch t k s).message = (mismatch u k' s').message) : t = u := by
  obtain ⟨behind, ht⟩ := message_mismatch t k s
  obtain ⟨behind', hu⟩ := message_mismatch u k' s'
  rw [h, hu, List.append_cancel_left_eq] at ht
  exact Ty.eq_of_text_append (by rintro c ⟨rfl⟩; decide) (by rintro c ⟨rfl⟩; decide) ht.symm

theorem eq_of_badCast (h : (badCast k s t).message = (badCast k' s' u).message) : t = u := by
  obtain ⟨before, ht⟩ := message_badCast k s t
  obtain ⟨before', hu⟩ := message_badCast k' s' u
  rw [h, hu] at ht
  have hlast (xs : List Char) : ∀ c ∈ (xs ++ [' ']).getLast?, Ty.isTextChar c = false := by
    rw [List.getLast?_append]
    rintro c ⟨rfl⟩
    decide
  exact Ty.eq_of_append_text (hlast before) (hlast before') ht.symm

end Cause

/-- **The text of a type is read back as that type,** however deep it nests. The text is cut into
the tokens of the type and nothing else, and reading a type from them gives it and stops at the end
mark, where the text ends.

So no other type has that text, and no message that names the type is a message about another. -/
theorem type_texts_read_back (t : Ty) :
    (∃ l ls, tokenize t.text = .tokens (l :: ls) ∧
      (l :: ls).map Lexeme.token = t.tokens ++ [.eof] ∧
      Parser.ty ⟨l, ls⟩ = .ok t ⟨⟨.eof, Place.behind t.text.toList⟩, []⟩) ∧
    ∀ u : Ty, (u.text = t.text ↔ u = t) ∧
      ((∃ k k' s s', (Cause.mismatch u k s).message = (Cause.mismatch t k' s').message) ↔ u = t) ∧
      ((∃ k k' s s', (Cause.badCast k s u).message = (Cause.badCast k' s' t).message) ↔ u = t) := by
  refine ⟨t.read_text, fun u => ⟨Ty.text_injective.eq_iff, ?_, ?_⟩⟩
  · constructor
    · rintro ⟨k, k', s, s', h⟩
      exact Cause.eq_of_mismatch h
    · rintro rfl
      exact ⟨.int, .int, "", "", rfl⟩
  · constructor
    · rintro ⟨k, k', s, s', h⟩
      exact Cause.eq_of_badCast h
    · rintro rfl
      exact ⟨.int, .int, "", "", rfl⟩

end SeqScript
