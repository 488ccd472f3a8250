import SeqScript.Eval.Builtin
import SeqScript.Eval.Stmt
import SeqScript.Proofs.Arrangement
import SeqScript.Proofs.Conform

/-!
# Where values come from

No operation on values makes up a reference to a store, or a function. What
operators, casts and statistics compute is neither, and what sorting, removing,
rotating and matching hand on was among the values they were given. An element
written by an assignment is the value of the right side, or a number or text
computed from it, made to fit the declared type.

A pattern is matched by one pass that adds each binding to those already made and
does not take them back where the match fails. `matchInto_eq` says that nothing
else depends on what was made before, so that the bindings of a pattern can be
told from its parts (`bindings?_bind`, `bindings?_items`, `bindAll?_cons`).
-/

namespace SeqScript

/-- A value that refers to nothing: no sequence and no function of a program. -/
def Value.isData : Value → Bool
  | seq .. | func _ => false
  | _ => true

theorem Value.store?_of_isData {v : Value} (h : v.isData = true) : v.store? = none := by
  cases v with
  | seq => cases h
  | _ => rfl

-- ---------------------------------------------------------------------------
-- Operators and casts
-- ---------------------------------------------------------------------------

namespace Value

theorem isData_ofLiteral (l : Literal) : (ofLiteral l).isData = true := by
  cases l <;> rfl

private theorem isData_mixedArithmetic {op : BinaryOp} {l r v : Value}
    (h : mixedArithmetic op l r = .ok v) : v.isData = true := by
  unfold mixedArithmetic at h
  split at h
  · split at h
    · cases h
      rfl
    · simp at h
  · simp at h

/-- Integers give an integer, floating-point numbers and mixed pairs a floating-point
number. -/
private theorem isData_arithmetic {op : BinaryOp} {l r v : Value}
    (h : arithmetic op l r = .ok v) : v.isData = true := by
  unfold arithmetic at h
  split at h
  · next a b =>
    cases hn : Word.arithmetic op a b with
    | error e => simp [hn, Except.map] at h
    | ok n =>
      rw [hn] at h
      cases h
      rfl
  · split at h
    · cases h
      rfl
    · simp at h
  · exact isData_mixedArithmetic h

/-- A comparison gives a truth value or fails. -/
private theorem isData_comparison {op : BinaryOp} {l r v : Value}
    (h : comparison op l r = .ok v) : v.isData = true := by
  unfold comparison at h
  split at h
  · cases h
    rfl
  · cases h
    rfl
  · split at h
    · cases h
      rfl
    · simp at h

private theorem isData_logic {op : BinaryOp} {l r v : Value} (h : logic op l r = .ok v) :
    v.isData = true := by
  unfold logic at h
  split at h
  · cases h
    rfl
  · simp at h

/-- **No operator gives a sequence or a function,** not even the equality of sequences.
-/
theorem isData_binary {h : Heap} {op : BinaryOp} {l r v : Value} (hok : binary h op l r = .ok v) :
    v.isData = true := by
  cases op with
  | eq | ne =>
    cases hok
    rfl
  | lt | le | gt | ge => exact isData_comparison hok
  | add | sub | mul | div | mod => exact isData_arithmetic hok
  | and | or => exact isData_logic hok

/-- Nor does a sign, nor a negation. -/
theorem isData_unary {op : UnaryOp} {u v : Value} (hok : unary op u = .ok v) :
    v.isData = true := by
  unfold unary at hok
  split at hok
  · split at hok
    · cases hok
      rfl
    · simp at hok
  · cases hok
    rfl
  · simp at hok
  · cases hok
    rfl
  · simp at hok

/-- Nor does a cast, since there is none to a sequence or function. -/
theorem isData_cast {h : Heap} {ty : Ty} {u v : Value} (hok : cast h ty u = .ok v) :
    v.isData = true := by
  unfold cast at hok
  split at hok
  · next w hw =>
    rw [← Except.ok.inj hok]
    unfold cast? at hw
    split at hw
    · obtain ⟨_, -, rfl⟩ := Option.map_eq_some_iff.mp hw
      rfl
    · obtain ⟨_, -, rfl⟩ := Option.map_eq_some_iff.mp hw
      rfl
    · obtain ⟨_, -, rfl⟩ := Option.map_eq_some_iff.mp hw
      rfl
    · obtain ⟨_, -, rfl⟩ := Option.map_eq_some_iff.mp hw
      rfl
    all_goals simp at hw
  · simp at hok

end Value

-- ---------------------------------------------------------------------------
-- Sequences
-- ---------------------------------------------------------------------------

namespace Sequence

/-- What is sorted is read from the places of the row. -/
theorem mem_sort {xs ys : List Value} {v : Value} (hok : sort xs = .ok (some ys)) (hv : v ∈ ys) :
    v ∈ xs := by
  cases xs with
  | nil =>
    rw [← Option.some.inj (Except.ok.inj hok)] at hv
    exact hv
  | cons first rest =>
    obtain ⟨_, -, hok⟩ := bind_eq_ok hok
    obtain ⟨places, -, rfl⟩ := Option.map_eq_some_iff.mp (Except.ok.inj hok)
    obtain ⟨i, -, rfl⟩ := List.mem_map.mp hv
    exact List.get_mem _ i

/-- Removing takes away one element and makes up none. -/
theorem mem_remove {h : Heap} {target v : Value} {xs ys : List Value}
    (hok : remove h target xs = .ok ys) (hv : v ∈ ys) : v ∈ xs := by
  have hfirst : ∀ {xs ys : List Value}, removeFirst? h target xs = some ys → v ∈ ys → v ∈ xs := by
    intro xs
    induction xs with
    | nil => simp [removeFirst?]
    | cons x xs ih =>
      intro ys hys hv
      rw [removeFirst?] at hys
      split at hys
      · rw [← Option.some.inj hys] at hv
        exact List.mem_cons_of_mem _ hv
      · obtain ⟨rest, hrest, rfl⟩ := Option.map_eq_some_iff.mp hys
        rcases List.mem_cons.mp hv with rfl | hv
        · exact List.mem_cons_self ..
        · exact List.mem_cons_of_mem _ (ih hrest hv)
  unfold remove at hok
  split at hok
  · next rest hrest =>
    rw [← Except.ok.inj hok] at hv
    exact hfirst hrest hv
  · simp at hok

/-- Rotating hands on what it was given. -/
theorem mem_rotate {α : Type} {xs : List α} {k : Int64} {x : α} (h : x ∈ rotate xs k) : x ∈ xs := by
  rcases List.mem_append.mp h with h | h
  · exact List.mem_of_mem_drop h
  · exact List.mem_of_mem_take h

/-- Shifting hands on what it was given, and fills up with plain values. -/
theorem mem_shift {xs : List Value} {k : Int64} {v : Value} (h : v ∈ shift xs k) :
    v ∈ xs ∨ v.isData = true := by
  have hfill : (fill xs).isData = true := by
    unfold fill
    split <;> rfl
  unfold shift at h
  split at h
  · simp at h
  · split at h
    · rcases List.mem_append.mp h with h | h
      · rw [(List.mem_replicate.mp h).2]
        exact Or.inr hfill
      · exact Or.inl (List.mem_of_mem_take h)
    · rcases List.mem_append.mp h with h | h
      · exact Or.inl (List.mem_of_mem_drop h)
      · rw [(List.mem_replicate.mp h).2]
        exact Or.inr hfill

/-- Reading a place gives an element, or the unit value where there is none. -/
private theorem getD_mem_or (xs : List Value) (i : Nat) :
    xs.getD i .unit ∈ xs ∨ (xs.getD i .unit).isData = true := by
  rw [List.getD_eq_getElem?_getD]
  cases hi : xs[i]? with
  | none => exact Or.inr rfl
  | some v => exact Or.inl (List.mem_of_getElem? hi)

/-- A median is an element, or a mean of two. -/
theorem mem_median {xs : List Value} {v : Value} (hok : median xs = .ok v) :
    v ∈ xs ∨ v.isData = true := by
  unfold median at hok
  obtain ⟨_, -, hok⟩ := bind_eq_ok hok
  dsimp only at hok
  split at hok
  · rw [← Except.ok.inj hok]
    exact (getD_mem_or ..).imp_left (sortBy_perm ..).mem_iff.mp
  · rw [← Except.ok.inj hok]
    exact Or.inr rfl

/-- The best of a row is one of it, by induction on the elements that are still to be
compared. -/
theorem mem_extreme {function : String} {beats : Binary64 → Binary64 → Bool} {xs : List Value}
    {v : Value} (hok : extreme function beats xs = .ok v) : v ∈ xs := by
  have hbest : ∀ (vs : List Value) (champion : Value), best beats champion vs ∈ champion :: vs := by
    intro vs
    induction vs with
    | nil => exact fun champion => List.mem_cons_self ..
    | cons w vs ih =>
      intro champion
      rw [best]
      split
      · exact List.mem_cons_of_mem _ (ih w)
      · rcases List.mem_cons.mp (ih champion) with h | h
        · rw [h]
          exact List.mem_cons_self ..
        · exact List.mem_cons_of_mem _ (List.mem_cons_of_mem _ h)
  unfold extreme at hok
  obtain ⟨_, -, hok⟩ := bind_eq_ok hok
  cases xs with
  | nil => simp at hok
  | cons w vs =>
    rw [← Except.ok.inj hok]
    exact hbest vs w

/-- A sum is a number. -/
theorem isData_sum {xs : List Value} {v : Value} (hok : sum xs = .ok v) : v.isData = true := by
  unfold sum at hok
  split at hok
  · split at hok
    · cases hok
      rfl
    · simp at hok
  · obtain ⟨_, -, hok⟩ := bind_eq_ok hok
    cases hok
    rfl

/-- So is whatever is computed in floating-point numbers. -/
theorem isData_map_float {x : Except Cause Binary64} {v : Value}
    (hok : x.map Value.float = .ok v) : v.isData = true := by
  cases x with
  | error e => simp [Except.map] at hok
  | ok y =>
    cases hok
    rfl

theorem isData_values {r : Regression} {v : Value} (h : v ∈ r.values) : v.isData = true := by
  simp only [Regression.values, List.mem_cons, List.not_mem_nil, or_false] at h
  rcases h with rfl | rfl | rfl <;> rfl

end Sequence

namespace Builtin

/-- The magnitude of a number is a number. -/
theorem isData_magnitude {u v : Value} (hok : magnitude u = .ok v) : v.isData = true := by
  revert hok
  fun_cases magnitude u with
  | case1 n k _ =>
    rintro ⟨⟩
    rfl
  | case3 x =>
    rintro ⟨⟩
    rfl
  | case2 | case4 => rintro ⟨⟩

theorem isData_squareRoot {u v : Value} (hok : squareRoot u = .ok v) : v.isData = true := by
  unfold squareRoot at hok
  split at hok
  · cases hok
    rfl
  · simp at hok

end Builtin

-- ---------------------------------------------------------------------------
-- Patterns
-- ---------------------------------------------------------------------------

namespace Pattern

mutual

/-- **Bindings are added to those that were there**, whether the pattern fits or not. -/
theorem matchInto_eq (h : Heap) : ∀ (p : Pattern) (v : Value) (made : Array (String × Value)),
    p.matchInto h v made = ((p.matchInto h v #[]).1, made ++ (p.matchInto h v #[]).2)
  | wildcard, v, made => by simp [matchInto]
  | bind name, v, made => by simp [matchInto]
  | literal l, v, made => by simp [matchInto]
  | items ps, v, made => by
    cases v with
    | seq kind id =>
      rw [matchInto, matchInto]
      split
      · exact matchAllInto_eq h ps _ made
      · simp
    | _ => simp [matchInto]

/-- The same of patterns side by side, the bindings of each going to the next. -/
theorem matchAllInto_eq (h : Heap) :
    ∀ (ps : List Pattern) (vs : List Value) (made : Array (String × Value)),
      matchAllInto h ps vs made =
        ((matchAllInto h ps vs #[]).1, made ++ (matchAllInto h ps vs #[]).2)
  | [], vs, made => by simp [matchAllInto]
  | p :: ps, [], made => by simp [matchAllInto]
  | p :: ps, v :: vs, made => by
    rw [matchAllInto, matchAllInto, matchInto_eq h p v made]
    rcases p.matchInto h v #[] with ⟨fits, first⟩
    cases fits with
    | false => rfl
    | true =>
      dsimp only
      rw [matchAllInto_eq h ps vs (made ++ first), matchAllInto_eq h ps vs first]
      simp

end

variable {h : Heap} {v : Value}

/-- The bindings of patterns against equally many values. -/
def bindAll? (h : Heap) (ps : List Pattern) (vs : List Value) : Option (List (String × Value)) :=
  if vs.length = ps.length then keep? (matchAllInto h ps vs #[]) else none

theorem bindings?_wildcard : wildcard.bindings? h v = some [] := by
  simp [bindings?, matchInto, keep?]

/-- A name is bound to the whole value. -/
theorem bindings?_bind (name : String) : (bind name).bindings? h v = some [(name, v)] := by
  simp [bindings?, matchInto, keep?]

theorem bindings?_literal (l : Literal) :
    (literal l).bindings? h v = if l.fits v then some [] else none := by
  rw [bindings?, matchInto]
  cases l.fits v <;> rfl

/-- A pattern of items is matched against the elements, in their order. -/
theorem bindings?_items (ps : List Pattern) (kind : SeqKind) (id : SeqId) :
    (items ps).bindings? h (.seq kind id) = bindAll? h ps (h.read id).toList := by
  rw [bindings?, matchInto, bindAll?, apply_ite keep?]
  rfl

/-- A pattern of items fits nothing but sequences. -/
theorem bindings?_items_plain (ps : List Pattern) (hv : v.store? = none) :
    (items ps).bindings? h v = none := by
  cases v with
  | seq => cases hv
  | _ => simp [bindings?, matchInto, keep?]

theorem bindAll?_nil : bindAll? h [] [] = some [] := by
  simp [bindAll?, matchAllInto, keep?]

/-- Bindings come in the order in which patterns are tried. -/
theorem bindAll?_cons (p : Pattern) (ps : List Pattern) (v : Value) (vs : List Value) :
    bindAll? h (p :: ps) (v :: vs) =
      (p.bindings? h v).bind fun first => (bindAll? h ps vs).map (first ++ ·) := by
  unfold bindAll? bindings?
  rw [matchAllInto]
  rcases p.matchInto h v #[] with ⟨fits, first⟩
  cases fits with
  | false => simp [keep?]
  | true =>
    dsimp only
    rw [matchAllInto_eq h ps vs first]
    rcases matchAllInto h ps vs #[] with ⟨fits, others⟩
    by_cases hlength : vs.length = ps.length
    · cases fits <;> simp [keep?, hlength]
    · simp [keep?, hlength]

theorem bindAll?_length {ps : List Pattern} {vs : List Value} (hlength : vs.length ≠ ps.length) :
    bindAll? h ps vs = none := if_neg hlength

mutual

/-- Where a value has a property that its elements have with it, so has all that a pattern
binds names to. -/
theorem bindings?_closed {P : Value → Prop}
    (hP : ∀ kind id, P (.seq kind id) → ∀ v ∈ h.read id, P v) :
    ∀ {p : Pattern} {v : Value} {bs : List (String × Value)}, P v →
      p.bindings? h v = some bs → ∀ b ∈ bs, P b.2
  | wildcard, v, bs, _, hbs, b, hb => by
    rw [bindings?_wildcard] at hbs
    cases hbs
    simp at hb
  | bind name, v, bs, hv, hbs, b, hb => by
    rw [bindings?_bind] at hbs
    cases hbs
    rw [List.mem_singleton.mp hb]
    exact hv
  | literal l, v, bs, _, hbs, b, hb => by
    rw [bindings?_literal] at hbs
    split at hbs
    · cases hbs
      simp at hb
    · simp at hbs
  | items ps, v, bs, hv, hbs, b, hb => by
    cases v with
    | seq kind id =>
      rw [bindings?_items] at hbs
      exact bindAll?_closed hP (fun w hw => hP _ _ hv w (Array.mem_toList_iff.mp hw)) hbs b hb
    | _ =>
      rw [bindings?_items_plain ps rfl] at hbs
      cases hbs

/-- The same of patterns side by side. -/
theorem bindAll?_closed {P : Value → Prop}
    (hP : ∀ kind id, P (.seq kind id) → ∀ v ∈ h.read id, P v) :
    ∀ {ps : List Pattern} {vs : List Value} {bs : List (String × Value)}, (∀ v ∈ vs, P v) →
      bindAll? h ps vs = some bs → ∀ b ∈ bs, P b.2
  | [], [], bs, _, hbs, b, hb => by
    rw [bindAll?_nil] at hbs
    cases hbs
    simp at hb
  | p :: ps, v :: vs, bs, hvs, hbs, b, hb => by
    obtain ⟨hv, hvs⟩ := List.forall_mem_cons.mp hvs
    rw [bindAll?_cons] at hbs
    obtain ⟨first, hfirst, hbs⟩ := Option.bind_eq_some_iff.mp hbs
    obtain ⟨rest, hrest, rfl⟩ := Option.map_eq_some_iff.mp hbs
    rcases List.mem_append.mp hb with hb | hb
    · exact bindings?_closed hP hv hfirst b hb
    · exact bindAll?_closed hP hvs hrest b hb
  | [], _ :: _, bs, _, hbs, b, hb => by simp [bindAll?_length] at hbs
  | _ :: _, [], bs, _, hbs, b, hb => by simp [bindAll?_length] at hbs

end

end Pattern

/-- The same of the case that is chosen. -/
theorem MatchCase.firstFit?_closed {h : Heap} {P : Value → Prop}
    (hP : ∀ kind id, P (.seq kind id) → ∀ v ∈ h.read id, P v) {v : Value} (hv : P v)
    {cases : List MatchCase} {bs : List (String × Value)} {body : Stmt}
    (hfit : firstFit? h v cases = some (bs, body)) : ∀ b ∈ bs, P b.2 := by
  induction cases with
  | nil => simp [firstFit?] at hfit
  | cons c cs ih =>
    rw [firstFit?] at hfit
    split at hfit
    · next bindings hb =>
      obtain ⟨rfl, -⟩ := Prod.mk.inj (Option.some.inj hfit)
      exact Pattern.bindings?_closed hP hv hb
    · exact ih hfit

/-- The body that is executed is that of one of the cases. -/
theorem MatchCase.body_mem_of_firstFit? {h : Heap} {v : Value} {cases : List MatchCase}
    {bs : List (String × Value)} {body : Stmt} (hfit : firstFit? h v cases = some (bs, body)) :
    body ∈ cases.map MatchCase.body := by
  induction cases with
  | nil => simp [firstFit?] at hfit
  | cons c cs ih =>
    rw [firstFit?] at hfit
    split at hfit
    · obtain ⟨-, rfl⟩ := Prod.mk.inj (Option.some.inj hfit)
      exact List.mem_cons_self ..
    · exact List.mem_cons_of_mem _ (ih hfit)

-- ---------------------------------------------------------------------------
-- Fitting a type
-- ---------------------------------------------------------------------------

/-- Nothing but a function is stored as a function, whatever the type. -/
theorem conform_eq_func {ty : Ty} {v : Value} {h : Heap} {c : Conformed Value} {f : Closure}
    (hc : conform ty v h = some c) (hf : c.value = .func f) : v = .func f := by
  unfold conform at hc
  split at hc
  case h_10 =>
    split at hc
    · simp at hc
    · obtain rfl := Option.some.inj hc
      cases hf
    · obtain rfl := Option.some.inj hc
      cases hf
  case h_12 => simp at hc
  all_goals
    obtain rfl := Option.some.inj hc
    cases hf
  rfl

-- ---------------------------------------------------------------------------
-- Assignments to elements
-- ---------------------------------------------------------------------------

/-- A plain assignment hands the value on, any other one computes. -/
theorem AssignOp.apply_eq_ok {h : Heap} {op : AssignOp} {current v w : Value}
    (hok : op.apply h current v = .ok w) : w = v ∨ w.isData = true := by
  unfold AssignOp.apply at hok
  split at hok
  · exact Or.inl (Except.ok.inj hok).symm
  · exact Or.inr (Value.isData_binary hok)

/-- What an assignment to an element writes has been made to fit first, and then
been found not to hold the store it is written to. -/
theorem elementWrite_eq_ok {h : Heap} {id : SeqId} {declared : Option Ty} {op : AssignOp}
    {index v : Value} {w : ElementWrite} (hok : elementWrite h id declared op index v = .ok w) :
    ∃ u, (u = v ∨ u.isData = true) ∧ assignableElement h declared u = .ok (w.value, w.heap) ∧
      w.heap.mentions id w.value = false := by
  unfold elementWrite at hok
  obtain ⟨i, -, hok⟩ := bind_eq_ok hok
  obtain ⟨u, hu, hok⟩ := bind_eq_ok hok
  obtain ⟨⟨value, heap⟩, hval, hok⟩ := bind_eq_ok hok
  obtain ⟨_, hcheck, hok⟩ := bind_eq_ok hok
  cases hok
  exact ⟨u, AssignOp.apply_eq_ok hu, hval, checkInsertion_eq_ok_iff.mp hcheck⟩

end SeqScript
