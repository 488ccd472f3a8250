import Mathlib
import SeqScript.Eval.Call
import SeqScript.Proofs.Declarations
import SeqScript.Proofs.Reachable
import SeqScript.Proofs.Signs

/-!
# What a pattern fits, and which case is taken

Matching tries a pattern and collects its bindings in one pass. Here both are said apart from
each other: when a pattern fits a value, and where in the value its names stand.

* `Fits` — when a pattern fits; for literals `Denotes`, where a number is its own equal unless
  it is not a number, and the two zeros are equal.
* `places` — the names of a pattern from left to right, each with its path.
* `binds_of_bindings?`, `bindings?_of_fits` — matching succeeds exactly where the pattern fits,
  and gives one binding for each place.
* `firstFit?_append` — the first case that fits is taken, whatever stands after it.
* `defineAll_withFrame` — the bindings of a case are all that its frame holds, the last one of a
  name that is repeated.

The main result is `match_takes_first_fit`.
-/

namespace SeqScript

-- ---------------------------------------------------------------------------
-- Equal numbers
-- ---------------------------------------------------------------------------

namespace Binary64

open Float.Model (UnpackedFloat)
open Float.Model.UnpackedFloat

/-- Two numbers are equal: they are the same, and one at all, or both are zeros. -/
inductive Same : Binary64 → Binary64 → Prop
  | refl {x : Binary64} (hx : x.isNaN = false) : Same x x
  | zeros {x y : Binary64} (hx : x = 0.0 ∨ x = -0.0) (hy : y = 0.0 ∨ y = -0.0) : Same x y

theorem compare_eq_iff {u w : UnpackedFloat} :
    UnpackedFloat.compare u w = some .eq ↔
      u.isNaN = false ∧ u = w ∨ (∃ s, u = .zero s) ∧ ∃ s, w = .zero s := by
  cases u with
  | notANumber => simp [UnpackedFloat.compare, UnpackedFloat.isNaN]
  | infinity s =>
    cases w with
    | infinity s' =>
      cases s <;> cases s' <;> simp [UnpackedFloat.compare, UnpackedFloat.isNaN] <;> decide
    | _ => cases s <;> simp [UnpackedFloat.compare]
  | zero s =>
    cases w with
    | infinity s' => cases s' <;> simp [UnpackedFloat.compare]
    | finite s' => cases s' <;> simp [UnpackedFloat.compare]
    | _ => simp [UnpackedFloat.compare]
  | finite s m e hm =>
    cases w with
    | infinity s' => cases s' <;> simp [UnpackedFloat.compare]
    | zero s' => cases s <;> simp [UnpackedFloat.compare]
    | finite s' m' e' hm' =>
      cases s <;> cases s' <;>
        simp [UnpackedFloat.compare, UnpackedFloat.isNaN, Ordering.then_eq_eq, and_comm]
    | notANumber => simp [UnpackedFloat.compare]

/-- A number is determined by its parts. -/
theorem unpack_injective {x y : Float} (h : x.toModel.unpack = y.toModel.unpack) :
    number x = number y := by
  -- negation sees no more of a number than its parts, and undoes itself
  have hnan : x.isNaN = y.isNaN := congrArg UnpackedFloat.isNaN h
  have hneg : -x = -y := congrArg (fun u => Float.ofModel (.pack (UnpackedFloat.neg u))) h
  have hopposite : -number x = -number y := by
    show (if x.isNaN then negativeNaN else number (-x)) = if y.isNaN then negativeNaN else _
    rw [hnan, hneg]
  rw [← neg_neg (number x), hopposite, neg_neg]

/-- The zeros are the numbers without a significand. -/
theorem exists_zero_iff {x : Float} :
    (∃ s, x.toModel.unpack = .zero s) ↔ number x = 0.0 ∨ number x = -0.0 := by
  constructor
  · rintro ⟨s, hs⟩
    cases s with
    | positive => exact Or.inl (unpack_injective (hs.trans rfl))
    | negative => exact Or.inr (unpack_injective (y := -0.0) (hs.trans rfl))
  · rintro (hx | hx)
    · exact ⟨.positive, by rw [number.inj hx]; rfl⟩
    · exact ⟨.negative, by rw [number.inj (hx.trans (b := number (-0.0)) rfl)]; rfl⟩

theorem isNaN_of_zero {x : Binary64} (hx : x = 0.0 ∨ x = -0.0) : x.isNaN = false := by
  rcases hx with rfl | rfl
  · decide
  · decide

theorem isNaN_toFloat (x : Binary64) : x.toFloat.isNaN = x.isNaN := by
  cases x with
  | number x => rfl
  | negativeNaN => decide

theorem number_toFloat {x : Binary64} (hx : x.isNaN = false) : number x.toFloat = x := by
  cases x with
  | number x => rfl
  | negativeNaN => cases hx

/-- Comparison finds equal what is. -/
theorem equals_iff {x y : Binary64} : x.equals y = true ↔ Same x y := by
  have hequals : x.equals y = true ↔
      UnpackedFloat.compare x.toFloat.toModel.unpack y.toFloat.toModel.unpack = some .eq := by
    show (UnpackedFloat.compare _ _ == some Ordering.eq) = true ↔ _
    exact beq_iff_eq
  rw [hequals, compare_eq_iff, exists_zero_iff, exists_zero_iff]
  constructor
  · rintro (⟨hnan, heq⟩ | ⟨hx, hy⟩)
    · have hx : x.isNaN = false := (isNaN_toFloat x).symm.trans hnan
      have hy : y.isNaN = false :=
        (isNaN_toFloat y).symm.trans ((congrArg UnpackedFloat.isNaN heq).symm.trans hnan)
      have hsame := unpack_injective heq
      rw [number_toFloat hx, number_toFloat hy] at hsame
      exact hsame ▸ .refl hx
    · have hnumber : ∀ {z : Binary64}, number z.toFloat = 0.0 ∨ number z.toFloat = -0.0 →
          number z.toFloat = z := fun {z} hz =>
        number_toFloat ((isNaN_toFloat z).symm.trans (isNaN_of_zero hz))
      rw [hnumber hx] at hx
      rw [hnumber hy] at hy
      exact .zeros hx hy
  · intro hsame
    cases hsame with
    | refl hx => exact Or.inl ⟨(isNaN_toFloat x).trans hx, rfl⟩
    | zeros hx hy =>
      rw [number_toFloat (isNaN_of_zero hx), number_toFloat (isNaN_of_zero hy)]
      exact Or.inr ⟨hx, hy⟩

end Binary64

/-- A value that a literal denotes: one of its own kind and with the same content. -/
inductive Literal.Denotes : Literal → Value → Prop
  | int (n : Int64) : Denotes (.int n) (.int n)
  | float {x y : Binary64} (h : Binary64.Same x y) : Denotes (.float x) (.float y)
  | bool (b : Bool) : Denotes (.bool b) (.bool b)
  | str (s : String) : Denotes (.str s) (.str s)

theorem Literal.fits_iff {l : Literal} {v : Value} : l.fits v = true ↔ l.Denotes v := by
  constructor
  · intro hfits
    unfold fits at hfits
    split at hfits
    · rw [beq_iff_eq.mp hfits]
      exact .int _
    · exact .float (Binary64.equals_iff.mp hfits)
    · rw [beq_iff_eq.mp hfits]
      exact .bool _
    · rw [beq_iff_eq.mp hfits]
      exact .str _
    · cases hfits
  · intro hdenotes
    cases hdenotes with
    | int n => exact beq_self_eq_true n
    | float h => exact Binary64.equals_iff.mpr h
    | bool b => exact beq_self_eq_true b
    | str s => exact beq_self_eq_true s

-- ---------------------------------------------------------------------------
-- Patterns and places
-- ---------------------------------------------------------------------------

/-- The part of a value at a path: the positions to go through, from the outside inwards. -/
def Heap.part? (h : Heap) : Value → List Nat → Option Value
  | v, [] => some v
  | .seq _ id, i :: path => (h.read id)[i]?.bind fun v => h.part? v path
  | _, _ :: _ => none

/-- A binding of the name that stands at a place of a pattern, to the part of the value there. -/
structure Heap.Binds (h : Heap) (v : Value) (b : String × Value) (place : String × List Nat) :
    Prop where
  name : b.1 = place.1
  part : h.part? v place.2 = some b.2

namespace Pattern

/-- The values that a pattern fits. -/
inductive Fits (h : Heap) : Pattern → Value → Prop
  | wildcard (v : Value) : Fits h wildcard v
  | bind (name : String) (v : Value) : Fits h (bind name) v
  | literal {l : Literal} {v : Value} (hl : l.Denotes v) : Fits h (literal l) v
  | items {ps : List Pattern} {kind : SeqKind} {id : SeqId}
      (hall : List.Forall₂ (Fits h) ps (h.read id).toList) : Fits h (items ps) (.seq kind id)

mutual

/-- The names of a pattern from left to right, each with its path. -/
def places : Pattern → List (String × List Nat)
  | wildcard => []
  | bind name => [(name, [])]
  | literal _ => []
  | items ps => placesFrom 0 ps

/-- The names of patterns that stand side by side, from the given position on. -/
def placesFrom (i : Nat) : List Pattern → List (String × List Nat)
  | [] => []
  | p :: ps => p.places.map (fun place => (place.1, i :: place.2)) ++ placesFrom (i + 1) ps

end

example :
    (items [bind "x", wildcard, items [bind "y", bind "x"]]).places =
      [("x", [0]), ("y", [2, 0]), ("x", [2, 1])] := rfl

/-- What is bound within an element is bound within the sequence, one step further in. -/
theorem binds_element {h : Heap} {kind : SeqKind} {id : SeqId} {i : Nat} {v : Value}
    (hv : (h.read id)[i]? = some v) {bs : List (String × Value)}
    {places : List (String × List Nat)} (hbs : List.Forall₂ (h.Binds v) bs places) :
    List.Forall₂ (h.Binds (.seq kind id)) bs
      (places.map fun place => (place.1, i :: place.2)) := by
  rw [List.forall₂_map_right_iff]
  refine hbs.imp fun b place hb => ⟨hb.name, ?_⟩
  rw [Heap.part?, hv, Option.bind_some, hb.part]

mutual

/-- Where matching succeeds the pattern fits, and there is one binding for each of its places. -/
theorem binds_of_bindings? {h : Heap} :
    ∀ {p : Pattern} {v : Value} {bs : List (String × Value)}, p.bindings? h v = some bs →
      p.Fits h v ∧ List.Forall₂ (h.Binds v) bs p.places
  | wildcard, v, bs, hbs => by
    rw [bindings?_wildcard] at hbs
    cases hbs
    exact ⟨.wildcard v, .nil⟩
  | bind name, v, bs, hbs => by
    rw [bindings?_bind] at hbs
    cases hbs
    exact ⟨.bind name v, .cons ⟨rfl, rfl⟩ .nil⟩
  | literal l, v, bs, hbs => by
    rw [bindings?_literal] at hbs
    split at hbs
    · next hfits =>
      cases hbs
      exact ⟨.literal (Literal.fits_iff.mp hfits), .nil⟩
    · cases hbs
  | items ps, v, bs, hbs => by
    cases v with
    | seq kind id =>
      rw [bindings?_items] at hbs
      obtain ⟨hall, hplaces⟩ := binds_of_bindAll? kind id 0 rfl hbs
      exact ⟨.items hall, hplaces⟩
    | _ =>
      rw [bindings?_items_plain ps rfl] at hbs
      cases hbs

/-- The same for patterns side by side and the elements of a sequence from a position on. -/
theorem binds_of_bindAll? {h : Heap} (kind : SeqKind) (id : SeqId) :
    ∀ {ps : List Pattern} {vs : List Value} {bs : List (String × Value)} (i : Nat),
      (h.read id).toList.drop i = vs → bindAll? h ps vs = some bs →
        List.Forall₂ (Fits h) ps vs ∧ List.Forall₂ (h.Binds (.seq kind id)) bs (placesFrom i ps)
  | [], [], bs, i, _, hbs => by
    rw [bindAll?_nil] at hbs
    cases hbs
    exact ⟨.nil, .nil⟩
  | p :: ps, v :: vs, bs, i, hdrop, hbs => by
    rw [bindAll?_cons] at hbs
    obtain ⟨first, hfirst, hbs⟩ := Option.bind_eq_some_iff.mp hbs
    obtain ⟨rest, hrest, rfl⟩ := Option.map_eq_some_iff.mp hbs
    -- the values still to be matched are the elements from this position on
    have hv : (h.read id)[i]? = some v := by
      rw [← Array.getElem?_toList, ← List.head?_drop, hdrop, List.head?_cons]
    have hvs : (h.read id).toList.drop (i + 1) = vs := by
      rw [← List.tail_drop, hdrop, List.tail_cons]
    obtain ⟨hfits, hplaces⟩ := binds_of_bindings? hfirst
    obtain ⟨hall, hothers⟩ := binds_of_bindAll? kind id (i + 1) hvs hrest
    exact ⟨.cons hfits hall, List.rel_append (binds_element hv hplaces) hothers⟩
  | [], _ :: _, bs, i, _, hbs => by simp [bindAll?_length] at hbs
  | _ :: _, [], bs, i, _, hbs => by simp [bindAll?_length] at hbs

end

mutual

/-- Where a pattern fits, matching succeeds. -/
theorem bindings?_of_fits {h : Heap} :
    ∀ {p : Pattern} {v : Value}, p.Fits h v → ∃ bs, p.bindings? h v = some bs
  | wildcard, v, _ => ⟨[], bindings?_wildcard⟩
  | bind name, v, _ => ⟨[(name, v)], bindings?_bind name⟩
  | literal l, v, hfits => by
    cases hfits with
    | literal hl => exact ⟨[], by rw [bindings?_literal, if_pos (Literal.fits_iff.mpr hl)]⟩
  | items ps, v, hfits => by
    cases hfits with
    | items hall =>
      rw [bindings?_items]
      exact bindAll?_of_fits hall

theorem bindAll?_of_fits {h : Heap} :
    ∀ {ps : List Pattern} {vs : List Value}, List.Forall₂ (Fits h) ps vs →
      ∃ bs, bindAll? h ps vs = some bs
  | [], vs, hall => by
    cases hall
    exact ⟨[], bindAll?_nil⟩
  | p :: ps, vs, hall => by
    obtain ⟨v, rest, hfits, hrest, rfl⟩ := List.forall₂_cons_left_iff.mp hall
    obtain ⟨first, hfirst⟩ := bindings?_of_fits hfits
    obtain ⟨others, hothers⟩ := bindAll?_of_fits hrest
    exact ⟨first ++ others, by rw [bindAll?_cons, hfirst, hothers]; rfl⟩

end

theorem exists_bindings?_iff {h : Heap} {p : Pattern} {v : Value} :
    (∃ bs, p.bindings? h v = some bs) ↔ p.Fits h v :=
  ⟨fun ⟨_, hbs⟩ => (binds_of_bindings? hbs).1, bindings?_of_fits⟩

theorem bindings?_eq_none {h : Heap} {p : Pattern} {v : Value} (hfits : ¬p.Fits h v) :
    p.bindings? h v = none := by
  rw [← exists_bindings?_iff] at hfits
  exact Option.eq_none_iff_forall_ne_some.mpr fun bs hbs => hfits ⟨bs, hbs⟩

end Pattern

-- ---------------------------------------------------------------------------
-- Cases
-- ---------------------------------------------------------------------------

namespace MatchCase

variable {h : Heap} {v : Value} {earlier : List MatchCase}

/-- Cases that do not fit are passed over, and leave nothing behind. -/
theorem firstFit?_append (hearlier : ∀ c ∈ earlier, ¬c.pattern.Fits h v)
    (later : List MatchCase) : firstFit? h v (earlier ++ later) = firstFit? h v later := by
  induction earlier with
  | nil => rfl
  | cons c cs ih =>
    obtain ⟨hc, hcs⟩ := List.forall_mem_cons.mp hearlier
    rw [List.cons_append, firstFit?, Pattern.bindings?_eq_none hc]
    exact ih hcs

theorem firstFit?_eq_none (hnone : ∀ c ∈ earlier, ¬c.pattern.Fits h v) :
    firstFit? h v earlier = none := by
  rw [← List.append_nil earlier, firstFit?_append hnone, firstFit?]

end MatchCase

-- ---------------------------------------------------------------------------
-- The frame of a case
-- ---------------------------------------------------------------------------

namespace Frame

/-- Rows of bindings with names set one after another. -/
def putAll (rows : List (String × Binding)) (bs : List (String × Value)) :
    List (String × Binding) :=
  bs.foldl (fun rows b => put b.1 ⟨b.2, none⟩ rows) rows

/-- Of the bindings of one name the last counts. -/
theorem lookup_putAll (rows : List (String × Binding)) (bs : List (String × Value))
    (name : String) :
    (putAll rows bs).lookup name =
      ((bs.reverse.lookup name).map fun v => ⟨v, none⟩).or (rows.lookup name) := by
  induction bs generalizing rows with
  | nil => rfl
  | cons b bs ih =>
    obtain ⟨key, v⟩ := b
    show (putAll (put key ⟨v, none⟩ rows) bs).lookup name = _
    rw [ih, lookup_put, List.reverse_cons, List.lookup_append, Option.map_or, Option.or_assoc]
    congr 1
    by_cases hkey : name = key
    · simp [hkey]
    · rw [if_neg hkey, List.lookup_cons, beq_false_of_ne hkey]
      rfl

/-- Setting a name adds no row if it has one. -/
theorem names_put (name : String) (b : Binding) (rows : List (String × Binding)) :
    (put name b rows).map Prod.fst =
      if name ∈ rows.map Prod.fst then rows.map Prod.fst else rows.map Prod.fst ++ [name] := by
  induction rows with
  | nil => rfl
  | cons row rest ih =>
    obtain ⟨other, old⟩ := row
    by_cases hother : other = name
    · simp [put, hother]
    · rw [put, if_neg hother, List.map_cons, ih]
      by_cases hmem : name ∈ rest.map Prod.fst
      · simp [hmem]
      · simp [hmem, Ne.symm hother]

theorem nodup_putAll (rows : List (String × Binding)) (h : (rows.map Prod.fst).Nodup)
    (bs : List (String × Value)) : ((putAll rows bs).map Prod.fst).Nodup := by
  induction bs generalizing rows with
  | nil => exact h
  | cons b bs ih =>
    refine ih (put b.1 ⟨b.2, none⟩ rows) ?_
    rw [names_put]
    split
    · exact h
    · next hnew =>
      rw [← List.concat_eq_append]
      exact h.concat hnew

end Frame

/-- The machine in a new frame with the given variables, inside the current one. -/
def Machine.withFrame (m : Machine) (rows : List (String × Binding)) : Machine :=
  { m with scopes := ⟨m.scopes.frames.push ⟨rows, some m.frame⟩⟩, frame := m.scopes.size }

namespace Run

theorem define_withFrame (m : Machine) (rows : List (String × Binding)) (name : String) (v : Value)
    (ty : Option Ty) :
    define name v ty (m.withFrame rows) = .ok () (m.withFrame (Frame.put name ⟨v, ty⟩ rows)) := by
  have hframes : (m.scopes.frames.push ⟨rows, some m.frame⟩).modify m.scopes.size
      (fun frame => frame.set name ⟨v, ty⟩) =
      m.scopes.frames.push ⟨Frame.put name ⟨v, ty⟩ rows, some m.frame⟩ := by
    unfold Scopes.size
    grind [Frame.set]
  show EStateM.Result.ok () _ = _
  rw [Machine.withFrame, Machine.withFrame]
  simp only [Scopes.define, hframes]

theorem defineAll_withFrame (m : Machine) (rows : List (String × Binding))
    (bs : List (String × Value)) :
    defineAll bs (m.withFrame rows) = .ok () (m.withFrame (Frame.putAll rows bs)) := by
  induction bs generalizing rows with
  | nil => rfl
  | cons b bs ih =>
    obtain ⟨name, v⟩ := b
    rw [defineAll, bind_of_ok (define_withFrame m rows name v none), ih]
    rfl

end Run

namespace Doer

variable (self : Doer)

/-- A statement alone is executed as itself. -/
theorem execAll_singleton (s : Stmt) : self.execAll [s] = self (.exec s) := by
  funext m
  cases hrun : self (.exec s) m with
  | error e n => exact Run.bind_of_error hrun
  | ok v n =>
    refine (Run.bind_of_ok hrun).trans ?_
    show (if n.pending.isSome then pure v else self.execFrom v [] : Run Value) n = _
    split <;> rfl

/-- No case fits: the machine is left as the subject has left it. -/
theorem execSelect_of_none {subject : Expr} {cases : List MatchCase} {m n : Machine} {v : Value}
    (hsubject : self.eval subject m = .ok v n)
    (hnone : ∀ c ∈ cases, ¬c.pattern.Fits n.heap v) (line : Nat) :
    self.execSelect subject cases line m = .error (.fault ⟨line, .noCase (n.heap.text v)⟩) n := by
  have hheap : Run.heap n = .ok n.heap n := rfl
  rw [execSelect, Run.bind_of_ok hsubject, Run.bind_of_ok hheap,
    MatchCase.firstFit?_eq_none hnone]
  rfl

/-- The first case that fits is executed in a frame of its own. -/
theorem execSelect_of_first {subject : Expr} {earlier later : List MatchCase} {c : MatchCase}
    {m n : Machine} {v : Value} {bs : List (String × Value)}
    (hsubject : self.eval subject m = .ok v n)
    (hearlier : ∀ e ∈ earlier, ¬e.pattern.Fits n.heap v)
    (hbs : c.pattern.bindings? n.heap v = some bs) (line : Nat) :
    self.execSelect subject (earlier ++ c :: later) line m =
      Run.restoring (fun k => { k with frame := n.frame }) (self (.exec c.body))
        (n.withFrame (Frame.putAll [] bs)) := by
  have hheap : Run.heap n = .ok n.heap n := rfl
  rw [execSelect, Run.bind_of_ok hsubject, Run.bind_of_ok hheap,
    MatchCase.firstFit?_append hearlier, MatchCase.firstFit?, hbs]
  -- what is restored does not depend on the bindings, so they can be made before
  show Run.restoring (fun k => { k with frame := n.frame })
    (Run.defineAll bs >>= fun _ => self.execAll [c.body]) (n.withFrame []) = _
  rw [Run.restoring, Run.bind_of_ok (Run.defineAll_withFrame n [] bs), execAll_singleton,
    Run.restoring]

end Doer

-- ---------------------------------------------------------------------------
-- Main result
-- ---------------------------------------------------------------------------

/-- **Matching succeeds exactly where the pattern fits, and the first case that fits is taken.**
The bindings are the names of the pattern from left to right, repeated ones included, each with
the part of the value at its own path.

A `match` evaluates its subject once, and ends as that does if it fails. Else the body of the
first case that fits is executed in a new frame within the current one. The frame holds the
bindings of this case and nothing else, the last one of a name that is repeated. If no case
fits, the `match` fails and changes nothing more. -/
theorem match_takes_first_fit :
    (∀ (h : Heap) (p : Pattern) (v : Value),
      ((∃ bs, p.bindings? h v = some bs) ↔ p.Fits h v) ∧
      ∀ bs, p.bindings? h v = some bs → List.Forall₂ (h.Binds v) bs p.places) ∧
    ∀ (limit budget : Nat) (subject : Expr) (cases : List MatchCase) (place : Place) (m : Machine),
      (∀ e n, perform limit budget (.eval none subject) m = .error e n →
        perform limit (budget + 1) (.exec (.select subject cases place)) m = .error e n) ∧
      ∀ v n, perform limit budget (.eval none subject) m = .ok v n →
        ((∀ c ∈ cases, ¬c.pattern.Fits n.heap v) →
          ∃ cause, cause = .noCase (n.heap.text v) ∧ cause.faultClass = .noMatch ∧
            perform limit (budget + 1) (.exec (.select subject cases place)) m =
              .error (.fault ⟨place.line, cause⟩) n) ∧
        ∀ earlier c later, cases = earlier ++ c :: later →
          (∀ e ∈ earlier, ¬e.pattern.Fits n.heap v) → c.pattern.Fits n.heap v →
          ∃ bs rows, c.pattern.bindings? n.heap v = some bs ∧
            (rows.map Prod.fst).Nodup ∧
            (∀ name, rows.lookup name = (bs.reverse.lookup name).map fun w => ⟨w, none⟩) ∧
            perform limit (budget + 1) (.exec (.select subject cases place)) m =
              Run.restoring (fun k => { k with frame := n.frame })
                (perform limit budget (.exec c.body)) (n.withFrame rows) := by
  refine ⟨?_, ?_⟩
  · intro h p v
    exact ⟨Pattern.exists_bindings?_iff, fun bs hbs => (Pattern.binds_of_bindings? hbs).2⟩
  · intro limit budget subject cases place m
    refine ⟨?_, ?_⟩
    · intro e n hsubject
      exact Run.bind_of_error hsubject
    · intro v n hsubject
      refine ⟨?_, ?_⟩
      · intro hnone
        exact ⟨_, rfl, rfl, Doer.execSelect_of_none _ hsubject hnone place.line⟩
      · rintro earlier c later rfl hearlier hfits
        obtain ⟨bs, hbs⟩ := Pattern.bindings?_of_fits hfits
        refine ⟨bs, Frame.putAll [] bs, hbs, Frame.nodup_putAll [] List.nodup_nil bs, ?_,
          Doer.execSelect_of_first _ hsubject hearlier hbs place.line⟩
        intro name
        rw [Frame.lookup_putAll, List.lookup_nil, Option.or_none]

end SeqScript
