import SeqScript.Proofs.Nesting
import SeqScript.Proofs.Writes

/-!
# Dotted operations and functions of the same name

Nine operations are there twice: as `xs.op(…)` and as a function `op(xs, …)`. The two are
dispatched separately, and each takes its arguments apart and checks them by itself. What they
do with the elements is shared.

* `apply_eq_call` — they are the same run, on every machine and however the functions are
  called that `map` and `filter` are given. The one exception are `map` and `filter` of
  something that is no sequence.
* `refused_in_both_forms` — there both fail at once, and only the wording differs.

The main result is `dotted_agrees_with_function`.
-/

namespace SeqScript

-- ---------------------------------------------------------------------------
-- Runs that end alike
-- ---------------------------------------------------------------------------

/-- Two runs end alike: with one value, with faults of one class on one line, or stopped for
the same other reason; and what they leave is one machine. -/
inductive EndsLike : EStateM.Result Stop Machine Value → EStateM.Result Stop Machine Value → Prop
  | value (v : Value) (m : Machine) : EndsLike (.ok v m) (.ok v m)
  | fault (line : Nat) {c c' : Cause} (h : c.faultClass = c'.faultClass) (m : Machine) :
    EndsLike (.error (.fault ⟨line, c⟩) m) (.error (.fault ⟨line, c'⟩) m)
  | exhausted (m : Machine) : EndsLike (.error .exhausted m) (.error .exhausted m)
  | disorder (row : List Value) (m : Machine) :
    EndsLike (.error (.disorder row) m) (.error (.disorder row) m)

theorem EndsLike.refl (r : EStateM.Result Stop Machine Value) : EndsLike r r := by
  cases r with
  | ok v m => exact .value v m
  | error e m =>
    cases e with
    | fault f => exact .fault f.line rfl m
    | exhausted => exact .exhausted m
    | disorder row => exact .disorder row m

-- ---------------------------------------------------------------------------
-- The two forms
-- ---------------------------------------------------------------------------

namespace CollectionOp

section

variable {op : CollectionOp} {b : Builtin} (self : Doer) {target : Value} {args : List Value}
  (declared : Option Ty) (line : Nat)

/-- **The two forms are the same run**, unless `map` or `filter` is asked of something that is no
sequence. -/
theorem apply_eq_call (hb : Builtin.ofName? op.name = some b) (hargs : args.length = op.arity)
    (hseq : op ∈ [map, filter] → ∃ kind id, target = .seq kind id) :
    op.apply self target args false declared line = b.call self (target :: args) line := by
  cases op with
  | mean | median | variance | stddev =>
    cases hb
    obtain rfl := List.length_eq_zero_iff.mp hargs
    rfl
  | linreg | rotate | shift =>
    cases hb
    obtain ⟨v, rfl⟩ := List.length_eq_one_iff.mp hargs
    rfl
  | map | filter =>
    cases hb
    obtain ⟨f, rfl⟩ := List.length_eq_one_iff.mp hargs
    obtain ⟨kind, id, rfl⟩ := hseq (by simp)
    rfl
  | sort | append | remove | add | multiply | invert | transpose => cases hb

/-- There both forms fail before anything has been done. -/
theorem refused_in_both_forms (hop : op ∈ [map, filter]) (hb : Builtin.ofName? op.name = some b)
    (hargs : args.length = op.arity) (htarget : target.store? = none) (m : Machine) :
    ∃ c c' : Cause, c.faultClass = .type ∧ c'.faultClass = .type ∧
      op.apply self target args false declared line m = .error (.fault ⟨line, c⟩) m ∧
      b.call self (target :: args) line m = .error (.fault ⟨line, c'⟩) m := by
  cases op with
  | map | filter =>
    cases hb
    obtain ⟨f, rfl⟩ := List.length_eq_one_iff.mp hargs
    cases target with
    | seq kind id => cases htarget
    | _ => exact ⟨_, _, rfl, rfl, rfl, rfl⟩
  | _ => simp at hop

end

/-- A function takes one argument more than the operation, which is the subject. -/
theorem accepts_function {op : CollectionOp} {b : Builtin}
    (hb : Builtin.ofName? op.name = some b) (count : Nat) :
    b.arity.accepts (count + 1) = true ↔ count = op.arity := by
  have harity : b.arity = .exactly (op.arity + 1) := by
    cases op <;> cases hb <;> rfl
  rw [harity]
  simp [Arity.accepts]

end CollectionOp

-- ---------------------------------------------------------------------------
-- Main result
-- ---------------------------------------------------------------------------

open CollectionOp in
/-- **The dotted form of an operation and the function of the same name agree.**
* There is such a function for nine operations, and it takes as many arguments besides its
  subject.
* On every machine, for every subject and all arguments of that number: if the operation is
  not asked to write over its subject, both forms end with the same value, or with faults of
  the same class on the same line, and leave the same machine: frames, sequences, output and
  all.
* They are the same run altogether, faults word for word, but for `map` and `filter` of
  something that is no sequence. -/
theorem dotted_agrees_with_function (op : CollectionOp) :
    (op ∈ [mean, median, variance, stddev, linreg, map, filter, rotate, shift] ↔
      ∃ b, Builtin.ofName? op.name = some b) ∧
    ∀ b, Builtin.ofName? op.name = some b →
      (∀ count, b.arity.accepts (count + 1) = true ↔ count = op.arity) ∧
      ∀ (self : Doer) (target : Value) (args : List Value) (declared : Option Ty) (line : Nat)
        (m : Machine), args.length = op.arity →
        EndsLike (op.apply self target args false declared line m)
          (b.call self (target :: args) line m) ∧
        ((op ∈ [map, filter] → ∃ kind id, target = .seq kind id) →
          op.apply self target args false declared line m =
            b.call self (target :: args) line m) := by
  constructor
  · cases op <;> simp [Builtin.ofName?, Builtin.all, CollectionOp.name, Builtin.name]
  · intro b hb
    refine ⟨accepts_function hb, ?_⟩
    intro self target args declared line m hargs
    have hsame (hseq : op ∈ [map, filter] → ∃ kind id, target = .seq kind id) :=
      congrFun (apply_eq_call self declared line hb hargs hseq) m
    refine ⟨?_, hsame⟩
    by_cases hplain : op ∈ [map, filter] ∧ target.store? = none
    · obtain ⟨c, c', hc, hc', hdotted, hfunction⟩ :=
        refused_in_both_forms self declared line hplain.1 hb hargs hplain.2 m
      rw [hdotted, hfunction]
      exact .fault line (hc.trans hc'.symm) m
    · rw [hsame]
      · exact .refl _
      · intro hop
        exact (Heap.seq_or_plain target).resolve_right fun htarget => hplain ⟨hop, htarget⟩

end SeqScript
