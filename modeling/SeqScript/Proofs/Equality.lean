import Mathlib
import SeqScript.Eval.Call
import SeqScript.Proofs.Acyclic
import SeqScript.Proofs.Matching

/-!
# Equality is symmetric and defined everywhere

Values are compared by cases that overlap: integers apart from other numbers, a matrix with a
sequence of its rows, two sequences by their stores and then by their elements. `compareStep` is
one round of these cases, with the comparison of elements left open. What the program computes
is a comparison that uses itself for the elements, and where no sequence is nested in itself
there is only one (`Sound.eq_equal`): the bound in `equal` cuts nothing off, and the recursion
ends.

Symmetry follows from that. A round with its operands exchanged is a round with exchanged
operands for the elements (`compareStep_swap`), so the exchanged comparison is the comparison.
Nothing is assumed about numbers: `Binary64.equals_comm` comes from their encoding.

The main result is `equality_symmetric`.
-/

namespace SeqScript

-- ---------------------------------------------------------------------------
-- Numbers, matrices and other plain values
-- ---------------------------------------------------------------------------

theorem Binary64.Same.symm {x y : Binary64} (h : Same x y) : Same y x := by
  obtain hx | ⟨hx, hy⟩ := h
  · exact .refl hx
  · exact .zeros hy hx

theorem Binary64.equals_comm (x y : Binary64) : x.equals y = y.equals x := by
  rw [Bool.eq_iff_iff, equals_iff, equals_iff]
  exact ⟨.symm, .symm⟩

theorem DenseMatrix.agree_comm {α : Type} {same : α → α → Bool}
    (hsame : ∀ x y, same x y = same y x) (a b : DenseMatrix α) :
    a.agree same b = b.agree same a := by
  obtain ⟨rows, cols, a⟩ := a
  obtain ⟨rows', cols', b⟩ := b
  by_cases hshape : rows = rows' ∧ cols = cols'
  · obtain ⟨rfl, rfl⟩ := hshape
    simp only [agree, and_self, dite_true, Fin.cast_refl, id_eq]
    congr! 4
    exact hsame _ _
  · have hshape' : ¬ (rows' = rows ∧ cols' = cols) := fun h => hshape ⟨h.1.symm, h.2.symm⟩
    simp only [agree, dif_neg hshape, dif_neg hshape']

theorem Value.plainEqual_comm (v w : Value) : v.plainEqual w = w.plainEqual v := by
  cases v <;> cases w <;> try rfl
  case int.int a b => exact BEq.comm
  case bool.bool a b => exact BEq.comm
  case str.str s t => exact BEq.comm
  case func.func f g => exact BEq.comm
  case builtin.builtin b c => exact BEq.comm
  case matrix.matrix a b => exact DenseMatrix.agree_comm Binary64.equals_comm a b
  all_goals exact Binary64.equals_comm _ _

-- ---------------------------------------------------------------------------
-- One round of the comparison
-- ---------------------------------------------------------------------------

namespace Heap

variable {h : Heap} {same : Value → Value → Bool}

/-- One round of the comparison: `same` is what compares the elements of sequences. -/
def compareStep (h : Heap) (same : Value → Value → Bool) : Value → Value → Bool
  | .seq _ a, .seq _ b => a == b || pairwise same (h.read a).toList (h.read b).toList
  | .matrix m, .seq kind id => h.isMatrix m (.seq kind id)
  | .seq kind id, .matrix m => h.isMatrix m (.seq kind id)
  | v, w => v.plainEqual w

/-- A comparison that uses itself for the elements. -/
def Compares (h : Heap) (same : Value → Value → Bool) : Prop :=
  ∀ v w, same v w = h.compareStep same v w

theorem pairwise_swap (vs ws : List Value) :
    pairwise same vs ws = pairwise (fun w v => same v w) ws vs := by
  induction vs generalizing ws with
  | nil => cases ws <;> rfl
  | cons v vs ih =>
    cases ws with
    | nil => rfl
    | cons w ws => rw [pairwise, pairwise, ih]

/-- Exchanging the operands of a round exchanges them in the comparison of the elements. -/
theorem compareStep_swap (v w : Value) :
    h.compareStep same v w = h.compareStep (fun x y => same y x) w v := by
  fun_cases compareStep h same v w with
  | case1 _ a _ b =>
    show _ = (b == a || pairwise _ _ _)
    rw [BEq.comm, pairwise_swap]
  | case2 m kind id => rfl
  | case3 kind id m => rfl
  | case4 v w hseqs hleft hright =>
    rw [compareStep, Value.plainEqual_comm]
    · exact fun kind b kind' a hw hv => hseqs kind' a kind b hv hw
    · exact fun m kind id hw hv => hright kind id m hv hw
    · exact fun kind id m hw hv => hleft m kind id hv hw

/-- Two values are sequences, or one of them holds no references. -/
theorem seqs_or_plain (v w : Value) :
    (∃ kind a kind' b, v = .seq kind a ∧ w = .seq kind' b) ∨
      (v.store? = none ∨ w.store? = none) := by
  obtain ⟨kind, a, rfl⟩ | hv := seq_or_plain v
  · obtain ⟨kind', b, rfl⟩ | hw := seq_or_plain w
    · exact Or.inl ⟨kind, a, kind', b, rfl, rfl⟩
    · exact Or.inr (Or.inr hw)
  · exact Or.inr (Or.inl hv)

/-- A round looks at elements only if both operands are sequences. -/
theorem compareStep_of_plain {v w : Value} (hplain : v.store? = none ∨ w.store? = none) :
    h.compareStep same v w = h.equalWithin 0 v w := by
  cases v <;> cases w <;> first | rfl | simp [Value.store?] at hplain

theorem Sound.compares_equal (hs : h.Sound) : h.Compares h.equal := by
  intro v w
  obtain ⟨kind, a, kind', b, rfl, rfl⟩ | hplain := seqs_or_plain v w
  · exact hs.unbounded.equal kind kind' a b
  · rw [compareStep_of_plain hplain, Heap.equal, equalWithin_of_plain hplain]

/-- **There is only one comparison.** Two that use themselves for the elements agree on the
elements of a value, by induction along the nesting, and so on the value. -/
theorem Sound.eq_equal (hs : h.Sound) (hsame : h.Compares same) : same = h.equal := by
  funext v
  induction v using hs.wellFounded_elementOf.induction with
  | _ v ih =>
    funext w
    rw [hsame, hs.compares_equal v w]
    obtain ⟨kind, a, kind', b, rfl, rfl⟩ | hplain := seqs_or_plain v w
    · have helements : pairwise same (h.read a).toList (h.read b).toList =
          pairwise h.equal (h.read a).toList (h.read b).toList := by
        apply pairwise_congr
        intro x hx y _
        rw [ih x ⟨a, rfl, Array.mem_toList_iff.mp hx⟩]
      rw [compareStep, compareStep, helements]
    · rw [compareStep_of_plain hplain, compareStep_of_plain hplain]

theorem Sound.equal_comm (hs : h.Sound) (v w : Value) : h.equal v w = h.equal w v := by
  have hswap : h.Compares fun x y => h.equal y x := by
    intro x y
    show h.equal y x = _
    rw [hs.compares_equal y x, compareStep_swap]
  exact (congrFun₂ (hs.eq_equal hswap) v w).symm

end Heap

-- ---------------------------------------------------------------------------
-- Operators
-- ---------------------------------------------------------------------------

/-- An expression with `==` or `!=` fails only where an operand does. -/
theorem Doer.evalExpr_equality {self : Doer} {l r : Expr} {m₀ m₁ m : Machine} {v w : Value}
    (hl : self.eval l m₀ = .ok v m₁) (hr : self.eval r m₁ = .ok w m) (hint : Option Ty)
    (p : Place) :
    self.evalExpr hint (.binary .eq l r p) m₀ = .ok (.bool (m.heap.equal v w)) m ∧
      self.evalExpr hint (.binary .ne l r p) m₀ = .ok (.bool (!m.heap.equal v w)) m := by
  constructor
  all_goals
    rw [evalExpr, Run.bind_of_ok hl, Run.bind_of_ok hr]
    · rfl
    all_goals exact BinaryOp.noConfusion

/-- **Equality is symmetric, and `==` and `!=` are defined for all values.** At every moment of
every session:
* a value equals another exactly if that one equals it, whatever their kinds and however their
  stores are shared;
* the comparison is the one and only that goes by the cases and uses itself for the elements, so
  it ends and nothing is cut off;
* `==` and `!=` have a result on any two values, opposite ones, which exchanging the values does
  not change;
* evaluating `l == r` and `l != r` succeeds wherever evaluating the operands does. -/
theorem equality_symmetric {m : Machine} (hm : Session.Moment m) :
    (∀ v w, m.heap.equal v w = m.heap.equal w v) ∧
      (∀ same, m.heap.Compares same ↔ same = m.heap.equal) ∧
      (∀ v w, ∃ b, Value.binary m.heap .eq v w = .ok (.bool b) ∧
        Value.binary m.heap .ne v w = .ok (.bool !b) ∧
        Value.binary m.heap .eq w v = .ok (.bool b) ∧
        Value.binary m.heap .ne w v = .ok (.bool !b)) ∧
      ∀ (self : Doer) (l r : Expr) (m₀ m₁ : Machine) (v w : Value),
        self.eval l m₀ = .ok v m₁ → self.eval r m₁ = .ok w m → ∀ hint p, ∃ b,
          self.evalExpr hint (.binary .eq l r p) m₀ = .ok (.bool b) m ∧
            self.evalExpr hint (.binary .ne l r p) m₀ = .ok (.bool !b) m := by
  have hs : m.heap.Sound := (hm.standing nested_start).holds.1
  refine ⟨hs.equal_comm, ?_, ?_, ?_⟩
  · intro same
    constructor
    · exact hs.eq_equal
    · rintro rfl
      exact hs.compares_equal
  · intro v w
    have hswap : Value.binary m.heap .eq w v = .ok (.bool (m.heap.equal v w)) ∧
        Value.binary m.heap .ne w v = .ok (.bool !m.heap.equal v w) := by
      rw [hs.equal_comm v w]
      exact ⟨rfl, rfl⟩
    exact ⟨m.heap.equal v w, rfl, rfl, hswap⟩
  · intro self l r m₀ m₁ v w hl hr hint p
    exact ⟨m.heap.equal v w, Doer.evalExpr_equality hl hr hint p⟩

/-- After `xs = [[1], [2]]; ys = xs.transpose();` the matrix `ys` is not equal to `xs`, and `xs`
not to `ys`, while the matrix of the rows of `xs` is. -/
theorem equality_symmetric_matrix :
    let p : Place := ⟨1, 1⟩
    let row (n : Int64) : Expr := .items [.literal (.int n) p] p
    let program : Program :=
      [.assign "xs" .set (.items [row 1, row 2] p) p,
        .assign "ys" .set (.collection .transpose (.ident "xs" p) [] [] p) p]
    let m := ((Session.start 1).evaluate 5 program).2.machine
    let xs : Value := .seq .array 2
    let ys : Value := .matrix (.ofFn 1 2 fun _ j => if j = 0 then 1.0 else 2.0)
    Session.Moment m ∧ m.heap.equal xs ys = false ∧
      m.heap.equal xs (.matrix (.ofFn 2 1 fun i _ => if i = 0 then 1.0 else 2.0)) = true ∧
      m.heap.equal xs ys = m.heap.equal ys xs := by
  intro p row program m xs ys
  have hm : Session.Moment m := .between (.evaluate 5 program (.start 1))
  exact ⟨hm, by decide +kernel, by decide +kernel, (equality_symmetric hm).1 xs ys⟩

end SeqScript
