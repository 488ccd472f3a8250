import Mathlib
import SeqScript.Proofs.RowMajor

/-!
# Laws of transposition

Transposing twice gives the matrix back, transposing a sum adds the transposes, and transposing a
product multiplies the transposes the other way round. The last needs no more than that the cells
that meet in the product commute: each cell of both products is the same sum, of the same terms in
the same order. Binary64 cells commute unless both are not a number (`Binary64.mul_comm_of`).

The laws hold of matrices and, the operations on stores being those on matrices, of the loops over
row-major storage. The main result is `transpose_laws`.
-/

namespace SeqScript

variable {α : Type}

-- ---------------------------------------------------------------------------
-- Matrices
-- ---------------------------------------------------------------------------

namespace DenseMatrix

theorem entry_transpose (m : DenseMatrix α) (i : Fin m.rows) (j : Fin m.cols) :
    m.transpose.entry j i = m.entry i j :=
  entry_ofFn ..

theorem transpose_transpose (m : DenseMatrix α) : m.transpose.transpose = m := by
  apply ext_entry (a := m.transpose.transpose) (b := m) rfl rfl
  intro i j
  exact (entry_transpose m.transpose j i).trans (entry_transpose m i j)

theorem transpose_ofFn {r c : Nat} (f : Fin r → Fin c → α) :
    (ofFn r c f).transpose = ofFn c r fun j i => f i j :=
  congrArg (ofFn c r) (funext fun j => funext fun i => entry_ofFn r c f i j)

/-- Both sums are of the same cells, or of shapes that do not fit. -/
theorem transpose_add? [Add α] (a b : DenseMatrix α) :
    (a.add? b).map transpose = a.transpose.add? b.transpose := by
  by_cases hshape : a.rows = b.rows ∧ a.cols = b.cols
  · have hshape' : a.transpose.rows = b.transpose.rows ∧ a.transpose.cols = b.transpose.cols :=
      hshape.symm
    rw [add?, dif_pos hshape, add?, dif_pos hshape', Option.map_some, transpose_ofFn]
    congr 2
    funext j i
    exact congrArg₂ (· + ·) (entry_transpose a i j).symm (entry_transpose b _ _).symm
  · have hshape' : ¬ (a.transpose.rows = b.transpose.rows ∧ a.transpose.cols = b.transpose.cols) :=
      fun h => hshape h.symm
    rw [add?, dif_neg hshape, add?, dif_neg hshape', Option.map_none]

/-- Every cell of one matrix commutes with every cell of another. -/
def CellsCommute [Mul α] (a b : DenseMatrix α) : Prop :=
  ∀ i k l j, a.entry i k * b.entry l j = b.entry l j * a.entry i k

section Product

variable [Zero α] [Add α] [Mul α] {a b : DenseMatrix α}

/-- The same terms are added up in the same order. -/
theorem dot_transpose (hcomm : a.CellsCommute b) (h : a.cols = b.rows) (i : Fin a.rows)
    (j : Fin b.cols) : b.transpose.dot a.transpose h.symm j i = a.dot b h i j := by
  obtain ⟨r, c, a⟩ := a
  obtain ⟨c', d, b⟩ := b
  obtain rfl : c = c' := h
  unfold dot
  apply List.foldl_ext
  intro sum k _
  apply congrArg (sum + ·)
  exact (congrArg₂ (· * ·) (entry_transpose _ k j) (entry_transpose _ i k)).trans
    (hcomm i k k j).symm

/-- Both products have the same shape, or none. -/
theorem transpose_multiply? (hcomm : a.CellsCommute b) :
    (a.multiply? b).map transpose = b.transpose.multiply? a.transpose := by
  by_cases hshape : a.cols = b.rows
  · have hshape' : b.transpose.cols = a.transpose.rows := hshape.symm
    rw [multiply?, dif_pos hshape, multiply?, dif_pos hshape', Option.map_some, transpose_ofFn]
    congr 2
    funext j i
    exact (dot_transpose hcomm hshape i j).symm
  · have hshape' : ¬ b.transpose.cols = a.transpose.rows := fun h => hshape h.symm
    rw [multiply?, dif_neg hshape, multiply?, dif_neg hshape', Option.map_none]

end Product

end DenseMatrix

-- ---------------------------------------------------------------------------
-- Binary64 cells
-- ---------------------------------------------------------------------------

namespace Binary64

open Float.Model

theorem sign_mul_comm (s t : UnpackedFloat.Sign) : s * t = t * s := by
  cases s <;> cases t <;> rfl

/-- The exact product does not depend on the order, so neither does the rounded one. -/
theorem unpacked_mul_comm (spec : Format) (x y : UnpackedFloat) :
    UnpackedFloat.mul spec x y = UnpackedFloat.mul spec y x := by
  cases x <;> cases y <;> simp [UnpackedFloat.mul, sign_mul_comm, Nat.mul_comm, Int.add_comm]

theorem float_mul_comm (x y : Float) : x * y = y * x :=
  congrArg (fun z => Float.ofModel (pack z)) (unpacked_mul_comm ..)

/-- Of two values that are not numbers a product returns the left one; all others commute. -/
theorem mul_comm_of {x y : Binary64} (h : x.isNaN = false ∨ y.isNaN = false) : x * y = y * x := by
  show lift₂ (fun x y => x * y) x y = lift₂ (fun x y => x * y) y x
  unfold lift₂
  cases hx : x.isNaN <;> cases hy : y.isNaN
  · simp [float_mul_comm x.toFloat]
  · simp
  · simp
  · simp [hx, hy] at h

end Binary64

/-- It is enough that one of the matrices has numbers only. -/
theorem DenseMatrix.cellsCommute_of_numbers {a b : DenseMatrix Binary64}
    (h : (∀ i k, (a.entry i k).isNaN = false) ∨ ∀ l j, (b.entry l j).isNaN = false) :
    a.CellsCommute b :=
  fun i k l j => Binary64.mul_comm_of (h.imp (· i k) (· l j))

-- ---------------------------------------------------------------------------
-- Stores
-- ---------------------------------------------------------------------------

namespace RowMajor

/-- The laws of transposition for the loops over two stores. -/
structure Transposes [Zero α] [Add α] [Mul α] (a b : RowMajor α) : Prop where
  twice : ∃ t, a.transpose = .ok t ∧ t.transpose = .ok a ∧
    ∀ i < a.rows, ∀ j < a.cols, ∃ x, a.cell i j = .ok x ∧ t.cell j i = .ok x
  add : ∀ s, a.add b = .ok s → ∃ a' b' s', a.transpose = .ok a' ∧ b.transpose = .ok b' ∧
    s.transpose = .ok s' ∧ a'.add b' = .ok s'
  multiply : (∀ x ∈ a.data, ∀ y ∈ b.data, x * y = y * x) → ∀ s, a.multiply b = .ok s →
    ∃ a' b' s', a.transpose = .ok a' ∧ b.transpose = .ok b' ∧ s.transpose = .ok s' ∧
      b'.multiply a' = .ok s'

theorem elim_eq_ok_iff {o : Option (DenseMatrix α)} {e : Trouble} {s : RowMajor α} :
    o.elim (Except.error e) (fun m => Except.ok m.flat) = .ok s ↔ ∃ m, o = some m ∧ s = m.flat := by
  cases o with
  | none => simp
  | some m => simp [eq_comm]

/-- Every cell of a matrix is in its store. -/
theorem mem_data_flat (m : DenseMatrix α) (i : Fin m.rows) (j : Fin m.cols) :
    m.entry i j ∈ m.flat.data :=
  Array.mem_of_getElem? (getElem?_layout m.cell (i, j))

/-- The laws of matrices, read off their stores. -/
theorem transposes_flat [Zero α] [Add α] [Mul α] (a b : DenseMatrix α) :
    Transposes a.flat b.flat where
  twice := by
    have htwice : a.transpose.flat.transpose = .ok a.flat := by
      rw [transpose_flat, DenseMatrix.transpose_transpose]
    refine ⟨a.transpose.flat, transpose_flat a, htwice, ?_⟩
    intro i hi j hj
    have hcell : a.transpose.flat.cell j i = .ok (a.transpose.entry ⟨j, hj⟩ ⟨i, hi⟩) :=
      cell_flat a.transpose ⟨j, hj⟩ ⟨i, hi⟩
    have hentry := DenseMatrix.entry_transpose a ⟨i, hi⟩ ⟨j, hj⟩
    exact ⟨_, cell_flat a ⟨i, hi⟩ ⟨j, hj⟩, hcell.trans (congrArg Except.ok hentry)⟩
  add := by
    intro s hs
    rw [add_flat] at hs
    obtain ⟨m, hm, rfl⟩ := elim_eq_ok_iff.mp hs
    have hsum : a.transpose.add? b.transpose = some m.transpose := by
      rw [← DenseMatrix.transpose_add?, hm, Option.map_some]
    refine ⟨_, _, _, transpose_flat a, transpose_flat b, transpose_flat m, ?_⟩
    rw [add_flat]
    exact elim_eq_ok_iff.mpr ⟨_, hsum, rfl⟩
  multiply := by
    intro hcomm s hs
    have hcells : a.CellsCommute b := by
      intro i k l j
      exact hcomm _ (mem_data_flat a i k) _ (mem_data_flat b l j)
    rw [multiply_flat] at hs
    obtain ⟨m, hm, rfl⟩ := elim_eq_ok_iff.mp hs
    have hproduct : b.transpose.multiply? a.transpose = some m.transpose := by
      rw [← DenseMatrix.transpose_multiply? hcells, hm, Option.map_some]
    refine ⟨_, _, _, transpose_flat a, transpose_flat b, transpose_flat m, ?_⟩
    rw [multiply_flat]
    exact elim_eq_ok_iff.mpr ⟨_, hproduct, rfl⟩

end RowMajor

open DenseMatrix

/-- **Laws of transposition.** For matrices of any cells and shapes:
* transposing twice gives the matrix back, and the transpose has at `(j, i)` the cell at `(i, j)`;
* the transposes have a sum exactly if the matrices do, the transpose of that sum;
* if the cells of the one commute with those of the other, the transposes have a product the other
  way round exactly if the matrices have one, the transpose of that product;
* Binary64 cells do commute, if one of the matrices holds nothing but numbers;
* the same laws hold of the loops over row-major storage, for all stores that are full. -/
theorem transpose_laws [Zero α] [Add α] [Mul α] :
    (∀ a : DenseMatrix α, a.transpose.transpose = a ∧
        ∀ i j, a.transpose.entry j i = a.entry i j) ∧
      (∀ a b : DenseMatrix α, (a.add? b).map transpose = a.transpose.add? b.transpose) ∧
      (∀ a b : DenseMatrix α, a.CellsCommute b →
        (a.multiply? b).map transpose = b.transpose.multiply? a.transpose) ∧
      (∀ a b : DenseMatrix Binary64,
        ((∀ i k, (a.entry i k).isNaN = false) ∨ ∀ l j, (b.entry l j).isNaN = false) →
          a.CellsCommute b) ∧
      ∀ a b : RowMajor α, a.data.size = a.rows * a.cols → b.data.size = b.rows * b.cols →
        a.Transposes b := by
  refine ⟨?_, transpose_add?, fun _ _ => transpose_multiply?,
    fun _ _ => cellsCommute_of_numbers, ?_⟩
  · intro a
    exact ⟨transpose_transpose a, entry_transpose a⟩
  · intro a b ha hb
    obtain ⟨a, rfl⟩ := RowMajor.exists_flat ha
    obtain ⟨b, rfl⟩ := RowMajor.exists_flat hb
    exact RowMajor.transposes_flat a b

/-- A matrix of two rows and three columns times one of three rows and one column. -/
theorem transpose_laws_rectangular :
    let a : DenseMatrix Binary64 := .ofFn 2 3 fun i k => if i.val = k.val then 2.0 else 0.1
    let b : DenseMatrix Binary64 := .ofFn 3 1 fun l _ => if l.val = 2 then 3.5 else 0.7
    (∀ i k, (a.entry i k).isNaN = false) ∧ a.CellsCommute b ∧ (a.multiply? b).isSome = true ∧
      (a.multiply? b).map transpose = b.transpose.multiply? a.transpose := by
  intro a b
  have hnumbers : ∀ i k, (a.entry i k).isNaN = false := by decide +kernel
  obtain ⟨-, -, hproduct, hcommute, -⟩ := @transpose_laws Binary64 _ _ _
  have hcells : a.CellsCommute b := hcommute a b (.inl hnumbers)
  exact ⟨hnumbers, hcells, rfl, hproduct a b hcells⟩

end SeqScript
