import Mathlib
import SeqScript.DenseMatrix.Inverse

/-!
# Elimination by rows

The row operations of elimination, each by one lemma that says what the rows of the block are
afterwards (`entries_swapRows`, `entries_divideRow`, `entries_clearRows`). The block under reduction
and the one that follows it undergo the same operations, so both are seen as one family of paired
rows. A round of the reduction exchanges two paired rows, scales one and clears the others
(`reduceColumn_eq_some`), and inverting a square matrix is one round for each column
(`invert_square`).
-/

namespace SeqScript

namespace DenseMatrix

variable {α : Type} {n : Nat}

-- ---------------------------------------------------------------------------
-- Row operations
-- ---------------------------------------------------------------------------

/-- The cells of a square block. -/
def Square.entries (a : Square α n) (i j : Fin n) : α := (a.get i).get j

theorem entries_swapRows (a : Square α n) (i j : Fin n) :
    (swapRows a i j).entries = a.entries ∘ Equiv.swap i j := by
  have hrow : ∀ r : Fin n, (swapRows a i j).get r = a.get (Equiv.swap i j r) := by
    intro r
    simp only [swapRows, Vector.get_eq_getElem, Vector.getElem_swap, Equiv.swap_apply_def,
      Fin.val_inj]
    split_ifs <;> rfl
  funext r k
  rw [Square.entries, hrow]
  rfl

section

variable [Pivoting α] (a : Square α n)

theorem entries_divideRow (i : Fin n) (p : α) :
    (divideRow a i p).entries = Function.update a.entries i fun k => a.entries i k / p := by
  funext r k
  by_cases hr : r = i
  · subst hr
    simp [Square.entries, divideRow, Vector.get_eq_getElem]
  · simp [Square.entries, divideRow, Vector.get_eq_getElem, hr, Fin.val_ne_iff.mpr (Ne.symm hr)]

theorem entries_clearRows (factors : Vector α n) (col r : Fin n) :
    (clearRows a factors col).entries r =
      if r = col ∨ Pivoting.isZero (factors.get r) = true then a.entries r
      else fun k => a.entries r k - factors.get r * a.entries col k := by
  have hrow : (clearRows a factors col).get r =
      if r = col then a.get r else if Pivoting.isZero (factors.get r) then a.get r
      else subtractRow a (factors.get r) col r := Vector.getElem_ofFn r.isLt
  funext k
  rw [Square.entries, hrow]
  by_cases hr : r = col
  · rw [if_pos hr, if_pos (.inl hr), Square.entries]
  by_cases hzero : Pivoting.isZero (factors.get r) = true
  · rw [if_neg hr, if_pos hzero, if_pos (.inr hzero), Square.entries]
  · rw [if_neg hr, if_neg hzero, if_neg (by tauto)]
    exact Vector.getElem_zipWith k.isLt

end

-- ---------------------------------------------------------------------------
-- Paired rows
-- ---------------------------------------------------------------------------

/-- The rows of two square blocks, side by side. -/
abbrev PairedRows (α : Type) (n : Nat) := Fin n → (Fin n → α) × (Fin n → α)

/-- The rows of the block under reduction, each with that of the block that follows it. -/
def Reduction.rows (s : Reduction α n) : PairedRows α n :=
  fun r => (s.work.entries r, s.inverse.entries r)

theorem rows_swapRows (s : Reduction α n) (i j : Fin n) :
    Reduction.rows ⟨swapRows s.work i j, swapRows s.inverse i j⟩ = s.rows ∘ Equiv.swap i j := by
  funext r
  simp only [Reduction.rows, entries_swapRows, Function.comp_apply]

variable [Pivoting α]

/-- Row `col` divided by its cell in column `col`. -/
def PairedRows.scaled (s : PairedRows α n) (col : Fin n) : PairedRows α n :=
  let p := (s col).1 col
  Function.update s col (fun k => (s col).1 k / p, fun k => (s col).2 k / p)

/-- A multiple of row `col` taken away from every other row so as to clear its cell in column
`col`. -/
def PairedRows.cleared (s : PairedRows α n) (col : Fin n) : PairedRows α n := fun r =>
  let factor := (s r).1 col
  if r = col ∨ Pivoting.isZero factor = true then s r
  else (fun k => (s r).1 k - factor * (s col).1 k, fun k => (s r).2 k - factor * (s col).2 k)

section

variable (s : Reduction α n) (col : Fin n)

theorem rows_divideRow :
    Reduction.rows ⟨divideRow s.work col (s.work.entries col col),
      divideRow s.inverse col (s.work.entries col col)⟩ = PairedRows.scaled s.rows col := by
  funext r
  simp only [Reduction.rows, entries_divideRow, PairedRows.scaled]
  by_cases hr : r = col
  · subst hr
    simp [Square.entries]
  · simp [hr, Reduction.rows]

theorem rows_clearRows {factors : Vector α n}
    (hfactors : ∀ r, factors.get r = s.work.entries r col) :
    Reduction.rows ⟨clearRows s.work factors col, clearRows s.inverse factors col⟩ =
      PairedRows.cleared s.rows col := by
  funext r
  rw [Reduction.rows, entries_clearRows, entries_clearRows, hfactors]
  by_cases hkept : r = col ∨ Pivoting.isZero (s.work.entries r col) = true
  · have hrow : PairedRows.cleared s.rows col r = s.rows r := if_pos hkept
    rw [hrow, if_pos hkept, if_pos hkept, Reduction.rows]
  · have hrow : PairedRows.cleared s.rows col r = _ := if_neg hkept
    rw [hrow, if_neg hkept, if_neg hkept]
    rfl

/-- One round of the reduction: two rows exchanged, one scaled, the others cleared. -/
theorem reduceColumn_eq_some
    (hpivot : Pivoting.negligible (s.work.entries (pivotRow s.work col) col) = false) :
    ∃ t, reduceColumn s col = some t ∧ t.rows = PairedRows.cleared
      (PairedRows.scaled (s.rows ∘ Equiv.swap (pivotRow s.work col) col) col) col := by
  let swapped : Reduction α n :=
    ⟨swapRows s.work (pivotRow s.work col) col, swapRows s.inverse (pivotRow s.work col) col⟩
  let divided : Reduction α n :=
    ⟨divideRow swapped.work col (swapped.work.entries col col),
      divideRow swapped.inverse col (swapped.work.entries col col)⟩
  let factors := divided.work.map fun row => row.get col
  have hfactors : ∀ r, factors.get r = divided.work.entries r col :=
    fun r => Vector.getElem_map _ r.isLt
  have hrows : Reduction.rows
      ⟨clearRows divided.work factors col, clearRows divided.inverse factors col⟩ =
        PairedRows.cleared
          (PairedRows.scaled (s.rows ∘ Equiv.swap (pivotRow s.work col) col) col) col := by
    rw [rows_clearRows divided col hfactors, rows_divideRow swapped col, rows_swapRows]
  exact ⟨_, if_neg (Bool.eq_false_iff.mp hpivot), hrows⟩

end

/-- The pivot is looked for from the diagonal down. -/
theorem le_pivotRow (a : Square α n) (col : Fin n) : col ≤ pivotRow a col := by
  apply List.foldlRecOn (motive := fun best => col ≤ best) _ _ le_rfl
  intro best hbest r hr
  split
  · exact hbest
  · exact (of_decide_eq_true (List.mem_filter.mp hr).2).le

theorem reduceColumn_eq_none_iff {s : Reduction α n} {col : Fin n} : reduceColumn s col = none ↔
    Pivoting.negligible (s.work.entries (pivotRow s.work col) col) = true := by
  constructor
  · intro hnone
    by_contra hpivot
    obtain ⟨t, ht, -⟩ := reduceColumn_eq_some s col (Bool.eq_false_iff.mpr hpivot)
    rw [hnone] at ht
    cases ht
  · exact fun hsmall => if_pos hsmall

/-- What a round that finds a pivot does to the rows. -/
theorem rows_of_reduceColumn {s t : Reduction α n} {col : Fin n} (h : reduceColumn s col = some t) :
    Pivoting.negligible (s.work.entries (pivotRow s.work col) col) = false ∧
      t.rows = PairedRows.cleared
        (PairedRows.scaled (s.rows ∘ Equiv.swap (pivotRow s.work col) col) col) col := by
  have hpivot : Pivoting.negligible (s.work.entries (pivotRow s.work col) col) = false := by
    rw [Bool.eq_false_iff, ne_eq, ← reduceColumn_eq_none_iff, h]
    exact Option.some_ne_none t
  obtain ⟨t', ht', hrows⟩ := reduceColumn_eq_some s col hpivot
  obtain rfl : t' = t := Option.some.inj (ht'.symm.trans h)
  exact ⟨hpivot, hrows⟩

-- ---------------------------------------------------------------------------
-- Inverting
-- ---------------------------------------------------------------------------

/-- Where the reduction of a square block starts. -/
def Square.start (cells : Square α n) : Reduction α n := ⟨cells, (identity n).cells⟩

theorem invert_square (cells : Square α n) : (DenseMatrix.mk n n cells).invert =
    ((List.finRange n).foldlM reduceColumn cells.start).elim .singular fun t =>
      .inverse ⟨n, n, t.inverse⟩ := by
  have hcells : cells.map (Vector.cast rfl) = cells := by
    ext i hi j hj
    simp
  have hrounds : invertSquare? cells =
      ((List.finRange n).foldlM reduceColumn cells.start).map Reduction.inverse := rfl
  rw [invert, dif_pos rfl, hcells, hrounds]
  cases (List.finRange n).foldlM reduceColumn cells.start <;> rfl

theorem invert_of_ne {m : DenseMatrix α} (h : m.rows ≠ m.cols) : m.invert = .notSquare :=
  dif_neg h.symm

/-- An inverse has the shape of the matrix. -/
theorem shape_of_invert {m b : DenseMatrix α} (h : m.invert = .inverse b) :
    m.rows = m.cols ∧ b.rows = m.rows ∧ b.cols = m.cols := by
  obtain ⟨r, c, cells⟩ := m
  by_cases hsquare : r = c
  · subst hsquare
    rw [invert_square] at h
    cases hrounds : (List.finRange r).foldlM reduceColumn (Square.start cells) with
    | none =>
      rw [hrounds] at h
      cases h
    | some t =>
      rw [hrounds] at h
      cases h
      exact ⟨rfl, rfl, rfl⟩
  · rw [invert_of_ne hsquare] at h
    cases h

end DenseMatrix

end SeqScript
