import Mathlib
import SeqScript.Proofs.Rational
import SeqScript.Proofs.RowMajor.Inverse

/-!
# Inverting exact cells

Elimination run on rationals: the same rounds, with magnitudes compared exactly and with any
positive threshold for a pivot (`Pivoting.exact`). On numbers that are rationals its tests are
those of the program (`exact_tests`).

A round brings a row to the diagonal and sweeps with it (`exact_round`). What it keeps is `Follows`:
the rows on the right combine those of the matrix to the rows on the left, and the columns that are
done are those of the identity (`Follows.swap`, `Follows.swept`, `follows_rounds`). So at the end
the block on the right inverts the matrix (`inverse_mul`). The main result is
`inverse_two_sided`, for matrices and for the loops over row-major storage.
-/

namespace SeqScript

open scoped Matrix

/-- Elimination on exact cells: magnitudes are compared as rationals, and those below a threshold
are negligible. -/
@[reducible] def Pivoting.exact (threshold : ℚ) : Pivoting ℚ where
  exceeds x y := decide (|y| < |x|)
  negligible x := decide (|x| < threshold)
  isZero x := decide (x = 0)

/-- What elimination asks of numbers is what it asks of the rationals they are. -/
theorem exact_tests {t : ℚ} (ht : singularityThreshold.rational? = some t) (hpos : 0 < t)
    {x y : Binary64} {r q : ℚ} (hx : x.rational? = some r) (hy : y.rational? = some q) :
    Pivoting.exceeds x y = (Pivoting.exact t).exceeds r q ∧
      Pivoting.negligible x = (Pivoting.exact t).negligible r ∧
      Pivoting.isZero x = (Pivoting.exact t).isZero r := by
  have hexceeds := (Binary64.exceeds_iff hx hy).trans decide_eq_true_iff.symm
  have hnegligible := (Binary64.negligible_iff ht hpos hx).trans decide_eq_true_iff.symm
  have hzero := (Binary64.isZero_iff hx).trans decide_eq_true_iff.symm
  exact ⟨Bool.eq_iff_iff.mpr hexceeds, Bool.eq_iff_iff.mpr hnegligible, Bool.eq_iff_iff.mpr hzero⟩

namespace DenseMatrix

variable {n : Nat} {threshold : ℚ}

-- ---------------------------------------------------------------------------
-- Rounds
-- ---------------------------------------------------------------------------

/-- Brings a column to the identity's, on exact cells. -/
abbrev roundExactly (threshold : ℚ) (s : Reduction ℚ n) (col : Fin n) : Option (Reduction ℚ n) :=
  @reduceColumn ℚ n (.exact threshold) s col

/-- The rounds for some columns of a block of exact cells. -/
def reduceExactly (threshold : ℚ) (cells : Square ℚ n) (cols : List (Fin n)) :
    Option (Reduction ℚ n) :=
  cols.foldlM (roundExactly threshold) (@Square.start ℚ n (.exact threshold) cells)

/-- A row divided by its cell on the diagonal. -/
def PairedRows.unit (s : PairedRows ℚ n) (col : Fin n) : (Fin n → ℚ) × (Fin n → ℚ) :=
  ((s col).1 col)⁻¹ • s col

/-- Row `col` divided by its cell on the diagonal, and as much of it taken from the other rows as
they have in this column. -/
def PairedRows.swept (s : PairedRows ℚ n) (col : Fin n) : PairedRows ℚ n := fun r =>
  if r = col then s.unit col else s r - (s r).1 col • s.unit col

theorem scaled_exact (s : PairedRows ℚ n) (col : Fin n) :
    @PairedRows.scaled ℚ n (.exact threshold) s col = Function.update s col (s.unit col) := by
  have hrow : ∀ v : Fin n → ℚ, (fun k => v k / (s col).1 col) = ((s col).1 col)⁻¹ • v := by
    intro v
    funext k
    exact div_eq_inv_mul _ _
  exact congrArg (Function.update s col) (Prod.ext (hrow _) (hrow _))

/-- Leaving out the rows that need no clearing makes no difference. -/
theorem cleared_exact (s : PairedRows ℚ n) (col r : Fin n) :
    @PairedRows.cleared ℚ n (.exact threshold) s col r =
      if r = col then s r else s r - (s r).1 col • s col := by
  by_cases hr : r = col
  · rw [if_pos hr]
    exact if_pos (.inl hr)
  · rw [if_neg hr]
    by_cases hzero : (s r).1 col = 0
    · rw [hzero, zero_smul, sub_zero]
      exact if_pos (.inr (decide_eq_true hzero))
    · have hwork : ¬ (r = col ∨ decide ((s r).1 col = 0) = true) := by simp [hr, hzero]
      exact if_neg hwork

/-- A round that finds a pivot. -/
theorem exact_round (hpos : 0 < threshold) {s t : Reduction ℚ n} {col : Fin n}
    (h : roundExactly threshold s col = some t) :
    ∃ pivot, col ≤ pivot ∧ (s.rows pivot).1 col ≠ 0 ∧
      t.rows = PairedRows.swept (s.rows ∘ Equiv.swap pivot col) col := by
  let pivoting := Pivoting.exact threshold
  obtain ⟨hpivot, hrows⟩ := rows_of_reduceColumn h
  have hsize : threshold ≤ |(s.rows (pivotRow s.work col)).1 col| :=
    not_lt.mp (of_decide_eq_false hpivot)
  refine ⟨pivotRow s.work col, le_pivotRow s.work col, abs_pos.mp (hpos.trans_le hsize), ?_⟩
  funext r
  rw [hrows, cleared_exact, scaled_exact, Function.update_self, PairedRows.swept]
  by_cases hr : r = col
  · rw [if_pos hr, if_pos hr, hr, Function.update_self]
  · rw [if_neg hr, if_neg hr, Function.update_of_ne hr]

/-- The pivot is the cell of greatest magnitude from the diagonal down. -/
theorem abs_le_pivotRow (a : Square ℚ n) {col r : Fin n} (hr : col ≤ r) :
    |a.entries r col| ≤ |a.entries (@pivotRow ℚ n (.exact threshold) a col) col| := by
  let better (best r : Fin n) : Fin n :=
    if (Pivoting.exact threshold).exceeds (a.entries best col) (a.entries r col) then best else r
  have hbetter : ∀ best r, |a.entries best col| ≤ |a.entries (better best r) col| ∧
      |a.entries r col| ≤ |a.entries (better best r) col| := by
    intro best r
    by_cases hmore : |a.entries r col| < |a.entries best col|
    · have hbest : better best r = best := if_pos (decide_eq_true hmore)
      rw [hbest]
      exact ⟨le_rfl, hmore.le⟩
    · have hbest : better best r = r := if_neg (mt of_decide_eq_true hmore)
      rw [hbest]
      exact ⟨not_lt.mp hmore, le_rfl⟩
  have hloop : ∀ (rows : List (Fin n)) (best : Fin n), ∀ r ∈ best :: rows,
      |a.entries r col| ≤ |a.entries (rows.foldl better best) col| := by
    intro rows
    induction rows with
    | nil => simp
    | cons next rows ih =>
      intro best r hr
      rw [List.foldl_cons]
      have hfirst := ih (better best next) _ List.mem_cons_self
      rcases List.mem_cons.mp hr with rfl | hr
      · exact (hbetter r next).1.trans hfirst
      rcases List.mem_cons.mp hr with rfl | hr
      · exact (hbetter best r).2.trans hfirst
      · exact ih _ r (List.mem_cons_of_mem _ hr)
  apply hloop
  rcases hr.eq_or_lt with rfl | hlt
  · exact List.mem_cons_self
  · exact List.mem_cons_of_mem _ (List.mem_filter.mpr ⟨List.mem_finRange r, decide_eq_true hlt⟩)

/-- A round finds no pivot exactly if all its candidates are negligible. -/
theorem roundExactly_eq_none_iff {s : Reduction ℚ n} {col : Fin n} :
    roundExactly threshold s col = none ↔ ∀ r, col ≤ r → |s.work.entries r col| < threshold := by
  let pivoting := Pivoting.exact threshold
  rw [reduceColumn_eq_none_iff]
  constructor
  · intro hpivot r hr
    exact (abs_le_pivotRow s.work hr).trans_lt (of_decide_eq_true hpivot)
  · intro hall
    exact decide_eq_true (hall _ (le_pivotRow s.work col))

-- ---------------------------------------------------------------------------
-- The reduction
-- ---------------------------------------------------------------------------

/-- How far the reduction of a matrix has come: the rows on the right combine those of the matrix
to the rows on the left, and the columns that are done are those of the identity. -/
structure Follows (A : Matrix (Fin n) (Fin n) ℚ) (done : List (Fin n)) (s : PairedRows ℚ n) :
    Prop where
  combined : ∀ r, (s r).1 = (s r).2 ᵥ* A
  reduced : ∀ c ∈ done, ∀ r, (s r).1 c = if r = c then 1 else 0

section

variable {A : Matrix (Fin n) (Fin n) ℚ} {done : List (Fin n)}

/-- The rows of the identity combine those of a matrix to themselves. -/
theorem follows_start (cells : Square ℚ n) : Follows (Matrix.of cells.entries) []
    (@Square.start ℚ n (.exact threshold) cells).rows where
  combined r := by
    have hrow : (@Square.start ℚ n (.exact threshold) cells).inverse.entries r =
        (1 : Matrix (Fin n) (Fin n) ℚ) r := by
      funext c
      rw [Matrix.one_apply]
      exact entry_ofFn n n (fun i j => if i = j then 1 else 0) r c
    show cells.entries r = Square.entries _ r ᵥ* Matrix.of cells.entries
    rw [hrow, ← Matrix.mul_apply_eq_vecMul, one_mul]
    rfl
  reduced := by simp

/-- Rows that are not done can be exchanged. -/
theorem Follows.swap {s : PairedRows ℚ n} (h : Follows A done s) {i j : Fin n} (hi : i ∉ done)
    (hj : j ∉ done) : Follows A done (s ∘ Equiv.swap i j) where
  combined r := h.combined _
  reduced c hc r := by
    have hfixed : Equiv.swap i j c = c :=
      Equiv.swap_apply_of_ne_of_ne (ne_of_mem_of_not_mem hc hi) (ne_of_mem_of_not_mem hc hj)
    have hsame : Equiv.swap i j r = c ↔ r = c := by rw [Equiv.swap_apply_eq_iff, hfixed]
    simp only [Function.comp_apply, h.reduced c hc, hsame]

/-- Sweeping with a row that is not done leaves the columns that are, and does its own. -/
theorem Follows.swept {s : PairedRows ℚ n} (h : Follows A done s) {col : Fin n}
    (hcol : col ∉ done) (hcell : (s col).1 col ≠ 0) : Follows A (done ++ [col]) (s.swept col) where
  combined r := by
    have hunit : (s.unit col).1 = (s.unit col).2 ᵥ* A := by
      rw [PairedRows.unit, Prod.smul_fst, Prod.smul_snd, Matrix.smul_vecMul, h.combined]
    by_cases hr : r = col
    · rw [PairedRows.swept, if_pos hr, hunit]
    · rw [PairedRows.swept, if_neg hr, Prod.fst_sub, Prod.snd_sub, Prod.smul_fst, Prod.smul_snd,
        Matrix.sub_vecMul, Matrix.smul_vecMul, ← hunit, h.combined]
  reduced c hc r := by
    have hentry : (s.swept col r).1 c =
        if r = col then (s.unit col).1 c else (s r).1 c - (s r).1 col * (s.unit col).1 c := by
      rw [PairedRows.swept]
      split <;> rfl
    rw [hentry]
    rcases List.mem_append.mp hc with hc | hc
    · -- the row has nothing in the columns that are done
      have hne : col ≠ c := (ne_of_mem_of_not_mem hc hcol).symm
      have hzero : (s.unit col).1 c = 0 := by
        show _ * (s col).1 c = 0
        rw [h.reduced c hc, if_neg hne, mul_zero]
      rw [hzero, mul_zero, sub_zero, h.reduced c hc]
      by_cases hr : r = col
      · rw [if_pos hr, hr, if_neg hne]
      · rw [if_neg hr]
    · obtain rfl := List.mem_singleton.mp hc
      have hdiagonal : (s.unit c).1 c = 1 := inv_mul_cancel₀ hcell
      rw [hdiagonal, mul_one, sub_self]

/-- **A round keeps what the reduction has reached,** and does its column. -/
theorem follows_round (hpos : 0 < threshold) {s t : Reduction ℚ n} {col : Fin n}
    (hs : Follows A done s.rows) (hdone : ∀ c ∈ done, c < col)
    (h : roundExactly threshold s col = some t) : Follows A (done ++ [col]) t.rows := by
  obtain ⟨pivot, hle, hcell, hrows⟩ := exact_round hpos h
  have hcol : col ∉ done := fun hmem => lt_irrefl col (hdone col hmem)
  have hpivot : pivot ∉ done := fun hmem => (hdone pivot hmem).not_ge hle
  rw [hrows]
  apply (hs.swap hpivot hcol).swept hcol
  rwa [Function.comp_apply, Equiv.swap_apply_right]

/-- Rounds from left to right do all their columns. -/
theorem follows_rounds (hpos : 0 < threshold) {cols : List (Fin n)} {s t : Reduction ℚ n}
    (hs : Follows A done s.rows) (hcols : (done ++ cols).Pairwise (· < ·))
    (h : cols.foldlM (roundExactly threshold) s = some t) : Follows A (done ++ cols) t.rows := by
  induction cols generalizing done s with
  | nil =>
    obtain rfl : s = t := Option.some.inj h
    rwa [List.append_nil]
  | cons col cols ih =>
    rw [List.foldlM_cons] at h
    obtain ⟨u, hu, h⟩ := Option.bind_eq_some_iff.mp h
    have hdone : ∀ c ∈ done, c < col :=
      fun c hc => (List.pairwise_append.mp hcols).2.2 c hc col List.mem_cons_self
    rw [List.append_cons] at hcols ⊢
    exact ih (follows_round hpos hs hdone hu) hcols h

end

/-- **What the reduction ends with inverts the matrix.** -/
theorem inverse_mul (hpos : 0 < threshold) {cells : Square ℚ n} {t : Reduction ℚ n}
    (h : reduceExactly threshold cells (List.finRange n) = some t) :
    Matrix.of t.inverse.entries * Matrix.of cells.entries = 1 := by
  have hend := follows_rounds hpos (follows_start cells) (List.pairwise_lt_finRange n) h
  ext r c
  rw [Matrix.mul_apply_eq_vecMul, Matrix.one_apply, ← hend.reduced c (List.mem_finRange c) r,
    hend.combined]
  rfl

/-- Rounds that come to no end: one of them fails after those before it. -/
theorem foldlM_eq_none_iff {σ ι : Type} {step : σ → ι → Option σ} {s : σ} {l : List ι} :
    l.foldlM step s = none ↔ ∃ before x after u, l = before ++ x :: after ∧
      before.foldlM step s = some u ∧ step u x = none := by
  constructor
  · intro h
    induction l generalizing s with
    | nil => cases h
    | cons x l ih =>
      rw [List.foldlM_cons] at h
      rcases hx : step s x with _ | u
      · exact ⟨[], x, l, s, rfl, rfl, hx⟩
      · rw [hx] at h
        obtain ⟨before, y, after, w, rfl, hbefore, hy⟩ := ih h
        refine ⟨x :: before, y, after, w, rfl, ?_, hy⟩
        rw [List.foldlM_cons, hx]
        exact hbefore
  · rintro ⟨before, x, after, u, rfl, hbefore, hx⟩
    rw [List.foldlM_append, hbefore]
    show ((x :: after).foldlM step u) = none
    rw [List.foldlM_cons, hx]
    rfl

-- ---------------------------------------------------------------------------
-- Matrices
-- ---------------------------------------------------------------------------

theorem multiply?_square (a b : Square ℚ n) :
    (DenseMatrix.mk n n a).multiply? (DenseMatrix.mk n n b) =
      some (ofFn n n (Matrix.of a.entries * Matrix.of b.entries)) := by
  rw [multiply?, dif_pos rfl]
  congr 2
  funext i j
  rw [dot, Matrix.mul_apply, Fin.sum_univ_def, List.sum_eq_foldl, List.foldl_map]
  rfl

theorem multiply?_of_mul_eq_one {a b : Square ℚ n}
    (h : Matrix.of a.entries * Matrix.of b.entries = 1) :
    (DenseMatrix.mk n n a).multiply? (DenseMatrix.mk n n b) = some (identity n) := by
  rw [multiply?_square, h]
  rfl

/-- Inverts a matrix of exact cells. -/
def invertExactly (threshold : ℚ) (m : DenseMatrix ℚ) : Inversion ℚ :=
  @invert ℚ (.exact threshold) m

theorem invertExactly_square (cells : Square ℚ n) :
    (DenseMatrix.mk n n cells).invertExactly threshold =
      (reduceExactly threshold cells (List.finRange n)).elim .singular fun t =>
        .inverse ⟨n, n, t.inverse⟩ :=
  @invert_square ℚ n (.exact threshold) cells

theorem inverse_of_invertExactly {cells : Square ℚ n} {b : DenseMatrix ℚ}
    (h : (DenseMatrix.mk n n cells).invertExactly threshold = .inverse b) :
    ∃ t, reduceExactly threshold cells (List.finRange n) = some t ∧ b = ⟨n, n, t.inverse⟩ := by
  rw [invertExactly_square] at h
  rcases hrounds : reduceExactly threshold cells (List.finRange n) with _ | t
  · rw [hrounds] at h
    cases h
  · rw [hrounds] at h
    exact ⟨t, rfl, (Inversion.inverse.inj h).symm⟩

theorem singular_iff {cells : Square ℚ n} :
    (DenseMatrix.mk n n cells).invertExactly threshold = .singular ↔
      reduceExactly threshold cells (List.finRange n) = none := by
  rw [invertExactly_square]
  rcases reduceExactly threshold cells (List.finRange n) with _ | t
  · exact iff_of_true rfl rfl
  · exact iff_of_false (by simp) (Option.some_ne_none t)

/-- The reduction of a block gets stuck: it comes to a column where all cells from the diagonal
down are negligible. -/
def Stuck (threshold : ℚ) (cells : Square ℚ n) : Prop :=
  ∃ before col after s, List.finRange n = before ++ col :: after ∧
    reduceExactly threshold cells before = some s ∧
    ∀ r, col ≤ r → |s.work.entries r col| < threshold

theorem singular_iff_stuck {cells : Square ℚ n} :
    (DenseMatrix.mk n n cells).invertExactly threshold = .singular ↔ Stuck threshold cells := by
  rw [singular_iff, reduceExactly, foldlM_eq_none_iff]
  simp only [roundExactly_eq_none_iff]
  rfl

/-- An inverse of a matrix inverts it from both sides. -/
theorem multiply?_inverse (hpos : 0 < threshold) {a b : DenseMatrix ℚ}
    (h : a.invertExactly threshold = .inverse b) :
    a.multiply? b = some (identity a.rows) ∧ b.multiply? a = some (identity a.rows) := by
  obtain ⟨r, c, cells⟩ := a
  obtain rfl : r = c := (@shape_of_invert ℚ (.exact threshold) _ _ h).1
  obtain ⟨t, hrounds, rfl⟩ := inverse_of_invertExactly h
  have hleft := inverse_mul hpos hrounds
  exact ⟨multiply?_of_mul_eq_one (mul_eq_one_comm.mp hleft), multiply?_of_mul_eq_one hleft⟩

/-- A singular matrix has no inverse. -/
theorem singular_of_det_eq_zero (hpos : 0 < threshold) {cells : Square ℚ n}
    (hdet : (Matrix.of cells.entries).det = 0) :
    (DenseMatrix.mk n n cells).invertExactly threshold = .singular := by
  rw [singular_iff, Option.eq_none_iff_forall_ne_some]
  intro t hrounds
  have hone := congrArg Matrix.det (inverse_mul hpos hrounds)
  rw [Matrix.det_mul, hdet, mul_zero, Matrix.det_one] at hone
  exact zero_ne_one hone

end DenseMatrix

-- ---------------------------------------------------------------------------
-- Stores
-- ---------------------------------------------------------------------------

namespace RowMajor

/-- Inverts a matrix of exact cells in one array. -/
def invertExactly (threshold : ℚ) (m : RowMajor ℚ) : Except Trouble (RowMajor ℚ) :=
  @invert ℚ (.exact threshold) m

/-- The square matrix in a store. -/
def square (m : RowMajor ℚ) : Matrix (Fin m.rows) (Fin m.rows) ℚ :=
  Matrix.of fun i j => m.data.getD (i * m.rows + j) 0

/-- What inverting gives for a store. -/
structure Inverts (threshold : ℚ) (a : RowMajor ℚ) : Prop where
  product : ∀ b, a.invertExactly threshold = .ok b → ∃ one, identity a.rows = .ok one ∧
    a.multiply b = .ok one ∧ b.multiply a = .ok one
  singular : a.rows = a.cols → a.square.det = 0 →
    a.invertExactly threshold = .error (.refused .singular)

theorem invertExactly_flat (threshold : ℚ) (m : DenseMatrix ℚ) :
    m.flat.invertExactly threshold = inverted m (m.invertExactly threshold) :=
  @invert_flat ℚ (.exact threshold) m

theorem square_flat {n : Nat} (cells : DenseMatrix.Square ℚ n) :
    (DenseMatrix.mk n n cells).flat.square = Matrix.of cells.entries := by
  ext i j
  show Array.getD (layout (DenseMatrix.mk n n cells).cell) (i * n + j) 0 = _
  rw [Array.getD_eq_getD_getElem?, getElem?_layout (DenseMatrix.mk n n cells).cell (i, j)]
  rfl

theorem inverts_flat {threshold : ℚ} (hpos : 0 < threshold) (m : DenseMatrix ℚ) :
    Inverts threshold m.flat where
  product b hb := by
    rw [invertExactly_flat] at hb
    cases hinverse : m.invertExactly threshold with
    | inverse b' =>
      rw [hinverse] at hb
      obtain rfl : b'.flat = b := Except.ok.inj hb
      obtain ⟨hright, hleft⟩ := DenseMatrix.multiply?_inverse hpos hinverse
      refine ⟨_, identity_flat m.rows, ?_, ?_⟩
      · rw [multiply_flat, hright, Option.elim]
      · rw [multiply_flat, hleft, Option.elim]
    | notSquare =>
      rw [hinverse] at hb
      cases hb
    | singular =>
      rw [hinverse] at hb
      cases hb
  singular hshape hdet := by
    obtain ⟨r, c, cells⟩ := m
    obtain rfl : r = c := hshape
    rw [square_flat] at hdet
    rw [invertExactly_flat, DenseMatrix.singular_of_det_eq_zero hpos hdet]
    rfl

end RowMajor

open DenseMatrix

/-- **Inverting is correct on exact cells.** With rationals for cells and any positive threshold for
a pivot:
* an inverse that is found gives the identity when the matrix is multiplied with it, on either
  side;
* a matrix is refused as singular exactly if its reduction comes to a column where all cells from
  the diagonal down are below the threshold, and all matrices of determinant zero are;
* the loops over row-major storage do the same, for all stores that are full.

The threshold of the program is positive, and on numbers that are rationals the three tests of
elimination are those on the rationals. -/
theorem inverse_two_sided :
    (∀ threshold : ℚ, 0 < threshold →
      (∀ a b : DenseMatrix ℚ, a.invertExactly threshold = .inverse b →
        a.multiply? b = some (identity a.rows) ∧ b.multiply? a = some (identity a.rows)) ∧
      (∀ n (cells : Square ℚ n),
        ((DenseMatrix.mk n n cells).invertExactly threshold = .singular ↔ Stuck threshold cells) ∧
        ((Matrix.of cells.entries).det = 0 →
          (DenseMatrix.mk n n cells).invertExactly threshold = .singular)) ∧
      ∀ a : RowMajor ℚ, a.data.size = a.rows * a.cols → a.Inverts threshold) ∧
    ∃ t, singularityThreshold.rational? = some t ∧ 0 < t ∧
      ∀ (x y : Binary64) (r q : ℚ), x.rational? = some r → y.rational? = some q →
        Pivoting.exceeds x y = (Pivoting.exact t).exceeds r q ∧
        Pivoting.negligible x = (Pivoting.exact t).negligible r ∧
        Pivoting.isZero x = (Pivoting.exact t).isZero r := by
  constructor
  · intro threshold hpos
    refine ⟨fun a b => multiply?_inverse hpos, ?_, ?_⟩
    · intro n cells
      exact ⟨singular_iff_stuck, singular_of_det_eq_zero hpos⟩
    · intro a hsize
      obtain ⟨m, rfl⟩ := RowMajor.exists_flat hsize
      exact RowMajor.inverts_flat hpos m
  · obtain ⟨t, ht, hpos⟩ := Binary64.exists_threshold
    exact ⟨t, ht, hpos, fun x y r q => exact_tests ht hpos⟩

/-- A matrix whose rows have to be exchanged to be inverted, and one of determinant zero. -/
theorem inverse_two_sided_exchanged :
    let a : Square ℚ 3 := #v[#v[0, 2, 1], #v[1, 0, 0], #v[3, 1, 1]]
    let c : Square ℚ 2 := #v[#v[1, 2], #v[2, 4]]
    (∃ b, (DenseMatrix.mk 3 3 a).invertExactly 1e-12 = .inverse b ∧
      (DenseMatrix.mk 3 3 a).multiply? b = some (identity 3) ∧
      b.multiply? (DenseMatrix.mk 3 3 a) = some (identity 3)) ∧
    (Matrix.of c.entries).det = 0 ∧
      (DenseMatrix.mk 2 2 c).invertExactly 1e-12 = .singular := by
  intro a c
  obtain ⟨hinverse, hsingular, -⟩ := inverse_two_sided.1 1e-12 (by norm_num)
  have hrounds : (reduceExactly 1e-12 a (List.finRange 3)).isSome = true := by decide +kernel
  obtain ⟨t, ht⟩ := Option.isSome_iff_exists.mp hrounds
  have hfound : (DenseMatrix.mk 3 3 a).invertExactly 1e-12 = .inverse ⟨3, 3, t.inverse⟩ := by
    rw [invertExactly_square, ht, Option.elim]
  have hdet : (Matrix.of c.entries).det = 0 := by
    rw [Matrix.det_fin_two]
    decide +kernel
  exact ⟨⟨_, hfound, hinverse _ _ hfound⟩, hdet, (hsingular 2 c).2 hdet⟩

end SeqScript
