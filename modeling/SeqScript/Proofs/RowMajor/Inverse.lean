import Mathlib
import SeqScript.Proofs.Elimination
import SeqScript.Proofs.RowMajor

/-!
# Elimination in row-major storage

Inverting a matrix works on two stores at once, the one that is reduced and the one that follows
it. Here it is written out as loops over single places of both, with every access checked as in
`RowMajor`. `stores` are the two stores of paired rows; on them each loop does what the row
operation of the same name does to the rows (`swapRows_stores`, `divideRow_stores`,
`clearRows_stores`). So reducing a column does what `DenseMatrix.reduceColumn` does
(`reduceColumn_stores`), and inverting what `DenseMatrix.invert` does (`invert_flat`).
-/

namespace SeqScript

open DenseMatrix (PairedRows)

variable {α : Type} {n : Nat}

-- ---------------------------------------------------------------------------
-- Operations
-- ---------------------------------------------------------------------------

/-- The same change in two stores. -/
def Store.both (change : Array α → Except Trouble (Array α)) (s : Array α × Array α) :
    Except Trouble (Array α × Array α) := do
  let work ← change s.1
  let inverse ← change s.2
  return (work, inverse)

namespace RowMajor

variable [Pivoting α]

/-- The row, from `col` down, with the cell of greatest magnitude in column `col`; the lowest of
equal ones. -/
def pivotRow (work : Array α) (col : Fin n) : Except Trouble (Fin n) :=
  ((List.finRange n).filter fun r => col < r).foldlM (fun (best r : Fin n) => do
    let x ← Store.fetch work (best * n + col)
    let y ← Store.fetch work (r * n + col)
    return if Pivoting.exceeds x y then best else r) col

/-- Two rows exchanged. -/
def swapRows (i j : Fin n) (s : Array α × Array α) : Except Trouble (Array α × Array α) :=
  (List.finRange n).foldlM (fun s (k : Fin n) =>
    Store.both (fun data => Store.exchange data (i * n + k) (j * n + k)) s) s

/-- A row brought to the place of another, unless it is there. -/
def bringRow (i j : Fin n) (s : Array α × Array α) : Except Trouble (Array α × Array α) :=
  if i ≠ j then swapRows i j s else .ok s

/-- One row divided by a cell. -/
def divideRow (i : Fin n) (p : α) (s : Array α × Array α) : Except Trouble (Array α × Array α) :=
  (List.finRange n).foldlM (fun s (k : Fin n) =>
    Store.both (fun data => do
      let x ← Store.fetch data (i * n + k)
      Store.write data (i * n + k) (x / p)) s) s

/-- A multiple of row `col` taken away from row `r`. -/
def subtractRow (factor : α) (col r : Fin n) (s : Array α × Array α) :
    Except Trouble (Array α × Array α) :=
  (List.finRange n).foldlM (fun s (k : Fin n) =>
    Store.both (fun data => do
      let x ← Store.fetch data (r * n + k)
      let y ← Store.fetch data (col * n + k)
      Store.write data (r * n + k) (x - factor * y)) s) s

/-- A multiple of row `col` taken away from row `r` so as to clear its cell in column `col`. -/
def clearRow (col : Fin n) (s : Array α × Array α) (r : Fin n) :
    Except Trouble (Array α × Array α) :=
  if r = col then .ok s
  else do
    let factor ← Store.fetch s.1 (r * n + col)
    if Pivoting.isZero factor then .ok s else subtractRow factor col r s

/-- Brings column `col` to the identity's, or finds no pivot for it. -/
def reduceColumn (s : Array α × Array α) (col : Fin n) : Except Trouble (Array α × Array α) := do
  let pivot ← pivotRow s.1 col
  let x ← Store.fetch s.1 (pivot * n + col)
  if Pivoting.negligible x then .error (.refused .singular)
  else
    let s ← bringRow pivot col s
    let p ← Store.fetch s.1 (col * n + col)
    let s ← divideRow col p s
    (List.finRange n).foldlM (clearRow col) s

/-- The inverse. -/
def invert (m : RowMajor α) : Except Trouble (RowMajor α) :=
  if m.rows ≠ m.cols then
    .error (.refused (.badShape .invert m.rows m.rows m.rows m.cols))
  else do
    let start ← identity m.rows
    let s ← (List.finRange m.rows).foldlM reduceColumn (m.data, start.data)
    return ⟨m.rows, m.rows, s.2⟩

end RowMajor

-- ---------------------------------------------------------------------------
-- Two stores by rows
-- ---------------------------------------------------------------------------

/-- The two stores of given rows. -/
def stores (s : PairedRows α n) : Array α × Array α :=
  (layout fun p => (s p.1).1 p.2, layout fun p => (s p.1).2 p.2)

theorem both_layout {change : Array α → Except Trouble (Array α)}
    {t : (Fin n × Fin n → α) → Fin n × Fin n → α}
    (hchange : ∀ f, change (layout f) = .ok (layout (t f))) (f g : Fin n × Fin n → α) :
    Store.both change (layout f, layout g) = .ok (layout (t f), layout (t g)) := by
  simp only [Store.both, hchange, bind, Except.bind]
  rfl

/-- Loops that make the same changes in two stores. -/
theorem foldlM_both {ι : Type} {change : ι → Array α → Except Trouble (Array α)}
    {t : (Fin n × Fin n → α) → ι → Fin n × Fin n → α}
    (hchange : ∀ f x, change x (layout f) = .ok (layout (t f x))) (l : List ι)
    (f g : Fin n × Fin n → α) :
    l.foldlM (fun s x => Store.both (change x) s) (layout f, layout g) =
      .ok (layout (l.foldl t f), layout (l.foldl t g)) := by
  induction l generalizing f g with
  | nil => rfl
  | cons x l ih =>
    rw [List.foldlM_cons, both_layout fun f => hchange f x]
    exact ih _ _

/-- A loop along a row that changes its cells one by one, looking only at the cell itself and at
rows other than this one. -/
theorem foldl_along_row (i : Fin n) (g : (Fin n × Fin n → α) → Fin n × Fin n → α)
    (hlocal : ∀ f f' p, f p = f' p → Set.EqOn f f' {q | q.1 ≠ i} → g f p = g f' p)
    (f : Fin n × Fin n → α) :
    (List.finRange n).foldl (fun f k => Function.update f (i, k) (g f (i, k))) f =
      fun p => if p.1 = i then g f p else f p := by
  have hnodup : ((List.finRange n).map fun k => (i, k)).Nodup :=
    (List.nodup_finRange n).map fun k l h => (Prod.mk.inj h).2
  have hloop := foldl_update g {q | q.1 ≠ i} hlocal (by simp) hnodup f
  rw [List.foldl_map] at hloop
  rw [hloop]
  funext p
  simp [Prod.ext_iff, eq_comm]

theorem swap_cell (i j k : Fin n) (p : Fin n × Fin n) :
    Equiv.swap (i, k) (j, k) p = if p.2 = k then (Equiv.swap i j p.1, p.2) else p := by
  obtain ⟨r, l⟩ := p
  by_cases hl : l = k
  · subst hl
    simp only [Equiv.swap_apply_def, Prod.mk.injEq, and_true, if_true]
    split_ifs <;> rfl
  · have hi : (r, l) ≠ (i, k) := fun h => hl (Prod.mk.inj h).2
    have hj : (r, l) ≠ (j, k) := fun h => hl (Prod.mk.inj h).2
    rw [Equiv.swap_apply_of_ne_of_ne hi hj, if_neg hl]

/-- A loop along two rows that exchanges their cells one by one. -/
theorem foldl_swap_cells (i j : Fin n) (f : Fin n × Fin n → α) :
    (List.finRange n).foldl (fun f k => f ∘ Equiv.swap (i, k) (j, k)) f =
      fun p => f (Equiv.swap i j p.1, p.2) := by
  have hloop : ∀ l : List (Fin n), l.Nodup → ∀ f : Fin n × Fin n → α,
      l.foldl (fun f k => f ∘ Equiv.swap (i, k) (j, k)) f =
        fun p => if p.2 ∈ l then f (Equiv.swap i j p.1, p.2) else f p := by
    intro l hl
    induction l with
    | nil => simp
    | cons k l ih =>
      obtain ⟨hk, hl⟩ := List.nodup_cons.mp hl
      intro f
      rw [List.foldl_cons, ih hl]
      funext p
      by_cases hp : p.2 = k
      · simp [swap_cell, hp, hk]
      · simp [swap_cell, hp]
  rw [hloop _ (List.nodup_finRange n)]
  simp

/-- The stores of rows with one of them changed. -/
theorem stores_update (s : PairedRows α n) (i : Fin n) (x y : Fin n × Fin n → α) :
    stores (Function.update s i (fun k => x (i, k), fun k => y (i, k))) =
      (layout fun p => if p.1 = i then x p else (s p.1).1 p.2,
        layout fun p => if p.1 = i then y p else (s p.1).2 p.2) := by
  rw [stores]
  congr 2
  all_goals
    funext p
    by_cases hp : p.1 = i
    · subst hp
      simp
    · simp [hp]

namespace RowMajor

theorem swapRows_stores (s : PairedRows α n) (i j : Fin n) :
    swapRows i j (stores s) = .ok (stores (s ∘ Equiv.swap i j)) := by
  rw [swapRows, stores, foldlM_both fun f k => exchange_layout f i j k k, foldl_swap_cells,
    foldl_swap_cells]
  rfl

theorem bringRow_stores (s : PairedRows α n) (i j : Fin n) :
    bringRow i j (stores s) = .ok (stores (s ∘ Equiv.swap i j)) := by
  rw [bringRow]
  by_cases hij : i = j
  · rw [if_neg (Classical.not_not.mpr hij), hij, Equiv.swap_self]
    rfl
  · rw [if_pos hij, swapRows_stores]

variable [Pivoting α] (s : PairedRows α n)

theorem divideRow_stores (i : Fin n) (p : α) :
    divideRow i p (stores s) =
      .ok (stores (Function.update s i (fun k => (s i).1 k / p, fun k => (s i).2 k / p))) := by
  have hcell : ∀ (f : Fin n × Fin n → α) (k : Fin n),
      (do let x ← Store.fetch (layout f) (i * n + k)
          Store.write (layout f) (i * n + k) (x / p)) =
        .ok (layout (Function.update f (i, k) (f (i, k) / p))) := by
    intro f k
    rw [bind_eq_of_ok (fetch_layout f i k), write_layout]
  have hrow := foldl_along_row i (fun f q => f q / p) (by simp +contextual)
  rw [divideRow, stores, foldlM_both hcell, hrow, hrow,
    stores_update s i (fun q => (s q.1).1 q.2 / p) fun q => (s q.1).2 q.2 / p]

theorem subtractRow_stores (factor : α) {col r : Fin n} (hr : r ≠ col) :
    subtractRow factor col r (stores s) = .ok (stores (Function.update s r
      (fun k => (s r).1 k - factor * (s col).1 k, fun k => (s r).2 k - factor * (s col).2 k))) := by
  have hcell : ∀ (f : Fin n × Fin n → α) (k : Fin n),
      (do let x ← Store.fetch (layout f) (r * n + k)
          let y ← Store.fetch (layout f) (col * n + k)
          Store.write (layout f) (r * n + k) (x - factor * y)) =
        .ok (layout (Function.update f (r, k) (f (r, k) - factor * f (col, k)))) := by
    intro f k
    rw [bind_eq_of_ok (fetch_layout f r k), bind_eq_of_ok (fetch_layout f col k), write_layout]
  have hrow := foldl_along_row r (fun f q => f q - factor * f (col, q.2)) (by
    intro f f' q hq hother
    rw [hq, hother (x := (col, q.2)) hr.symm])
  rw [subtractRow, stores, foldlM_both hcell, hrow, hrow,
    stores_update s r (fun q => (s q.1).1 q.2 - factor * (s col).1 q.2)
      fun q => (s q.1).2 q.2 - factor * (s col).2 q.2]

/-- Clearing a row looks at this row and at row `col`, and changes nothing but this row. -/
theorem clearRow_stores (col r : Fin n) :
    clearRow col (stores s) r = .ok (stores (Function.update s r (s.cleared col r))) := by
  have hkept : s r = s.cleared col r →
      stores s = stores (Function.update s r (s.cleared col r)) := by
    intro h
    rw [← h, Function.update_eq_self]
  have hfactor : Store.fetch (stores s).1 (r * n + col) = .ok ((s r).1 col) := fetch_layout _ r col
  rw [clearRow]
  by_cases hr : r = col
  · rw [if_pos hr, ← hkept (if_pos (.inl hr)).symm]
  · rw [if_neg hr, bind_eq_of_ok hfactor]
    by_cases hzero : Pivoting.isZero ((s r).1 col) = true
    · rw [if_pos hzero, ← hkept (if_pos (.inr hzero)).symm]
    · rw [if_neg hzero, subtractRow_stores s _ hr, PairedRows.cleared, if_neg (by tauto)]

theorem clearRows_stores (col : Fin n) :
    (List.finRange n).foldlM (clearRow col) (stores s) = .ok (stores (s.cleared col)) := by
  have hrounds : (List.finRange n).foldl
      (fun (s : PairedRows α n) r => Function.update s r (s.cleared col r)) s = s.cleared col := by
    rw [foldl_update (fun s : PairedRows α n => s.cleared col) {col} ?_ ?_ (List.nodup_finRange n)]
    · funext r
      exact if_pos (List.mem_finRange r)
    · intro s s' r hr hcol
      simp only [PairedRows.cleared, hr, hcol (Set.mem_singleton col)]
    · rintro s r - rfl
      exact if_pos (.inl rfl)
  rw [foldlM_eq_ok stores (fun s r _ => clearRow_stores s col r), hrounds]

end RowMajor

-- ---------------------------------------------------------------------------
-- Reduction
-- ---------------------------------------------------------------------------

namespace RowMajor

variable [Pivoting α] (s : DenseMatrix.Reduction α n) (col : Fin n)

theorem pivotRow_stores :
    pivotRow (stores s.rows).1 col = .ok (DenseMatrix.pivotRow s.work col) := by
  rw [pivotRow, DenseMatrix.pivotRow]
  apply foldlM_eq_ok id
  intro best r _
  have hfetch : ∀ i : Fin n, Store.fetch (stores s.rows).1 (i * n + col) = .ok s.work[i][col] :=
    fun i => fetch_layout _ i col
  rw [id, bind_eq_of_ok (hfetch best), bind_eq_of_ok (hfetch r)]
  rfl

theorem reduceColumn_stores : reduceColumn (stores s.rows) col =
    (DenseMatrix.reduceColumn s col).elim (.error (.refused .singular)) fun t =>
      .ok (stores t.rows) := by
  have hfetch : ∀ (rows : PairedRows α n) (i : Fin n),
      Store.fetch (stores rows).1 (i * n + col) = .ok ((rows i).1 col) :=
    fun rows i => fetch_layout _ i col
  rw [reduceColumn, bind_eq_of_ok (pivotRow_stores s col), bind_eq_of_ok (hfetch ..)]
  cases hpivot : Pivoting.negligible ((s.rows (DenseMatrix.pivotRow s.work col)).1 col) with
  | true =>
    have hnone : DenseMatrix.reduceColumn s col = none := if_pos hpivot
    rw [hnone, if_pos rfl, Option.elim]
  | false =>
    obtain ⟨t, ht, hrows⟩ := DenseMatrix.reduceColumn_eq_some s col hpivot
    rw [ht, if_neg Bool.false_ne_true, bind_eq_of_ok (bringRow_stores ..),
      bind_eq_of_ok (hfetch ..), bind_eq_of_ok (divideRow_stores ..), Option.elim, hrows,
      ← clearRows_stores, PairedRows.scaled]

/-- A whole reduction. -/
theorem foldlM_reduceColumn (l : List (Fin n)) : l.foldlM reduceColumn (stores s.rows) =
    (l.foldlM DenseMatrix.reduceColumn s).elim (.error (.refused .singular)) fun t =>
      .ok (stores t.rows) := by
  induction l generalizing s with
  | nil => rfl
  | cons col l ih =>
    rw [List.foldlM_cons, List.foldlM_cons, reduceColumn_stores]
    cases DenseMatrix.reduceColumn s col with
    | none => rfl
    | some t => exact ih t

/-- What inverting gives, with the inverse in one array. -/
def inverted (m : DenseMatrix α) : DenseMatrix.Inversion α → Except Trouble (RowMajor α)
  | .inverse b => .ok b.flat
  | .notSquare => .error (.refused (.badShape .invert m.rows m.rows m.rows m.cols))
  | .singular => .error (.refused .singular)

omit s col in
theorem invert_flat (m : DenseMatrix α) : m.flat.invert = inverted m m.invert := by
  obtain ⟨r, c, cells⟩ := m
  by_cases hsquare : r = c
  · subst hsquare
    have hshape : ¬ ((DenseMatrix.mk r r cells).flat.rows ≠ (DenseMatrix.mk r r cells).flat.cols) :=
      Classical.not_not.mpr rfl
    let start := DenseMatrix.Square.start cells
    rw [DenseMatrix.invert_square, invert, if_neg hshape, bind_eq_of_ok (identity_flat _)]
    show ((List.finRange r).foldlM reduceColumn (stores start.rows) >>= _) = _
    rw [foldlM_reduceColumn]
    show _ = inverted _ (((List.finRange r).foldlM DenseMatrix.reduceColumn start).elim _ _)
    cases (List.finRange r).foldlM DenseMatrix.reduceColumn start <;> rfl
  · rw [DenseMatrix.invert_of_ne hsquare]
    exact if_pos hsquare

end RowMajor

end SeqScript
