import Mathlib
import SeqScript.Eval.Collection
import SeqScript.Proofs.Cells
import SeqScript.Proofs.Tables

/-!
# Matrices in row-major storage

A matrix can be kept in one array, row after row, with the cell in row `i` and column `j` at
`i * cols + j`. Here the operations on matrices are written out for such a store as loops over
rows and columns that read and write one place at a time. Every access is checked: one outside
the data ends the operation with `Trouble.outside`.

`layout` is the store of given cells. On it a read finds the cell (`fetch_layout`) and a write
changes that cell and no other (`write_layout`), so that loops on the store are loops on the cells
(`foldlM_eq_ok`); and a loop that changes each place at most once, looking at nothing else that
changes, changes them all at once (`foldl_update`). That the operations on stores
give the stores of the results, and never get outside, is one theorem each: `identity_flat`,
`add_flat`, `multiply_flat`, `transpose_flat`, `row_flat`, `text_flat`, `ofValue_eq`.
-/

namespace SeqScript

variable {α : Type}

-- ---------------------------------------------------------------------------
-- Checked access
-- ---------------------------------------------------------------------------

/-- Why an operation on stored cells ends without a result. -/
inductive Trouble where
  /-- A place outside the data was to be read or written. -/
  | outside
  /-- What the operation was given is refused. -/
  | refused (cause : Cause)

namespace Store

/-- The cell at a place. -/
def fetch (data : Array α) (k : Nat) : Except Trouble α :=
  match data[k]? with
  | some x => .ok x
  | none => .error .outside

/-- The store with another cell at a place. -/
def write (data : Array α) (k : Nat) (x : α) : Except Trouble (Array α) :=
  if k < data.size then .ok (data.setIfInBounds k x) else .error .outside

/-- The store with the cells at two places exchanged. -/
def exchange (data : Array α) (k l : Nat) : Except Trouble (Array α) := do
  let x ← fetch data k
  let y ← fetch data l
  write (← write data k y) l x

/-- The cells from one place up to another. -/
def slice (data : Array α) (start stop : Nat) : Except Trouble (List α) :=
  if start ≤ stop ∧ stop ≤ data.size then .ok ((data.toList.take stop).drop start)
  else .error .outside

end Store

-- ---------------------------------------------------------------------------
-- Operations
-- ---------------------------------------------------------------------------

/-- A matrix with its cells in one array. -/
structure RowMajor (α : Type) where
  rows : Nat
  cols : Nat
  data : Array α

namespace RowMajor

/-- The cell in row `i` and column `j`. -/
def cell (m : RowMajor α) (i j : Nat) : Except Trouble α := Store.fetch m.data (i * m.cols + j)

/-- Row `i`. -/
def row (m : RowMajor α) (i : Nat) : Except Trouble (List α) :=
  Store.slice m.data (i * m.cols) ((i + 1) * m.cols)

/-- One on the diagonal, zero elsewhere. -/
def identity [Zero α] [One α] (n : Nat) : Except Trouble (RowMajor α) := do
  let data ← (List.finRange n).foldlM
    (fun data (i : Fin n) => Store.write data (i * n + i) 1) (Array.replicate (n * n) 0)
  return ⟨n, n, data⟩

/-- The sum. -/
def add [Add α] (a b : RowMajor α) : Except Trouble (RowMajor α) :=
  if a.rows ≠ b.rows ∨ a.cols ≠ b.cols then
    .error (.refused (.badShape .add a.rows a.cols b.rows b.cols))
  else .ok ⟨a.rows, a.cols, a.data.zipWith (· + ·) b.data⟩

/-- One product added to the cell in row `i` and column `j` of the result. -/
def addProduct [Add α] [Mul α] (a b : RowMajor α) (i j k : Nat) (data : Array α) :
    Except Trouble (Array α) := do
  let x ← a.cell i k
  let y ← b.cell k j
  let sum ← Store.fetch data (i * b.cols + j)
  Store.write data (i * b.cols + j) (sum + x * y)

/-- The product: every cell starts as zero, and products are added to it in place. -/
def multiply [Zero α] [Add α] [Mul α] (a b : RowMajor α) : Except Trouble (RowMajor α) :=
  if a.cols ≠ b.rows then .error (.refused (.badShape .multiply a.cols b.cols b.rows b.cols))
  else do
    let data ← (List.finRange a.rows).foldlM (fun data (i : Fin a.rows) =>
      (List.finRange b.cols).foldlM (fun data (j : Fin b.cols) =>
        (List.finRange a.cols).foldlM (fun data (k : Fin a.cols) =>
          a.addProduct b i j k data) data) data)
      (Array.replicate (a.rows * b.cols) 0)
    return ⟨a.rows, b.cols, data⟩

/-- Rows and columns exchanged, column after column. -/
def transpose (m : RowMajor α) : Except Trouble (RowMajor α) := do
  let data ← (List.finRange m.cols).foldlM (fun data (j : Fin m.cols) =>
    (List.finRange m.rows).foldlM (fun data (i : Fin m.rows) => do
      let x ← m.cell i j
      return data.push x) data) #[]
  return ⟨m.cols, m.rows, data⟩

/-- A matrix as text, row by row. -/
def text (m : RowMajor Binary64) : Except Trouble String := do
  let rows ← (List.range m.rows).mapM m.row
  let line (row : List Binary64) := "[" ++ ", ".intercalate (row.map Binary64.text) ++ "]"
  return "[" ++ ", ".intercalate (rows.map line) ++ "]"

/-- A number put behind the data. -/
def pushNumber (data : Array Binary64) (v : Value) : Except Cause (Array Binary64) :=
  match v.number? with
  | some x => .ok (data.push x)
  | none => .error (.badEntry v.kind)

/-- A row put behind the data; the first one sets the width. -/
def pushRow (h : Heap) (s : Option Nat × Array Binary64) :
    Value → Except Cause (Option Nat × Array Binary64)
  | .seq _ id => do
    let items := (h.read id).toList
    let width := s.1.getD items.length
    if items.length ≠ width then .error (.ragged width items.length)
    else return (some width, ← items.foldlM pushNumber s.2)
  | v => .error (.badRow v.kind)

/-- A matrix, or a rectangular sequence of rows of numbers taken as one. -/
def ofValue (h : Heap) : Value → Except Cause (RowMajor Binary64)
  | .matrix m => .ok ⟨m.rows, m.cols, m.toRows.flatten.toArray⟩
  | .seq _ id => do
    match ← (h.read id).toList.foldlM (pushRow h) (none, #[]) with
    | (some cols, data) =>
      if 0 < cols then .ok ⟨(h.read id).size, cols, data⟩ else .error .emptyMatrix
    | (none, _) => .error .emptyMatrix
  | v => .error (.notMatrix v.kind)

end RowMajor

-- ---------------------------------------------------------------------------
-- Layout
-- ---------------------------------------------------------------------------

section

variable {r c : Nat} {f g : Fin r × Fin c → α}

/-- The store of given cells, row after row. -/
def layout (f : Fin r × Fin c → α) : Array α := Array.ofFn fun k => f (finProdFinEquiv.symm k)

theorem size_layout (f : Fin r × Fin c → α) : (layout f).size = r * c := Array.size_ofFn

/-- Where a cell is. -/
theorem place_eq (p : Fin r × Fin c) : p.1 * c + p.2 = (finProdFinEquiv p).val := by
  rw [finProdFinEquiv_apply_val]
  ac_rfl

theorem getElem?_layout (f : Fin r × Fin c → α) (p : Fin r × Fin c) :
    (layout f)[p.1 * c + p.2]? = some (f p) := by
  rw [place_eq, layout, Array.getElem?_ofFn, dif_pos (finProdFinEquiv p).isLt]
  simp only [Fin.eta, Equiv.symm_apply_apply]

/-- Different cells are at different places. -/
theorem place_inj {p q : Fin r × Fin c} : p.1 * c + p.2 = q.1 * c + q.2 ↔ p = q := by
  rw [place_eq, place_eq, Fin.val_inj, EmbeddingLike.apply_eq_iff_eq]

/-- A store of the right size is known by its cells. -/
theorem eq_layout {data : Array α} (hsize : data.size = r * c)
    (hcell : ∀ p : Fin r × Fin c, data[p.1 * c + p.2]? = some (f p)) : data = layout f := by
  apply Array.ext (by rw [hsize, size_layout])
  intro k hk hk'
  obtain ⟨p, hp⟩ := finProdFinEquiv.surjective ⟨k, hsize ▸ hk⟩
  obtain rfl : p.1 * c + p.2 = k := by rw [place_eq, hp]
  apply Option.some.inj
  rw [← Array.getElem?_eq_getElem, ← Array.getElem?_eq_getElem, hcell, getElem?_layout]

/-- A read finds the cell. -/
theorem fetch_layout (f : Fin r × Fin c → α) (i : Fin r) (j : Fin c) :
    Store.fetch (layout f) (i * c + j) = .ok (f (i, j)) := by
  rw [Store.fetch, getElem?_layout f (i, j)]

/-- A write changes the cell and no other. -/
theorem write_layout (f : Fin r × Fin c → α) (i : Fin r) (j : Fin c) (x : α) :
    Store.write (layout f) (i * c + j) x = .ok (layout (Function.update f (i, j) x)) := by
  have hlt : i * c + j < (layout f).size := by
    rw [place_eq (i, j), size_layout]
    exact (finProdFinEquiv (i, j)).isLt
  rw [Store.write, if_pos hlt]
  congr 1
  apply eq_layout
  · rw [Array.size_setIfInBounds, size_layout]
  · intro p
    rw [Array.getElem?_setIfInBounds, Function.update_apply]
    by_cases hp : p = (i, j)
    · rw [hp, if_pos rfl, if_pos rfl, if_pos hlt]
    · have hne : i * c + j ≠ p.1 * c + p.2 := fun heq => hp (place_inj.mp heq).symm
      rw [if_neg hne, if_neg hp, getElem?_layout]

/-- An exchange of two cells. -/
theorem exchange_layout (f : Fin r × Fin c → α) (i i' : Fin r) (j j' : Fin c) :
    Store.exchange (layout f) (i * c + j) (i' * c + j') =
      .ok (layout (f ∘ Equiv.swap (i, j) (i', j'))) := by
  rw [Store.exchange, fetch_layout, fetch_layout]
  show (Store.write (layout f) (i * c + j) (f (i', j')) >>= _) = _
  rw [write_layout]
  show Store.write _ _ _ = _
  rw [write_layout]
  congr 2
  funext p
  rw [Function.comp_apply, Equiv.swap_apply_def, Function.update_apply, Function.update_apply]
  by_cases hsecond : p = (i', j')
  · by_cases hfirst : p = (i, j)
    · rw [if_pos hsecond, if_pos hfirst, ← hfirst, hsecond]
    · rw [if_pos hsecond, if_neg hfirst, if_pos hsecond]
  · rw [if_neg hsecond, if_neg hsecond, apply_ite f]

/-- The rows stand one after another. -/
theorem toList_layout (f : Fin r × Fin c → α) :
    (layout f).toList = (List.ofFn fun i => List.ofFn fun j => f (i, j)).flatten := by
  rw [layout, Array.toList_ofFn, List.ofFn_mul]
  congr 3
  funext i
  congr 1
  funext j
  congr 1
  rw [Equiv.symm_apply_eq, Fin.ext_iff]
  exact place_eq (i, j)

/-- The part of the store that holds row `i`. -/
theorem slice_layout (f : Fin r × Fin c → α) (i : Fin r) :
    Store.slice (layout f) (i * c) ((i + 1) * c) = .ok (List.ofFn fun j => f (i, j)) := by
  have hstart : i * c ≤ (i + 1) * c := Nat.mul_le_mul_right c (Nat.le_succ i)
  have hstop : (i + 1) * c ≤ r * c := Nat.mul_le_mul_right c i.isLt
  rw [Store.slice, if_pos ⟨hstart, (size_layout f).symm ▸ hstop⟩]
  congr 1
  apply List.ext_getElem?
  intro j
  rw [List.getElem?_drop, List.getElem?_take, Array.getElem?_toList, List.getElem?_ofFn]
  have hwidth : (i + 1) * c = i * c + c := Nat.succ_mul ..
  by_cases hj : j < c
  · rw [if_pos (by omega), dif_pos hj]
    exact getElem?_layout f (i, ⟨j, hj⟩)
  · rw [if_neg (by omega), dif_neg hj]

theorem layout_const (x : α) :
    Array.replicate (r * c) x = layout fun _ : Fin r × Fin c => x := by
  apply eq_layout Array.size_replicate
  intro p
  rw [place_eq, Array.getElem?_replicate, if_pos (finProdFinEquiv p).isLt]

theorem zipWith_layout (op : α → α → α) :
    (layout f).zipWith op (layout g) = layout fun p => op (f p) (g p) := by
  apply eq_layout
  · rw [Array.size_zipWith, size_layout, size_layout, Nat.min_self]
  · intro p
    simp only [Array.getElem?_zipWith, getElem?_layout]

end

-- ---------------------------------------------------------------------------
-- Loops
-- ---------------------------------------------------------------------------

theorem bind_eq_of_ok {ε β γ : Type} {x : Except ε β} {b : β} (hx : x = .ok b)
    (next : β → Except ε γ) : x >>= next = next b := by
  rw [hx]
  rfl

/-- A loop on stores is a loop on what they hold, if each round is. -/
theorem foldlM_eq_ok {σ τ ι : Type} (view : σ → τ) {body : τ → ι → Except Trouble τ}
    {step : σ → ι → σ} {l : List ι}
    (hstep : ∀ s, ∀ x ∈ l, body (view s) x = .ok (view (step s x))) (s : σ) :
    l.foldlM body (view s) = .ok (view (l.foldl step s)) := by
  induction l generalizing s with
  | nil => rfl
  | cons x l ih =>
    rw [List.foldlM_cons, hstep s x (List.mem_cons_self ..)]
    exact ih (fun s y hy => hstep s y (List.mem_cons_of_mem _ hy)) (step s x)

/-- Rounds that change one place each, no place twice, and look only at their own place and at
places that keep what they hold, change all places at once. -/
theorem foldl_update {ι β : Type} [DecidableEq ι] (g : (ι → β) → ι → β) (kept : Set ι)
    (hlocal : ∀ s s' x, s x = s' x → Set.EqOn s s' kept → g s x = g s' x) {l : List ι}
    (hkept : ∀ s, ∀ x ∈ l, x ∈ kept → g s x = s x) (hnodup : l.Nodup) (s : ι → β) :
    l.foldl (fun s x => Function.update s x (g s x)) s = fun x => if x ∈ l then g s x else s x := by
  induction l generalizing s with
  | nil => simp
  | cons x l ih =>
    obtain ⟨hx, hnodup⟩ := List.nodup_cons.mp hnodup
    rw [List.foldl_cons, ih (fun s y hy => hkept s y (List.mem_cons_of_mem _ hy)) hnodup]
    -- what has been changed so far is not looked at
    have hsame : ∀ y, y ≠ x → g (Function.update s x (g s x)) y = g s y := by
      intro y hy
      apply hlocal
      · exact Function.update_of_ne hy ..
      · intro z hz
        by_cases hzx : z = x
        · subst hzx
          rw [Function.update_self, hkept s z (List.mem_cons_self ..) hz]
        · exact Function.update_of_ne hzx ..
    funext y
    by_cases hy : y = x
    · subst hy
      simp [hx]
    · simp [hy, hsame y hy]

/-- Rounds that add to one place. -/
theorem foldl_accumulate {ι κ β : Type} [DecidableEq ι] (x : ι) (op : β → κ → β) (l : List κ)
    (s : ι → β) : l.foldl (fun s k => Function.update s x (op (s x) k)) s =
      Function.update s x (l.foldl op (s x)) := by
  induction l generalizing s with
  | nil => simp
  | cons k l ih => rw [List.foldl_cons, ih, List.foldl_cons]; simp

-- ---------------------------------------------------------------------------
-- Operations on the stores of matrices
-- ---------------------------------------------------------------------------

namespace DenseMatrix

/-- The cells by their places. -/
def cell (m : DenseMatrix α) (p : Fin m.rows × Fin m.cols) : α := m.entry p.1 p.2

/-- The matrix in one array. -/
def flat (m : DenseMatrix α) : RowMajor α := ⟨m.rows, m.cols, layout m.cell⟩

theorem flat_ofFn {r c : Nat} (f : Fin r → Fin c → α) :
    (ofFn r c f).flat = ⟨r, c, layout fun p => f p.1 p.2⟩ := by
  have hcell : (ofFn r c f).cell = fun p => f p.1 p.2 := funext fun p => entry_ofFn r c f p.1 p.2
  rw [flat, hcell]
  rfl

end DenseMatrix

namespace RowMajor

open DenseMatrix

/-- A store with a place for every cell and no other is that of a matrix. -/
theorem exists_flat {s : RowMajor α} (hsize : s.data.size = s.rows * s.cols) :
    ∃ m : DenseMatrix α, s = m.flat := by
  obtain ⟨r, c, data⟩ := s
  have hcell : ∀ p : Fin r × Fin c, ∃ x, data[p.1 * c + p.2]? = some x := by
    intro p
    have hlt : p.1 * c + p.2 < data.size := by
      rw [place_eq, hsize]
      exact (finProdFinEquiv p).isLt
    exact ⟨_, Array.getElem?_eq_getElem hlt⟩
  choose f hf using hcell
  have hdata : data = layout f := eq_layout hsize hf
  refine ⟨ofFn r c fun i j => f (i, j), ?_⟩
  rw [flat_ofFn, hdata]

theorem cell_flat (m : DenseMatrix α) (i : Fin m.rows) (j : Fin m.cols) :
    m.flat.cell i j = .ok (m.entry i j) :=
  fetch_layout m.cell i j

theorem identity_flat [Zero α] [One α] (n : Nat) :
    identity n = .ok (DenseMatrix.identity n : DenseMatrix α).flat := by
  have hloop : (List.finRange n).foldlM (fun data (i : Fin n) => Store.write data (i * n + i) 1)
      (layout fun _ : Fin n × Fin n => (0 : α)) =
        .ok (layout ((List.finRange n).foldl (fun f i => Function.update f (i, i) 1) fun _ => 0)) :=
    foldlM_eq_ok layout (fun f i _ => write_layout f i i 1) _
  have hdiagonal : (List.finRange n).foldl (fun f i => Function.update f (i, i) 1) (fun _ => 0) =
      fun p : Fin n × Fin n => if p.1 = p.2 then (1 : α) else 0 := by
    have hplaces : ((List.finRange n).map fun i => (i, i)).Nodup :=
      (List.nodup_finRange n).map fun i j h => (Prod.mk.inj h).1
    have hall := foldl_update (fun _ _ => (1 : α)) ∅ (by simp) (by simp) hplaces fun _ => 0
    rw [List.foldl_map] at hall
    rw [hall]
    funext p
    simp [Prod.ext_iff, eq_comm]
  rw [identity, layout_const, DenseMatrix.identity, flat_ofFn, ← hdiagonal]
  exact bind_eq_of_ok hloop _

theorem add_flat [Add α] (a b : DenseMatrix α) :
    a.flat.add b.flat = (a.add? b).elim
      (.error (.refused (.badShape .add a.rows a.cols b.rows b.cols))) fun m => .ok m.flat := by
  by_cases hshape : a.rows = b.rows ∧ a.cols = b.cols
  · obtain ⟨r, c, a⟩ := a
    obtain ⟨r', c', b⟩ := b
    obtain rfl : r = r' := hshape.1
    obtain rfl : c = c' := hshape.2
    rw [add, if_neg (by simp [flat]), add?, dif_pos hshape, Option.elim, flat_ofFn]
    congr 2
    exact zipWith_layout (· + ·)
  · rw [add?, dif_neg hshape]
    exact if_pos (not_and_or.mp hshape)

/-- All pairs are met once by two loops, one in the other. -/
theorem foldl_pairs {r c : Nat} {σ : Type} (step : σ → Fin r × Fin c → σ) (s : σ) :
    (List.finRange r).foldl (fun s i => (List.finRange c).foldl (fun s j => step s (i, j)) s) s =
      (List.finRange r ×ˢ List.finRange c).foldl step s := by
  rw [SProd.sprod, List.instSProd]
  simp only [List.product, List.foldl_flatMap, List.foldl_map]

section Product

variable [Add α] [Mul α] {a b : DenseMatrix α} (h : a.cols = b.rows)
  (f : Fin a.rows × Fin b.cols → α)

theorem addProduct_flat (i : Fin a.rows) (j : Fin b.cols) (k : Fin a.cols) :
    a.flat.addProduct b.flat i j k (layout f) = .ok (layout (Function.update f (i, j)
      (f (i, j) + a.entry i k * b.entry (k.cast h) j))) := by
  have hleft : a.flat.cell i k = .ok (a.entry i k) := cell_flat a i k
  have hright : b.flat.cell k j = .ok (b.entry (k.cast h) j) := cell_flat b (k.cast h) j
  have hsum : Store.fetch (layout f) (i * b.flat.cols + j) = .ok (f (i, j)) := fetch_layout f i j
  simp only [addProduct, hleft, hright, hsum, bind, Except.bind]
  exact write_layout f i j _

/-- The sum for one cell, started from what the cell holds. -/
theorem sum_flat (i : Fin a.rows) (j : Fin b.cols) :
    (List.finRange a.cols).foldlM
        (fun data (k : Fin a.cols) => a.flat.addProduct b.flat i j k data) (layout f) =
      .ok (layout (Function.update f (i, j) ((List.finRange a.cols).foldl
        (fun sum k => sum + a.entry i k * b.entry (k.cast h) j) (f (i, j))))) := by
  rw [← foldl_accumulate (i, j) fun sum k => sum + a.entry i k * b.entry (k.cast h) j]
  exact foldlM_eq_ok layout (fun f k _ => addProduct_flat h f i j k) f

theorem multiply_flat_of_eq [Zero α] :
    a.flat.multiply b.flat = .ok (ofFn a.rows b.cols (a.dot b h)).flat := by
  let sum (f : Fin a.rows × Fin b.cols → α) (p : Fin a.rows × Fin b.cols) : α :=
    (List.finRange a.cols).foldl (fun sum k => sum + a.entry p.1 k * b.entry (k.cast h) p.2) (f p)
  have hsums : (List.finRange a.rows ×ˢ List.finRange b.cols).foldl
      (fun f p => Function.update f p (sum f p)) (fun _ => 0) = fun p => a.dot b h p.1 p.2 := by
    have hpairs : (List.finRange a.rows ×ˢ List.finRange b.cols).Nodup :=
      (List.nodup_finRange _).product (List.nodup_finRange _)
    have hlocal : ∀ f f' p, f p = f' p → Set.EqOn f f' ∅ → sum f p = sum f' p := by
      intro f f' p hp _
      simp only [sum, hp]
    rw [foldl_update sum ∅ hlocal (by simp) hpairs]
    funext p
    exact if_pos (List.mem_product.mpr ⟨List.mem_finRange _, List.mem_finRange _⟩)
  have hloop : (List.finRange a.rows).foldlM (fun data (i : Fin a.rows) =>
      (List.finRange b.cols).foldlM (fun data (j : Fin b.cols) =>
        (List.finRange a.cols).foldlM (fun data (k : Fin a.cols) =>
          a.flat.addProduct b.flat i j k data) data) data)
      (layout fun _ : Fin a.rows × Fin b.cols => 0) =
        .ok (layout fun p => a.dot b h p.1 p.2) := by
    rw [foldlM_eq_ok layout fun f i _ => foldlM_eq_ok layout (fun f j _ => sum_flat h f i j) f,
      ← hsums, ← foldl_pairs]
  have hshape : ¬ (a.flat.cols ≠ b.flat.rows) := Classical.not_not.mpr h
  have hstart : Array.replicate (a.flat.rows * b.flat.cols) (0 : α) =
      layout fun _ : Fin a.rows × Fin b.cols => 0 := layout_const 0
  rw [multiply, if_neg hshape, hstart, flat_ofFn]
  exact bind_eq_of_ok hloop _

end Product

theorem multiply_flat [Zero α] [Add α] [Mul α] (a b : DenseMatrix α) :
    a.flat.multiply b.flat = (a.multiply? b).elim
      (.error (.refused (.badShape .multiply a.cols b.cols b.rows b.cols)))
      fun m => .ok m.flat := by
  by_cases hshape : a.cols = b.rows
  · rw [multiply_flat_of_eq hshape, multiply?, dif_pos hshape, Option.elim]
  · rw [multiply?, dif_neg hshape]
    exact if_pos hshape

/-- One column is pushed as a row. -/
theorem column_flat (m : DenseMatrix α) (l : List α) (j : Fin m.cols) :
    (List.finRange m.rows).foldlM (fun data (i : Fin m.rows) => do
      let x ← m.flat.cell i j
      return data.push x) l.toArray = .ok (l ++ List.ofFn fun i => m.entry i j).toArray := by
  rw [List.ofFn_eq_map, ← List.append_toArray, ← List.foldl_push_eq_append]
  apply foldlM_eq_ok id
  intro data i _
  exact bind_eq_of_ok (cell_flat m i j) _

theorem transpose_flat (m : DenseMatrix α) : m.flat.transpose = .ok m.transpose.flat := by
  have hcolumns : (layout fun p : Fin m.cols × Fin m.rows => m.entry p.2 p.1) =
      ((List.finRange m.cols).foldl
        (fun l j => l ++ List.ofFn fun i => m.entry i j) []).toArray := by
    rw [List.foldl_append_eq_append, List.nil_append, ← List.ofFn_eq_map]
    apply Array.toList_inj.mp
    rw [toList_layout]
  rw [transpose, DenseMatrix.transpose, flat_ofFn, hcolumns]
  exact bind_eq_of_ok (foldlM_eq_ok List.toArray (fun l j _ => column_flat m l j) []) _

theorem row_flat (m : DenseMatrix α) {i : Nat} (hi : i < m.rows) :
    ∃ cells, m.row? i = some cells ∧ m.flat.row i = .ok cells := by
  refine ⟨List.ofFn fun j => m.entry ⟨i, hi⟩ j, ?_, slice_layout m.cell ⟨i, hi⟩⟩
  rw [row?_eq, toRows_eq_ofFn, List.getElem?_ofFn, dif_pos hi]

theorem mapM_eq_ok {ε β γ : Type} {f : β → Except ε γ} {g : β → γ} {l : List β}
    (h : ∀ x ∈ l, f x = .ok (g x)) : l.mapM f = .ok (l.map g) := by
  induction l with
  | nil => rfl
  | cons x l ih =>
    obtain ⟨hx, hrest⟩ := List.forall_mem_cons.mp h
    rw [List.mapM_cons, bind_eq_of_ok hx, bind_eq_of_ok (ih hrest)]
    rfl

theorem text_flat (m : DenseMatrix Binary64) : m.flat.text = .ok m.text := by
  have hrow : ∀ i ∈ List.range m.rows, m.flat.row i = .ok ((m.row? i).getD []) := by
    intro i hi
    obtain ⟨cells, hcells, hrow⟩ := row_flat m (List.mem_range.mp hi)
    rw [hrow, hcells, Option.getD_some]
  have hrows := mapM_eq_ok hrow
  rw [map_row?] at hrows
  exact bind_eq_of_ok hrows _

-- ---------------------------------------------------------------------------
-- Sequences put into a store
-- ---------------------------------------------------------------------------

theorem flat_eq (m : DenseMatrix α) : m.flat = ⟨m.rows, m.cols, m.toRows.flatten.toArray⟩ := by
  have hdata : layout m.cell = m.toRows.flatten.toArray := by
    apply Array.toList_inj.mp
    rw [toRows_eq_ofFn]
    exact toList_layout m.cell
  rw [flat, hdata]

theorem foldlM_pushNumber (data : Array Binary64) (vs : List Value) :
    vs.foldlM pushNumber data = (Value.entries? vs).map fun xs => data ++ xs.toArray := by
  induction vs generalizing data with
  | nil => simp [Value.entries?, Except.map, pure, Except.pure]
  | cons v vs ih =>
    rw [List.foldlM_cons, Value.entries?, pushNumber]
    cases v.number? with
    | none => rfl
    | some x =>
      show vs.foldlM pushNumber (data.push x) = _
      rw [ih]
      cases Value.entries? vs with
      | error e => rfl
      | ok xs => simp [Except.map, bind, Except.bind, pure, Except.pure]

theorem foldlM_pushRow (h : Heap) (c : Nat) (data : Array Binary64) (items : List Value) :
    items.foldlM (pushRow h) (some c, data) =
      (h.matrixRows? (some c) items).map fun rows => (some c, data ++ rows.flatten.toArray) := by
  induction items generalizing data with
  | nil => simp [Heap.matrixRows?, Except.map, pure, Except.pure]
  | cons v items ih =>
    rw [List.foldlM_cons]
    obtain ⟨kind, id, rfl⟩ | hplain := Heap.seq_or_plain v
    · simp only [pushRow, Heap.matrixRows?, Option.getD_some, foldlM_pushNumber]
      by_cases hlength : (h.read id).toList.length = c
      · rw [if_neg (Classical.not_not.mpr hlength), if_neg (Classical.not_not.mpr hlength)]
        cases Value.entries? (h.read id).toList with
        | error e => rfl
        | ok row =>
          show items.foldlM (pushRow h) (some c, data ++ row.toArray) = _
          rw [ih]
          cases h.matrixRows? (some c) items with
          | error e => rfl
          | ok rows => simp [Except.map, bind, Except.bind, pure, Except.pure]
      · rw [if_pos hlength, if_pos hlength]
        rfl
    · rw [Heap.matrixRows?_of_plain hplain, pushRow]
      · rfl
      · rintro kind id rfl
        exact Option.some_ne_none id hplain

/-- The first row sets the width. -/
theorem foldlM_pushRow_none (h : Heap) (items : List Value) :
    items.foldlM (pushRow h) (none, #[]) = (h.matrixRows? none items).map fun rows =>
      (rows.head?.map List.length, rows.flatten.toArray) := by
  obtain _ | ⟨v, items⟩ := items
  · rfl
  obtain ⟨kind, id, rfl⟩ | hplain := Heap.seq_or_plain v
  · have hpush : (Value.seq kind id :: items).foldlM (pushRow h) (none, #[]) =
        (Value.seq kind id :: items).foldlM (pushRow h) (some (h.read id).toList.length, #[]) := rfl
    have hread : h.matrixRows? none (.seq kind id :: items) =
        h.matrixRows? (some (h.read id).toList.length) (.seq kind id :: items) := rfl
    rw [hpush, hread, foldlM_pushRow]
    cases hrows : h.matrixRows? (some (h.read id).toList.length) (.seq kind id :: items) with
    | error e => rfl
    | ok rows =>
      obtain ⟨row, rest, -, hlength, -, rfl⟩ := Heap.matrixRows?_cons_iff.mp hrows
      simp [Except.map, hlength]
  · rw [Heap.matrixRows?_of_plain hplain, List.foldlM_cons, pushRow]
    · rfl
    · rintro kind id rfl
      exact Option.some_ne_none id hplain

/-- **Sequences are put into a store as they are read in.** -/
theorem ofValue_eq (h : Heap) (v : Value) : ofValue h v = (h.matrix? v).map flat := by
  cases v with
  | matrix m => exact congrArg Except.ok (flat_eq m).symm
  | seq kind id =>
    rw [ofValue, foldlM_pushRow_none, Heap.matrix?]
    cases hrows : h.matrixRows? none (h.read id).toList with
    | error e => rfl
    | ok rows =>
      obtain ⟨hall, c, hwidth⟩ := Heap.matrixRows?_none_iff.mp hrows
      obtain _ | ⟨_ | ⟨x, xs⟩, rest⟩ := rows
      · rfl
      · rfl
      obtain ⟨m, hm, hc⟩ := exists_toRows (List.cons_ne_nil _ _) hwidth
      have hlength : m.rows = (h.read id).size := by
        rw [← m.length_toRows, hm, ← hall.length_eq, Array.length_toList]
      have hsome : 0 < m.rows := by
        rw [← m.length_toRows, hm]
        exact Nat.succ_pos _
      have hcols : m.cols = (x :: xs).length := by
        rw [hc, hwidth _ (List.mem_cons_self ..)]
      have hmatrix := (ofRows?_eq_some_iff hsome).mpr hm
      simp only [Except.map, bind, Except.bind, List.head?_cons, Option.map_some, hmatrix,
        if_pos (Nat.succ_pos xs.length), List.length_cons, flat_eq, hm, hlength, hcols]
  | _ => rfl

end RowMajor

end SeqScript
