import Mathlib
import SeqScript.Proofs.RowMajor.Inverse

/-!
# Matrix operations stay inside their data

A store is *obtained* when it was built from sequences of rows and identities by the operations on
stores. All operations on stores are the program's operations on matrices (`ofValue_eq`,
`add_stored`, `multiply_stored`, `invert_stored`, `transpose_flat`), so an obtained store is the
store of a matrix, and no operation on such stores reads or writes outside their data. The main
result is `matrices_stay_in_bounds`, which also says exactly when each operation succeeds and what
shape its result has.
-/

namespace SeqScript

-- ---------------------------------------------------------------------------
-- What is read in as a matrix
-- ---------------------------------------------------------------------------

/-- A value is an integer or a float. -/
def Value.Number (v : Value) : Prop := (∃ n, v = .int n) ∨ ∃ x, v = .float x

/-- A number is what counts as one cell. -/
theorem Value.number_iff {v : Value} : v.Number ↔ ∃ x, v.Counts x := by
  cases v <;> simp [Number, Counts, number?]

/-- A computation in two steps fails in one of them. -/
theorem bind_eq_error {ε α β : Type} {x : Except ε α} {f : α → Except ε β} {e : ε}
    (h : x >>= f = .error e) : x = .error e ∨ ∃ a, x = .ok a ∧ f a = .error e := by
  cases x with
  | error e' => exact .inl (congrArg Except.error (Except.error.inj h))
  | ok a => exact .inr ⟨a, rfl, h⟩

theorem Value.entries?_error {vs : List Value} {cause : Cause} (h : entries? vs = .error cause) :
    cause.faultClass = .type := by
  induction vs with
  | nil => simp [entries?] at h
  | cons v vs ih =>
    rw [entries?] at h
    split at h
    · obtain rfl := Except.error.inj h
      rfl
    · obtain hrest | ⟨xs, -, h⟩ := bind_eq_error h
      · exact ih hrest
      · cases h

namespace Heap

variable {h : Heap} {v : Value} {cause : Cause}

/-- A value is a sequence of so many numbers. -/
def NumberRow (h : Heap) (width : Nat) (v : Value) : Prop :=
  ∃ kind id, v = .seq kind id ∧ (h.read id).size = width ∧ ∀ x ∈ (h.read id).toList, x.Number

/-- A value is a sequence of equally long sequences of numbers, with at least one of them and at
least one number in each. -/
def Table (h : Heap) (v : Value) : Prop :=
  ∃ kind id width, v = .seq kind id ∧ 0 < (h.read id).size ∧ 0 < width ∧
    ∀ w ∈ (h.read id).toList, h.NumberRow width w

theorem exists_forall₂_iff {α β : Type} {R : α → β → Prop} {l : List α} :
    (∃ l', List.Forall₂ R l l') ↔ ∀ x ∈ l, ∃ y, R x y := by
  constructor
  · rintro ⟨l', hl⟩ x hx
    obtain ⟨y, -, hy⟩ := forall₂_mem_right hl.flip hx
    exact ⟨y, hy⟩
  · intro hall
    induction l with
    | nil => exact ⟨[], .nil⟩
    | cons x l ih =>
      obtain ⟨⟨y, hy⟩, hall⟩ := List.forall_mem_cons.mp hall
      obtain ⟨l', hl⟩ := ih hall
      exact ⟨y :: l', .cons hy hl⟩

/-- A row of numbers is what is read as a row of cells. -/
theorem numberRow_iff {width : Nat} :
    h.NumberRow width v ↔ ∃ row, h.RowOf v row ∧ row.length = width := by
  constructor
  · rintro ⟨kind, id, rfl, hsize, hall⟩
    obtain ⟨row, hrow⟩ := exists_forall₂_iff.mpr fun x hx => Value.number_iff.mp (hall x hx)
    exact ⟨row, ⟨kind, id, rfl, hrow⟩, hrow.length_eq.symm.trans hsize⟩
  · rintro ⟨row, ⟨kind, id, rfl, hrow⟩, hlength⟩
    refine ⟨kind, id, rfl, hrow.length_eq.trans hlength, ?_⟩
    intro x hx
    exact Value.number_iff.mpr (exists_forall₂_iff.mp ⟨row, hrow⟩ x hx)

theorem forall_numberRow_iff {width : Nat} {items : List Value} :
    (∀ w ∈ items, h.NumberRow width w) ↔
      ∃ rows, List.Forall₂ h.RowOf items rows ∧ ∀ row ∈ rows, row.length = width := by
  constructor
  · intro hall
    obtain ⟨rows, hrows⟩ := exists_forall₂_iff.mpr fun w hw => numberRow_iff.mp (hall w hw)
    refine ⟨rows, hrows.imp fun _ _ h => h.1, ?_⟩
    intro row hrow
    obtain ⟨w, -, -, hlength⟩ := forall₂_mem_right hrows hrow
    exact hlength
  · rintro ⟨rows, hrows, hlength⟩ w hw
    obtain ⟨row, hrow, hw⟩ := forall₂_mem_right hrows.flip hw
    exact numberRow_iff.mpr ⟨row, hw, hlength row hrow⟩

/-- **What can be read in as a matrix.** -/
theorem exists_matrix?_iff : (∃ m, h.matrix? v = .ok m) ↔ (∃ m, v = .matrix m) ∨ h.Table v := by
  constructor
  · rintro ⟨m, hm⟩
    cases v with
    | matrix m' => exact .inl ⟨m', rfl⟩
    | seq kind id =>
      obtain ⟨hrows, hcols, hall⟩ := matrix?_seq_eq_ok_iff.mp hm
      have hsize : 0 < (h.read id).size := by
        rw [← Array.length_toList, hall.length_eq, m.length_toRows]
        exact hrows
      exact .inr ⟨kind, id, m.cols, rfl, hsize, hcols,
        forall_numberRow_iff.mpr ⟨m.toRows, hall, fun _ => m.length_of_mem_toRows⟩⟩
    | _ => cases hm
  · rintro (⟨m, rfl⟩ | ⟨kind, id, width, rfl, hsize, hwidth, hall⟩)
    · exact ⟨m, rfl⟩
    obtain ⟨rows, hrows, hlength⟩ := forall_numberRow_iff.mp hall
    have hsome : 0 < rows.length := by
      rw [← hrows.length_eq, Array.length_toList]
      exact hsize
    obtain ⟨m, rfl, hcols⟩ := DenseMatrix.exists_toRows (List.ne_nil_of_length_pos hsome) hlength
    rw [m.length_toRows] at hsome
    exact ⟨m, matrix?_seq_eq_ok_iff.mpr ⟨hsome, hcols ▸ hwidth, hrows⟩⟩

/-- Whatever is wrong with the rows of a matrix, it is a fault of type. -/
theorem matrixRows?_error {width : Option Nat} {items : List Value}
    (herror : h.matrixRows? width items = .error cause) : cause.faultClass = .type := by
  induction items generalizing width with
  | nil => simp [matrixRows?] at herror
  | cons v items ih =>
    obtain ⟨kind, id, rfl⟩ | hplain := seq_or_plain v
    · simp only [matrixRows?] at herror
      split at herror
      · obtain rfl := Except.error.inj herror
        rfl
      · obtain hrow | ⟨row, -, herror⟩ := bind_eq_error herror
        · exact Value.entries?_error hrow
        obtain hrest | ⟨rest, -, herror⟩ := bind_eq_error herror
        · exact ih hrest
        · cases herror
    · rw [matrixRows?_of_plain hplain] at herror
      obtain rfl := Except.error.inj herror
      rfl

theorem matrix?_error (herror : h.matrix? v = .error cause) : cause.faultClass = .type := by
  cases v with
  | matrix m => cases herror
  | seq kind id =>
    rw [matrix?] at herror
    obtain hrows | ⟨rows, -, herror⟩ := bind_eq_error herror
    · exact matrixRows?_error hrows
    split at herror
    · obtain rfl := Except.error.inj herror
      rfl
    · obtain rfl := Except.error.inj herror
      rfl
    · split at herror
      · cases herror
      · obtain rfl := Except.error.inj herror
        rfl
  | _ =>
    obtain rfl := Except.error.inj herror
    rfl

end Heap

-- ---------------------------------------------------------------------------
-- Stored operations
-- ---------------------------------------------------------------------------

/-- What an operation on matrices gives, with the matrix in one array. -/
def stored : Except Cause (DenseMatrix Binary64) → Except Trouble (RowMajor Binary64)
  | .ok m => .ok m.flat
  | .error cause => .error (.refused cause)

namespace RowMajor

open CollectionOp

/-- The loops over two stores compute the sum of their matrices. -/
theorem add_stored (a b : DenseMatrix Binary64) :
    a.flat.add b.flat = stored (matrixSum a b) := by
  rw [add_flat, matrixSum]
  cases a.add? b <;> rfl

/-- Those over rows and columns compute the product. -/
theorem multiply_stored (a b : DenseMatrix Binary64) :
    a.flat.multiply b.flat = stored (matrixProduct a b) := by
  rw [multiply_flat, matrixProduct]
  cases a.multiply? b <;> rfl

theorem invert_stored (a : DenseMatrix Binary64) : a.flat.invert = stored (matrixInverse a) := by
  rw [invert_flat, matrixInverse]
  cases a.invert <;> rfl

/-- Stores that are built from sequences and identities by the operations on stores. -/
inductive Obtained : RowMajor Binary64 → Prop
  | rows {h : Heap} {kind : SeqKind} {id : SeqId} {s : RowMajor Binary64}
      (hs : ofValue h (.seq kind id) = .ok s) : Obtained s
  | copy {h : Heap} {m : DenseMatrix Binary64} {s : RowMajor Binary64} (hm : Obtained m.flat)
      (hs : ofValue h (.matrix m) = .ok s) : Obtained s
  | identity {n : Nat} {s : RowMajor Binary64} (hs : identity n = .ok s) : Obtained s
  | add {a b s : RowMajor Binary64} (ha : Obtained a) (hb : Obtained b) (hs : a.add b = .ok s) :
      Obtained s
  | multiply {a b s : RowMajor Binary64} (ha : Obtained a) (hb : Obtained b)
      (hs : a.multiply b = .ok s) : Obtained s
  | transpose {a s : RowMajor Binary64} (ha : Obtained a) (hs : a.transpose = .ok s) : Obtained s
  | invert {a s : RowMajor Binary64} (ha : Obtained a) (hs : a.invert = .ok s) : Obtained s

/-- No operation on a store gets outside its data. -/
structure InBounds (s : RowMajor Binary64) : Prop where
  size : s.data.size = s.rows * s.cols
  cell : ∀ i < s.rows, ∀ j < s.cols, ∃ x, s.cell i j = .ok x
  row : ∀ i < s.rows, ∃ cells, s.row i = .ok cells ∧ cells.length = s.cols
  text : ∃ t, s.text = .ok t
  transpose : ∃ t, s.transpose = .ok t
  add : ∀ t, Obtained t → s.add t ≠ .error .outside
  multiply : ∀ t, Obtained t → s.multiply t ≠ .error .outside
  invert : s.invert ≠ .error .outside

/-- An operation succeeds exactly under a condition, with a result of a given shape, and otherwise
refuses what it was given. -/
def Succeeds (r : Except Cause (DenseMatrix Binary64)) (condition : Prop) (rows cols : Nat) :
    Prop :=
  (condition → ∃ m, r = .ok m ∧ m.rows = rows ∧ m.cols = cols) ∧
    (¬ condition → ∃ cause, r = .error cause ∧ cause.faultClass = .value)

theorem stored_ne_outside (r : Except Cause (DenseMatrix Binary64)) :
    stored r ≠ .error .outside := by
  cases r <;> simp [stored]

theorem exists_flat_of_stored {r : Except Cause (DenseMatrix Binary64)} {s : RowMajor Binary64}
    (h : stored r = .ok s) : ∃ m : DenseMatrix Binary64, s = m.flat := by
  cases r with
  | error cause => cases h
  | ok m => exact ⟨m, (Except.ok.inj h).symm⟩

/-- Whatever was obtained is the store of a matrix, by induction on how it was obtained. -/
theorem Obtained.exists_flat {s : RowMajor Binary64} (hs : Obtained s) :
    ∃ m : DenseMatrix Binary64, s = m.flat := by
  induction hs with
  | @rows h kind id s hs =>
    rw [ofValue_eq] at hs
    cases hm : h.matrix? (.seq kind id) with
    | error cause =>
      rw [hm] at hs
      cases hs
    | ok m =>
      rw [hm] at hs
      exact ⟨m, (Except.ok.inj hs).symm⟩
  | @copy h m s _ hs =>
    rw [ofValue_eq] at hs
    exact ⟨m, (Except.ok.inj hs).symm⟩
  | identity hs =>
    rw [identity_flat] at hs
    exact ⟨_, (Except.ok.inj hs).symm⟩
  | add _ _ hs iha ihb =>
    obtain ⟨a, rfl⟩ := iha
    obtain ⟨b, rfl⟩ := ihb
    exact exists_flat_of_stored (add_stored a b ▸ hs)
  | multiply _ _ hs iha ihb =>
    obtain ⟨a, rfl⟩ := iha
    obtain ⟨b, rfl⟩ := ihb
    exact exists_flat_of_stored (multiply_stored a b ▸ hs)
  | transpose _ hs iha =>
    obtain ⟨a, rfl⟩ := iha
    rw [transpose_flat] at hs
    exact ⟨_, (Except.ok.inj hs).symm⟩
  | invert _ hs iha =>
    obtain ⟨a, rfl⟩ := iha
    exact exists_flat_of_stored (invert_stored a ▸ hs)

/-- The store of a matrix is as large as its shape says, so no access is outside. -/
theorem inBounds_flat (m : DenseMatrix Binary64) : m.flat.InBounds where
  size := size_layout m.cell
  cell i hi j hj := ⟨_, cell_flat m ⟨i, hi⟩ ⟨j, hj⟩⟩
  row i hi := by
    obtain ⟨cells, hcells, hrow⟩ := row_flat m hi
    rw [DenseMatrix.row?_eq] at hcells
    exact ⟨cells, hrow, m.length_of_mem_toRows (List.mem_of_getElem? hcells)⟩
  text := ⟨_, text_flat m⟩
  transpose := ⟨_, transpose_flat m⟩
  add t ht := by
    obtain ⟨b, rfl⟩ := ht.exists_flat
    rw [add_stored]
    exact stored_ne_outside _
  multiply t ht := by
    obtain ⟨b, rfl⟩ := ht.exists_flat
    rw [multiply_stored]
    exact stored_ne_outside _
  invert := by
    rw [invert_stored]
    exact stored_ne_outside _

theorem matrixSum_succeeds (a b : DenseMatrix Binary64) :
    Succeeds (matrixSum a b) (a.rows = b.rows ∧ a.cols = b.cols) a.rows a.cols := by
  rw [matrixSum, DenseMatrix.add?]
  by_cases hshape : a.rows = b.rows ∧ a.cols = b.cols
  · rw [dif_pos hshape]
    exact ⟨fun _ => ⟨_, rfl, rfl, rfl⟩, fun hnot => absurd hshape hnot⟩
  · rw [dif_neg hshape]
    exact ⟨fun hyes => absurd hyes hshape, fun _ => ⟨_, rfl, rfl⟩⟩

theorem matrixProduct_succeeds (a b : DenseMatrix Binary64) :
    Succeeds (matrixProduct a b) (a.cols = b.rows) a.rows b.cols := by
  rw [matrixProduct, DenseMatrix.multiply?]
  by_cases hshape : a.cols = b.rows
  · rw [dif_pos hshape]
    exact ⟨fun _ => ⟨_, rfl, rfl, rfl⟩, fun hnot => absurd hshape hnot⟩
  · rw [dif_neg hshape]
    exact ⟨fun hyes => absurd hyes hshape, fun _ => ⟨_, rfl, rfl⟩⟩

/-- Only a square matrix is inverted. -/
theorem matrixInverse_ok {a m : DenseMatrix Binary64} (h : matrixInverse a = .ok m) :
    a.rows = a.cols ∧ m.rows = a.rows ∧ m.cols = a.cols := by
  rw [matrixInverse] at h
  split at h
  next m' hm =>
    obtain rfl := Except.ok.inj h
    exact DenseMatrix.shape_of_invert hm
  next => cases h
  next => cases h

/-- A matrix that is not inverted is a fault of value. -/
theorem matrixInverse_error {a : DenseMatrix Binary64} {cause : Cause}
    (h : matrixInverse a = .error cause) : cause.faultClass = .value := by
  rw [matrixInverse] at h
  split at h
  next => cases h
  next =>
    obtain rfl := Except.error.inj h
    rfl
  next =>
    obtain rfl := Except.error.inj h
    rfl

/-- The operations on the stores of two matrices are those on the matrices. -/
structure Agrees (a b : DenseMatrix Binary64) : Prop where
  add : a.flat.add b.flat = stored (matrixSum a b)
  multiply : a.flat.multiply b.flat = stored (matrixProduct a b)
  transpose : a.flat.transpose = .ok a.transpose.flat
  invert : a.flat.invert = stored (matrixInverse a)
  row : ∀ i < a.rows, ∃ cells, a.row? i = some cells ∧ a.flat.row i = .ok cells
  text : a.flat.text = .ok a.text

/-- When the operations on two matrices succeed, and the shapes of the results. -/
structure Shapes (a b : DenseMatrix Binary64) : Prop where
  add : Succeeds (matrixSum a b) (a.rows = b.rows ∧ a.cols = b.cols) a.rows a.cols
  multiply : Succeeds (matrixProduct a b) (a.cols = b.rows) a.rows b.cols
  transpose : a.transpose.rows = a.cols ∧ a.transpose.cols = a.rows
  notSquare : a.rows ≠ a.cols → ∃ cause, matrixInverse a = .error cause
  invert : ∀ m, matrixInverse a = .ok m → m.rows = a.rows ∧ m.cols = a.cols
  invertError : ∀ cause, matrixInverse a = .error cause → cause.faultClass = .value

theorem shapes (a b : DenseMatrix Binary64) : Shapes a b where
  add := matrixSum_succeeds a b
  multiply := matrixProduct_succeeds a b
  transpose := ⟨rfl, rfl⟩
  notSquare hne := by
    rw [matrixInverse, DenseMatrix.invert_of_ne hne]
    exact ⟨_, rfl⟩
  invert _ hm := (matrixInverse_ok hm).2
  invertError _ := matrixInverse_error

end RowMajor

open RowMajor

theorem exists_ok_of_any {ε α : Type} {r : Except ε α} {p : α → Bool}
    (h : r.toOption.any p = true) : ∃ x, r = .ok x ∧ p x = true := by
  cases r with
  | error e => cases h
  | ok x => exact ⟨x, rfl, h⟩

/-- **Matrix operations stay inside their data.** With the cells of a matrix in one array, row
after row:
* a store that was built from sequences and identities by the operations has a place for every
  cell and no other, and no operation on such stores, the steps of inverting among them, reads or
  writes outside the data;
* reading in a value succeeds exactly on matrices and tables of numbers, and otherwise fails with
  a type error;
* the operations on the stores of matrices are the operations on the matrices;
* sums need one shape and products a shared inner dimension, transposing swaps the shape, and only
  square matrices have an inverse, of the same shape; otherwise the operation fails with a value
  error. -/
theorem matrices_stay_in_bounds :
    (∀ s, Obtained s → s.InBounds) ∧
      (∀ h v, ofValue h v = (h.matrix? v).map DenseMatrix.flat ∧
        ((∃ m, h.matrix? v = .ok m) ↔ (∃ m, v = .matrix m) ∨ h.Table v) ∧
        ∀ cause, h.matrix? v = .error cause → cause.faultClass = .type) ∧
      (∀ n, identity n = .ok (DenseMatrix.identity n : DenseMatrix Binary64).flat) ∧
      ∀ a b : DenseMatrix Binary64, Agrees a b ∧ Shapes a b := by
  refine ⟨?_, ?_, identity_flat, ?_⟩
  · intro s hs
    obtain ⟨m, rfl⟩ := hs.exists_flat
    exact inBounds_flat m
  · intro h v
    exact ⟨ofValue_eq h v, Heap.exists_matrix?_iff, fun _ => Heap.matrix?_error⟩
  · intro a b
    exact ⟨⟨add_stored a b, multiply_stored a b, transpose_flat a, invert_stored a,
      fun _ => row_flat a, text_flat a⟩, shapes a b⟩

/-- The table `[[1, 2, 3], [4, 5.5, 6]]` times its transpose has an inverse, and all stores on the
way are inside their bounds. -/
theorem matrices_stay_in_bounds_inverse :
    let h : Heap := ⟨#[#[.int 1, .int 2, .int 3], #[.int 4, .float 5.5, .int 6],
      #[.seq .list 0, .seq .array 1]]⟩
    ∃ a t p s : RowMajor Binary64, ofValue h (.seq .array 2) = .ok a ∧ a.transpose = .ok t ∧
      a.multiply t = .ok p ∧ p.invert = .ok s ∧ s.data.size = 4 ∧ s.InBounds := by
  intro h
  have hok : ((ofValue h (.seq .array 2)).toOption.any fun a => a.transpose.toOption.any fun t =>
      (a.multiply t).toOption.any fun p => p.invert.toOption.any fun s => s.data.size == 4) =
        true := by decide +kernel
  obtain ⟨a, ha, hok⟩ := exists_ok_of_any hok
  obtain ⟨t, ht, hok⟩ := exists_ok_of_any hok
  obtain ⟨p, hp, hok⟩ := exists_ok_of_any hok
  obtain ⟨s, hs, hok⟩ := exists_ok_of_any hok
  have hobtained : Obtained s := .invert (.multiply (.rows ha) (.transpose (.rows ha) ht) hp) hs
  exact ⟨a, t, p, s, ha, ht, hp, hs, eq_of_beq hok, matrices_stay_in_bounds.1 s hobtained⟩

end SeqScript
