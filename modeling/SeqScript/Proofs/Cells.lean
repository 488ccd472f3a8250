import Mathlib
import SeqScript.DenseMatrix.Basic

/-!
# Matrices by their cells and by their rows

Two views of a matrix. By cells: two matrices of one shape with the same cells are the same
(`DenseMatrix.ext_entry`), and `entry_ofFn` reads a cell of a matrix that is given by a function.
By rows: `toRows` forgets the shape, which the rows still show unless there are none, so that
`ofRows?` brings the matrix back (`ofRows?_eq_some_iff`). `agree_iff` says in terms of rows when
two matrices agree.
-/

namespace SeqScript

namespace DenseMatrix

variable {α : Type}

-- ---------------------------------------------------------------------------
-- Cells
-- ---------------------------------------------------------------------------

@[simp] theorem entry_ofFn (r c : Nat) (f : Fin r → Fin c → α) (i : Fin r) (j : Fin c) :
    (ofFn r c f).entry i j = f i j := by
  show (Vector.ofFn fun i => Vector.ofFn fun j => f i j)[i.val][j.val] = f i j
  simp only [Vector.getElem_ofFn]

/-- Matrices of one shape with the same cells are the same. -/
theorem ext_entry {a b : DenseMatrix α} (hrows : a.rows = b.rows) (hcols : a.cols = b.cols)
    (hentry : ∀ i j, a.entry i j = b.entry (i.cast hrows) (j.cast hcols)) : a = b := by
  obtain ⟨r, c, a⟩ := a
  obtain ⟨r', c', b⟩ := b
  obtain rfl : r = r' := hrows
  obtain rfl : c = c' := hcols
  have hcells : a = b := by
    ext i hi j hj
    exact hentry ⟨i, hi⟩ ⟨j, hj⟩
  rw [hcells]

-- ---------------------------------------------------------------------------
-- Rows
-- ---------------------------------------------------------------------------

@[simp] theorem length_toRows (m : DenseMatrix α) : m.toRows.length = m.rows := by
  simp [toRows]

theorem length_of_mem_toRows (m : DenseMatrix α) {row : List α} (hrow : row ∈ m.toRows) :
    row.length = m.cols := by
  simp only [toRows, List.mem_map] at hrow
  obtain ⟨cells, -, rfl⟩ := hrow
  exact cells.length_toList

theorem row?_eq (m : DenseMatrix α) (i : Nat) : m.row? i = m.toRows[i]? := by
  simp [row?, toRows]

theorem toRows_eq_ofFn (m : DenseMatrix α) :
    m.toRows = List.ofFn fun i => List.ofFn fun j => m.entry i j := by
  apply List.ext_getElem
  · simp
  · intro i hi hi'
    apply List.ext_getElem
    · simp [toRows]
    · intro j hj hj'
      simp [toRows, entry]

theorem map_row? (m : DenseMatrix α) :
    ((List.range m.rows).map fun i => (m.row? i).getD []) = m.toRows := by
  apply List.ext_getElem
  · simp
  · intro i hi hi'
    simp [row?_eq, List.getElem?_eq_getElem hi']

/-- The rows show the shape, unless there are none. -/
theorem toRows_injective {a b : DenseMatrix α} (hsome : 0 < a.rows) (h : a.toRows = b.toRows) :
    a = b := by
  obtain ⟨r, c, a⟩ := a
  obtain ⟨r', c', b⟩ := b
  obtain rfl : r = r' := by simpa [toRows] using congrArg List.length h
  have hr : 0 < r := hsome
  have hfirst : a[0].toList = b[0].toList := by
    have hget := congrArg (fun rows : List (List α) => rows[0]?) h
    simpa [toRows, hr] using hget
  obtain rfl : c = c' := by simpa using congrArg List.length hfirst
  have hcells : a = b :=
    Vector.toList_inj.mp (List.map_injective_iff.mpr (fun _ _ => Vector.toList_inj.mp) h)
  rw [hcells]

theorem toRows_of_ofRows? {rows : List (List α)} {m : DenseMatrix α} (h : ofRows? rows = some m) :
    m.toRows = rows := by
  fun_cases ofRows? rows with
  | case1 => simp [ofRows?] at h
  | case2 first rest all hall =>
    rw [ofRows?, dif_pos hall, Option.some.injEq] at h
    subst h
    apply List.ext_getElem
    · simp [toRows]
    · intro i hi hi'
      simp [toRows]
  | case3 first rest all hall =>
    rw [ofRows?, dif_neg hall] at h
    cases h

/-- Rows are those of a matrix if there are some and all are equally long. -/
theorem ofRows?_eq_some_iff {rows : List (List α)} {m : DenseMatrix α} (hsome : 0 < m.rows) :
    ofRows? rows = some m ↔ m.toRows = rows := by
  refine ⟨toRows_of_ofRows?, ?_⟩
  rintro rfl
  cases hrows : m.toRows with
  | nil => simp [← m.length_toRows, hrows] at hsome
  | cons first rest =>
    have hall : ∀ row ∈ first :: rest, row.length = first.length := by
      intro row hrow
      rw [← hrows] at hrow
      rw [m.length_of_mem_toRows hrow, m.length_of_mem_toRows (hrows ▸ List.mem_cons_self ..)]
    rw [ofRows?, dif_pos hall, Option.some.injEq]
    symm
    apply toRows_injective hsome
    rw [hrows]
    symm
    apply toRows_of_ofRows?
    rw [ofRows?, dif_pos hall]

/-- Equally long rows are those of a matrix, if there are some. -/
theorem exists_toRows {rows : List (List α)} {c : Nat} (hsome : rows ≠ [])
    (hall : ∀ row ∈ rows, row.length = c) : ∃ m : DenseMatrix α, m.toRows = rows ∧ m.cols = c := by
  obtain ⟨first, rest, rfl⟩ := List.exists_cons_of_ne_nil hsome
  have hfirst : ∀ row ∈ first :: rest, row.length = first.length := by
    intro row hrow
    rw [hall row hrow, hall first (List.mem_cons_self ..)]
  exact ⟨_, toRows_of_ofRows? (dif_pos hfirst), hall first (List.mem_cons_self ..)⟩

/-- A matrix with a row and a column has a first cell. -/
theorem exists_cell (m : DenseMatrix α) (hrows : 0 < m.rows) (hcols : 0 < m.cols) :
    ∃ x xs rest, m.toRows = (x :: xs) :: rest := by
  obtain ⟨first, rest, heq⟩ := List.exists_cons_of_length_pos (m.length_toRows ▸ hrows)
  have hlength := m.length_of_mem_toRows (heq ▸ List.mem_cons_self ..)
  obtain ⟨x, xs, rfl⟩ := List.exists_cons_of_length_pos (hlength ▸ hcols)
  exact ⟨x, xs, rest, heq⟩

-- ---------------------------------------------------------------------------
-- Agreement
-- ---------------------------------------------------------------------------

theorem forall₂_toList_iff {β : Type} {n : Nat} {R : α → β → Prop} {a : Vector α n}
    {b : Vector β n} : List.Forall₂ R a.toList b.toList ↔ ∀ i : Fin n, R (a.get i) (b.get i) := by
  rw [List.forall₂_iff_get]
  constructor
  · rintro ⟨-, hget⟩ i
    simpa [Vector.get_eq_getElem] using hget i (by simp) (by simp)
  · intro hall
    refine ⟨by simp, ?_⟩
    intro i hi _
    simpa [Vector.get_eq_getElem] using hall ⟨i, by simpa using hi⟩

/-- Matrices agree if they have one shape and their rows agree, place by place. -/
theorem agree_iff {same : α → α → Bool} {a b : DenseMatrix α} :
    a.agree same b = true ↔ a.cols = b.cols ∧
      List.Forall₂ (List.Forall₂ fun x y => same x y = true) a.toRows b.toRows := by
  obtain ⟨r, c, a⟩ := a
  obtain ⟨r', c', b⟩ := b
  by_cases hshape : r = r' ∧ c = c'
  · obtain ⟨rfl, rfl⟩ := hshape
    simp only [agree, and_self, dite_true, List.all_eq_true, List.mem_finRange, forall_const,
      true_and, toRows, List.forall₂_map_left_iff, List.forall₂_map_right_iff,
      forall₂_toList_iff]
    rfl
  · rw [agree, dif_neg hshape]
    constructor
    · simp
    · rintro ⟨hcols, hall⟩
      have hrows := hall.length_eq
      rw [length_toRows, length_toRows] at hrows
      exact absurd ⟨hrows, hcols⟩ hshape

end DenseMatrix

end SeqScript
