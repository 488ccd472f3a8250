import Mathlib
import SeqScript.Eval.Expr
import SeqScript.Proofs.Cells
import SeqScript.Proofs.Nesting
import SeqScript.Proofs.Widening

/-!
# Sequences taken as matrices

A sequence of rows of numbers can stand for a matrix. Reading it in goes row by row, fixes the
width at the first row and stops at the first thing that does not fit; comparing it with a
matrix reads it in first. Both are said here without the order in which things are looked at:

* `matrix?_seq_eq_ok_iff` — reading in gives a matrix exactly if the sequence has its rows, there
  is a cell at all, and every element of a row is the number in its place;
* `isMatrix_seq_iff` — a sequence equals a matrix exactly if it has as many elements as the matrix
  has rows, each a sequence as long as the row whose elements are equal to the row's numbers;
* `equalWithin_rows` — so does the array of the rows, as long as it shares no store with the
  sequence.

The main result is `matrix_equals_rows`.
-/

namespace SeqScript

-- ---------------------------------------------------------------------------
-- Lists side by side
-- ---------------------------------------------------------------------------

/-- Two lists that correspond to a third one. -/
theorem forall₂_through {α β γ : Type} {R : α → β → Prop} {S : γ → β → Prop} {l : List α}
    {u : List γ} : List.Forall₂ (fun a c => ∃ b, R a b ∧ S c b) l u ↔
      ∃ k, List.Forall₂ R l k ∧ List.Forall₂ S u k := by
  constructor
  · intro h
    induction h with
    | nil => exact ⟨[], .nil, .nil⟩
    | cons hhead _ ih =>
      obtain ⟨b, hR, hS⟩ := hhead
      obtain ⟨k, hk, hk'⟩ := ih
      exact ⟨b :: k, .cons hR hk, .cons hS hk'⟩
  · rintro ⟨k, hk, hk'⟩
    induction hk generalizing u with
    | nil =>
      cases hk'
      exact .nil
    | cons hR _ ih =>
      obtain ⟨c, u', hS, hrest, rfl⟩ := List.forall₂_cons_right_iff.mp hk'
      exact .cons ⟨_, hR, hS⟩ (ih hrest)

-- ---------------------------------------------------------------------------
-- Reading in
-- ---------------------------------------------------------------------------

/-- A value is a number. -/
def Value.Counts (v : Value) (x : Binary64) : Prop := v.number? = some x

theorem Value.entries?_eq_ok_iff {vs : List Value} {xs : List Binary64} :
    entries? vs = .ok xs ↔ List.Forall₂ Value.Counts vs xs := by
  induction vs generalizing xs with
  | nil => simp [entries?, eq_comm]
  | cons v vs ih =>
    rw [List.forall₂_cons_left_iff]
    cases hv : v.number? with
    | none => simp [entries?, hv, Counts]
    | some x =>
      constructor
      · intro hok
        rw [entries?, hv] at hok
        obtain ⟨rest, hrest, hok⟩ := bind_eq_ok hok
        exact ⟨x, rest, hv, ih.mp hrest, (Except.ok.inj hok).symm⟩
      · rintro ⟨y, rest, hy, hrest, rfl⟩
        obtain rfl : x = y := Option.some.inj (hv.symm.trans hy)
        rw [entries?, hv, ih.mpr hrest]
        rfl

namespace Heap

variable {h : Heap} {kind : SeqKind} {id : SeqId} {m : DenseMatrix Binary64}

/-- A value is a sequence, of either kind, of given numbers. -/
def RowOf (h : Heap) (v : Value) (row : List Binary64) : Prop :=
  ∃ kind id, v = .seq kind id ∧ List.Forall₂ Value.Counts (h.read id).toList row

theorem RowOf.store?_ne {v : Value} {row : List Binary64} (hrow : h.RowOf v row) :
    v.store? ≠ none := by
  obtain ⟨kind, id, rfl, -⟩ := hrow
  exact Option.some_ne_none id

theorem matrixRows?_of_plain {v : Value} (hplain : v.store? = none) (width : Option Nat)
    (items : List Value) : h.matrixRows? width (v :: items) = .error (.badRow v.kind) := by
  rw [matrixRows?]
  rintro kind id rfl
  exact Option.some_ne_none id hplain

theorem matrixRows?_cons_iff {c : Nat} {v : Value} {items : List Value}
    {rows : List (List Binary64)} :
    h.matrixRows? (some c) (v :: items) = .ok rows ↔ ∃ row rest, h.RowOf v row ∧ row.length = c ∧
      h.matrixRows? (some c) items = .ok rest ∧ rows = row :: rest := by
  obtain ⟨kind, id, rfl⟩ | hplain := seq_or_plain v
  · simp only [matrixRows?, Option.getD_some]
    constructor
    · intro hok
      split at hok
      next => cases hok
      next hlength =>
        obtain ⟨row, hrow, hok⟩ := bind_eq_ok hok
        obtain ⟨rest, hrest, hok⟩ := bind_eq_ok hok
        rw [Value.entries?_eq_ok_iff] at hrow
        have hc : (h.read id).toList.length = c := Classical.not_not.mp hlength
        exact ⟨row, rest, ⟨kind, id, rfl, hrow⟩, hrow.length_eq.symm.trans hc, hrest,
          (Except.ok.inj hok).symm⟩
    · rintro ⟨row, rest, ⟨_, _, ⟨⟩, hrow⟩, hc, hrest, rfl⟩
      rw [if_neg (Classical.not_not.mpr (hrow.length_eq.trans hc)),
        Value.entries?_eq_ok_iff.mpr hrow]
      show (h.matrixRows? (some c) items >>= _) = _
      rw [hrest]
      rfl
  · rw [matrixRows?_of_plain hplain]
    constructor
    · simp
    · rintro ⟨_, _, hrow, -⟩
      exact absurd hplain hrow.store?_ne

theorem matrixRows?_some_iff {c : Nat} {items : List Value} {rows : List (List Binary64)} :
    h.matrixRows? (some c) items = .ok rows ↔
      List.Forall₂ h.RowOf items rows ∧ ∀ row ∈ rows, row.length = c := by
  induction items generalizing rows with
  | nil =>
    rw [matrixRows?, List.forall₂_nil_left_iff, Except.ok.injEq]
    constructor
    · rintro rfl
      simp
    · rintro ⟨rfl, -⟩
      rfl
  | cons v items ih =>
    rw [matrixRows?_cons_iff, List.forall₂_cons_left_iff]
    constructor
    · rintro ⟨row, rest, hrow, hc, hrest, rfl⟩
      rw [ih] at hrest
      exact ⟨⟨row, rest, hrow, hrest.1, rfl⟩, List.forall_mem_cons.mpr ⟨hc, hrest.2⟩⟩
    · rintro ⟨⟨row, rest, hrow, hrest, rfl⟩, hall⟩
      obtain ⟨hc, hall⟩ := List.forall_mem_cons.mp hall
      exact ⟨row, rest, hrow, hc, ih.mpr ⟨hrest, hall⟩, rfl⟩

/-- Without a given width the first row sets it. -/
theorem matrixRows?_none_iff {items : List Value} {rows : List (List Binary64)} :
    h.matrixRows? none items = .ok rows ↔
      List.Forall₂ h.RowOf items rows ∧ ∃ c, ∀ row ∈ rows, row.length = c := by
  obtain _ | ⟨v, items⟩ := items
  · have hnone : h.matrixRows? none [] = h.matrixRows? (some 0) [] := rfl
    rw [hnone, matrixRows?_some_iff, List.forall₂_nil_left_iff]
    constructor
    · rintro ⟨rfl, hall⟩
      exact ⟨rfl, 0, hall⟩
    · rintro ⟨rfl, -⟩
      simp
  obtain ⟨kind, id, rfl⟩ | hplain := seq_or_plain v
  · have hnone : h.matrixRows? none (.seq kind id :: items) =
        h.matrixRows? (some (h.read id).toList.length) (.seq kind id :: items) := rfl
    rw [hnone, matrixRows?_some_iff]
    constructor
    · rintro ⟨hrows, hall⟩
      exact ⟨hrows, _, hall⟩
    · rintro ⟨hrows, c, hall⟩
      refine ⟨hrows, ?_⟩
      obtain ⟨first, rest, ⟨_, _, ⟨⟩, hfirst⟩, -, rfl⟩ := List.forall₂_cons_left_iff.mp hrows
      rw [hfirst.length_eq, hall first (List.mem_cons_self ..)]
      exact hall
  · rw [matrixRows?_of_plain hplain]
    constructor
    · simp
    · rintro ⟨hrows, -⟩
      obtain ⟨_, _, hrow, -⟩ := List.forall₂_cons_left_iff.mp hrows
      exact absurd hplain hrow.store?_ne

/-- **A sequence is read in as a matrix exactly if it has its rows.** -/
theorem matrix?_seq_eq_ok_iff : h.matrix? (.seq kind id) = .ok m ↔
    0 < m.rows ∧ 0 < m.cols ∧ List.Forall₂ h.RowOf (h.read id).toList m.toRows := by
  constructor
  · intro hok
    rw [matrix?] at hok
    obtain ⟨rows, hrows, hok⟩ := bind_eq_ok hok
    obtain ⟨hall, -⟩ := matrixRows?_none_iff.mp hrows
    split at hok
    next => cases hok
    next => cases hok
    next hnil hempty =>
      split at hok
      next o ho =>
        obtain rfl := Except.ok.inj hok
        have htoRows := DenseMatrix.toRows_of_ofRows? ho
        obtain _ | ⟨first, rest⟩ := rows
        · exact absurd rfl hnil
        have hfirst : first ≠ [] := fun heq => hempty rest (heq ▸ rfl)
        refine ⟨?_, ?_, htoRows ▸ hall⟩
        · rw [← o.length_toRows, htoRows]
          exact Nat.succ_pos _
        · rw [← o.length_of_mem_toRows (htoRows ▸ List.mem_cons_self ..)]
          exact List.length_pos_of_ne_nil hfirst
      next => cases hok
  · rintro ⟨hsome, hcols, hall⟩
    have hrows : h.matrixRows? none (h.read id).toList = .ok m.toRows :=
      matrixRows?_none_iff.mpr ⟨hall, m.cols, fun _ => m.length_of_mem_toRows⟩
    have hmatrix : DenseMatrix.ofRows? m.toRows = some m :=
      (DenseMatrix.ofRows?_eq_some_iff hsome).mpr rfl
    obtain ⟨x, xs, rest, heq⟩ := m.exists_cell hsome hcols
    rw [heq] at hrows hmatrix
    simp only [matrix?, hrows, bind, Except.bind, hmatrix]

-- ---------------------------------------------------------------------------
-- Comparing
-- ---------------------------------------------------------------------------

/-- A value is a sequence whose elements are equal to given numbers. -/
def RowEquals (h : Heap) (row : List Binary64) (v : Value) : Prop :=
  ∃ kind id, v = .seq kind id ∧
    List.Forall₂ (fun x w => ∃ y, x.equals y = true ∧ Value.Counts w y) row (h.read id).toList

/-- It is a row of numbers that are equal to them. -/
theorem rowEquals_eq : h.RowEquals = fun row v =>
    ∃ nums, List.Forall₂ (fun x y => x.equals y = true) row nums ∧ h.RowOf v nums := by
  funext row v
  simp only [RowEquals, forall₂_through, eq_iff_iff]
  constructor
  · rintro ⟨kind, id, rfl, nums, heq, hnums⟩
    exact ⟨nums, heq, kind, id, rfl, hnums⟩
  · rintro ⟨nums, heq, kind, id, rfl, hnums⟩
    exact ⟨kind, id, rfl, nums, heq, hnums⟩

theorem isMatrix_iff {v : Value} :
    h.isMatrix m v = true ↔ ∃ o, h.matrix? v = .ok o ∧ m.equal o = true := by
  rw [isMatrix]
  split <;> simp [*]

/-- **A sequence equals a matrix exactly if its elements equal the rows.** -/
theorem isMatrix_seq_iff (hsome : 0 < m.rows) (hcols : 0 < m.cols) :
    h.isMatrix m (.seq kind id) = true ↔
      List.Forall₂ h.RowEquals m.toRows (h.read id).toList := by
  rw [isMatrix_iff, rowEquals_eq, forall₂_through]
  simp only [matrix?_seq_eq_ok_iff, DenseMatrix.equal, DenseMatrix.agree_iff]
  constructor
  · rintro ⟨o, ⟨-, -, hrows⟩, -, hequal⟩
    exact ⟨o.toRows, hequal, hrows⟩
  · rintro ⟨rows, hequal, hrows⟩
    -- the rows read in are as many and as long as those of the matrix
    have hlength : rows.length = m.rows := by rw [← hequal.length_eq, m.length_toRows]
    have hwidth : ∀ row ∈ rows, row.length = m.cols := by
      intro row hrow
      obtain ⟨own, hown, hpair⟩ := forall₂_mem_right hequal hrow
      rw [← hpair.length_eq, m.length_of_mem_toRows hown]
    obtain ⟨o, rfl, hc⟩ := DenseMatrix.exists_toRows (List.ne_nil_of_length_pos (hlength ▸ hsome))
      hwidth
    rw [o.length_toRows] at hlength
    exact ⟨o, ⟨hlength ▸ hsome, hc ▸ hcols, hrows⟩, hc.symm, hequal⟩

theorem pairwise_iff {same : Value → Value → Bool} {vs ws : List Value} :
    pairwise same vs ws = true ↔ List.Forall₂ (fun v w => same v w = true) vs ws := by
  induction vs generalizing ws with
  | nil => cases ws <;> simp [pairwise]
  | cons v vs ih => cases ws <;> simp [pairwise, ih]

/-- A value is an array of given numbers. -/
def ArrayOf (h : Heap) (v : Value) (row : List Binary64) : Prop :=
  ∃ id, v = .seq .array id ∧ (h.read id).toList = row.map .float

theorem ArrayOf.rowOf {v : Value} {row : List Binary64} (hv : h.ArrayOf v row) :
    h.RowOf v row := by
  obtain ⟨id, rfl, hread⟩ := hv
  refine ⟨.array, id, rfl, ?_⟩
  rw [hread, List.forall₂_map_left_iff, List.forall₂_same]
  exact fun _ _ => rfl

/-- A number equals what is an equal number. -/
theorem equalWithin_float (depth : Nat) (x : Binary64) (w : Value) :
    h.equalWithin depth (.float x) w = true ↔ ∃ y, x.equals y = true ∧ w.Counts y := by
  rw [equalWithin_of_plain (Or.inl rfl)]
  cases w <;> simp [equalWithin, Value.plainEqual, Value.Counts, Value.number?]

/-- An array of numbers equals a sequence of equal numbers, and nothing else. -/
theorem equalWithin_row {v w : Value} {row : List Binary64} (hv : h.ArrayOf v row)
    (hapart : v.store? ≠ w.store?) (depth : Nat) :
    h.equalWithin (depth + 1) v w = true ↔ h.RowEquals row w := by
  obtain ⟨a, rfl, hread⟩ := hv
  cases w with
  | seq kind b =>
    have hne : (a == b) = false := beq_false_of_ne fun heq => hapart (congrArg some heq)
    rw [equalWithin, hne, Bool.false_or, pairwise_iff, hread, List.forall₂_map_left_iff]
    simp [equalWithin_float, RowEquals]
  | matrix o =>
    -- numbers are no rows, so that an array of them is not read in
    have hno : h.isMatrix o (.seq .array a) = false := by
      rw [← Bool.not_eq_true, isMatrix_iff]
      rintro ⟨o, hok, -⟩
      obtain ⟨hrows, hcols, hall⟩ := matrix?_seq_eq_ok_iff.mp hok
      obtain ⟨x, xs, rest, heq⟩ := o.exists_cell hrows hcols
      rw [hread, heq, List.forall₂_map_left_iff] at hall
      obtain ⟨_, _, hfirst, -⟩ := List.forall₂_cons_right_iff.mp hall
      exact hfirst.store?_ne rfl
    simp [equalWithin, hno, RowEquals]
  | _ => simp [equalWithin, Value.plainEqual, Value.number?, RowEquals]

theorem forall₂_equalWithin {vs ws : List Value} {rows : List (List Binary64)}
    (hrows : List.Forall₂ h.ArrayOf vs rows)
    (hapart : ∀ v ∈ vs, ∀ w ∈ ws, v.store? ≠ w.store?) (depth : Nat) :
    List.Forall₂ (fun v w => h.equalWithin (depth + 1) v w = true) vs ws ↔
      List.Forall₂ h.RowEquals rows ws := by
  induction hrows generalizing ws with
  | nil => rw [List.forall₂_nil_left_iff, List.forall₂_nil_left_iff]
  | @cons v row vs rows hv _ ih =>
    cases ws with
    | nil => simp
    | cons w ws =>
      have hrow := equalWithin_row hv (hapart v (by simp) w (by simp)) depth
      have hrest := ih fun x hx y hy =>
        hapart x (List.mem_cons_of_mem _ hx) y (List.mem_cons_of_mem _ hy)
      rw [List.forall₂_cons, List.forall₂_cons, hrow, hrest]

/-- **An array of the rows equals a sequence exactly if its elements equal the rows,** unless the
two share a store. -/
theorem equalWithin_rows {a : SeqId} {rows : List (List Binary64)}
    (hrows : List.Forall₂ h.ArrayOf (h.read a).toList rows) (hne : a ≠ id)
    (hapart : ∀ v ∈ h.read a, ∀ w ∈ h.read id, v.store? ≠ w.store?) (depth : Nat) :
    h.equalWithin (depth + 2) (.seq .array a) (.seq kind id) = true ↔
      List.Forall₂ h.RowEquals rows (h.read id).toList := by
  simp only [← Array.mem_toList_iff] at hapart
  rw [equalWithin, beq_false_of_ne hne, Bool.false_or, pairwise_iff,
    forall₂_equalWithin hrows hapart]

-- ---------------------------------------------------------------------------
-- The array of the rows
-- ---------------------------------------------------------------------------

/-- Row `i` of a matrix as a new array. -/
def newRow (h : Heap) (m : DenseMatrix Binary64) (i : Nat) : Value × Heap :=
  h.newSeq .array (((m.row? i).getD []).map .float)

/-- Some rows of a matrix, one new array after another. -/
def newRows (h : Heap) (m : DenseMatrix Binary64) : List Nat → List Value × Heap
  | [] => ([], h)
  | i :: is =>
    let (v, h) := h.newRow m i
    let (vs, h) := h.newRows m is
    (v :: vs, h)

/-- The array of all rows of a matrix. -/
def rowArray (h : Heap) (m : DenseMatrix Binary64) : Value × Heap :=
  let (vs, h) := h.newRows m (List.range m.rows)
  h.newSeq .array vs

/-- Indexing a matrix gives such a row. -/
theorem elementAt_matrix {line i : Nat} {index : Value} (hindex : indexIn m.rows index = .ok i)
    (s : Machine) : ∃ s', elementAt line (.matrix m) index s = .ok (s.heap.newRow m i).1 s' ∧
      s'.heap = (s.heap.newRow m i).2 := by
  rw [elementAt, hindex]
  exact ⟨_, rfl, rfl⟩

/-- `vs` are arrays of given numbers, made while the heap `h` grew to `h'`. -/
structure MadeRows (h : Heap) (vs : List Value) (rows : List (List Binary64)) (h' : Heap) :
    Prop where
  grows : h.Grows h'
  arrays : List.Forall₂ h'.ArrayOf vs rows
  made : ∀ v ∈ vs, ∃ id, v.store? = some id ∧ h.size ≤ id ∧ id < h'.size

theorem ArrayOf.later {h' : Heap} {v : Value} {row : List Binary64} (hv : h.ArrayOf v row)
    (hknown : h.Known v) (hgrows : h.Grows h') : h'.ArrayOf v row := by
  obtain ⟨id, rfl, hread⟩ := hv
  exact ⟨id, rfl, by rw [hgrows.read id (hknown id rfl), hread]⟩

theorem rowEquals_later {h' : Heap} {row : List Binary64} {v : Value} (hknown : h.Known v)
    (hgrows : h.Grows h') : h'.RowEquals row v ↔ h.RowEquals row v := by
  constructor
  all_goals
    rintro ⟨kind, id, rfl, hall⟩
    refine ⟨kind, id, rfl, ?_⟩
    have hread := hgrows.read id (hknown id rfl)
  · rwa [← hread]
  · rwa [hread]

/-- Whether a sequence equals a matrix does not change when the heap grows. -/
theorem isMatrix_later {h' : Heap} (hsome : 0 < m.rows) (hcols : 0 < m.cols) (hid : id < h.size)
    (hknown : ∀ v ∈ h.read id, h.Known v) (hgrows : h.Grows h') :
    h'.isMatrix m (.seq kind id) = h.isMatrix m (.seq kind id) := by
  rw [Bool.eq_iff_iff, isMatrix_seq_iff hsome hcols, isMatrix_seq_iff hsome hcols,
    hgrows.read id hid]
  constructor
  all_goals
    intro hall
    apply forall₂_imp_mem hall
    intro row _ v hv
    have hlater := @rowEquals_later _ h' row v (hknown v (Array.mem_toList_iff.mp hv)) hgrows
  · exact hlater.mp
  · exact hlater.mpr

theorem arrayOf_newRow (h : Heap) (m : DenseMatrix Binary64) (i : Nat) :
    (h.newRow m i).2.ArrayOf (h.newRow m i).1 ((m.row? i).getD []) := by
  refine ⟨h.size, rfl, ?_⟩
  rw [newRow, read_newSeq, if_pos rfl]

theorem madeRows_newRows (h : Heap) (m : DenseMatrix Binary64) (is : List Nat) :
    h.MadeRows (h.newRows m is).1 (is.map fun i => (m.row? i).getD []) (h.newRows m is).2 := by
  induction is generalizing h with
  | nil => exact ⟨.refl h, .nil, by simp [newRows]⟩
  | cons i is ih =>
    have hfirst : h.Grows (h.newRow m i).2 := .newSeq h _ _
    have hsize : (h.newRow m i).2.size = h.size + 1 := by simp [newRow]
    have hrest := ih (h.newRow m i).2
    have hknown : (h.newRow m i).2.Known (h.newRow m i).1 := by
      rintro _ ⟨⟩
      exact hsize ▸ Nat.lt_succ_self _
    have hle := hrest.grows.size_le
    refine ⟨hfirst.trans hrest.grows, .cons ?_ hrest.arrays, ?_⟩
    · exact (arrayOf_newRow h m i).later hknown hrest.grows
    · intro v hv
      obtain rfl | hv := List.mem_cons.mp hv
      · exact ⟨h.size, rfl, Nat.le_refl _, Nat.lt_of_lt_of_le (hknown _ rfl) hle⟩
      · obtain ⟨id, hid, hge, hlt⟩ := hrest.made v hv
        exact ⟨id, hid, Nat.le_trans hfirst.size_le hge, hlt⟩

theorem exists_rowArray (h : Heap) (m : DenseMatrix Binary64) :
    ∃ a, (h.rowArray m).1 = .seq .array a ∧ h.size ≤ a ∧
      h.MadeRows ((h.rowArray m).2.read a).toList m.toRows (h.rowArray m).2 := by
  have hrows := madeRows_newRows h m (List.range m.rows)
  rw [DenseMatrix.map_row?] at hrows
  generalize hvs : (h.newRows m (List.range m.rows)).1 = vs at hrows
  generalize hh₁ : (h.newRows m (List.range m.rows)).2 = h₁ at hrows
  have harray : h.rowArray m = h₁.newSeq .array vs := by
    rw [← hvs, ← hh₁]
    rfl
  have hgrows : h₁.Grows (h₁.newSeq .array vs).2 := .newSeq h₁ _ _
  refine ⟨h₁.size, by rw [harray]; rfl, hrows.grows.size_le, ?_⟩
  rw [harray, read_newSeq, if_pos rfl]
  have hknown : ∀ v ∈ vs, h₁.Known v := by
    intro v hv id hid
    obtain ⟨_, hid', -, hlt⟩ := hrows.made v hv
    exact Option.some.inj (hid.symm.trans hid') ▸ hlt
  refine ⟨hrows.grows.trans hgrows, ?_, ?_⟩
  · exact forall₂_imp_mem hrows.arrays fun v hv row _ harr => harr.later (hknown v hv) hgrows
  · intro v hv
    obtain ⟨id, hid, hge, hlt⟩ := hrows.made v hv
    exact ⟨id, hid, hge, Nat.lt_of_lt_of_le hlt hgrows.size_le⟩

end Heap

open Heap

/-- **A matrix compares as the array of its rows.** For every matrix with a row and a column and
every array or list, of anything:
* the sequence equals the matrix exactly if it equals the array of the matrix's rows, made anew
  beside it;
* making that array does not change what the matrix equals;
* taking that array for a matrix gives the matrix itself;
* the rows in it are made as those that indexing the matrix gives.

The heap may be any in which the sequence is there, and so are the stores of its elements. -/
theorem matrix_equals_rows {h : Heap} {m : DenseMatrix Binary64} (hrows : 0 < m.rows)
    (hcols : 0 < m.cols) {kind : SeqKind} {id : SeqId} (hid : id < h.size)
    (hknown : ∀ v ∈ h.read id, h.Known v) :
    (h.rowArray m).2.equal (.matrix m) (.seq kind id) =
        (h.rowArray m).2.equal (h.rowArray m).1 (.seq kind id) ∧
      h.equal (.matrix m) (.seq kind id) = (h.rowArray m).2.equal (.matrix m) (.seq kind id) ∧
      (h.rowArray m).2.matrix? (h.rowArray m).1 = .ok m ∧
      ∀ (line i : Nat) (index : Value) (s : Machine), indexIn m.rows index = .ok i →
        ∃ s', elementAt line (.matrix m) index s = .ok (s.heap.newRow m i).1 s' ∧
          s'.heap = (s.heap.newRow m i).2 := by
  obtain ⟨a, harray, hge, hmade⟩ := h.exists_rowArray m
  rw [harray]
  generalize (h.rowArray m).2 = h' at hmade
  have hread := hmade.grows.read id hid
  refine ⟨?_, (isMatrix_later hrows hcols hid hknown hmade.grows).symm, ?_, ?_⟩
  · have hapart : ∀ v ∈ h'.read a, ∀ w ∈ h'.read id, v.store? ≠ w.store? := by
      intro v hv w hw heq
      obtain ⟨b, hb, hnew, -⟩ := hmade.made v (Array.mem_toList_iff.mpr hv)
      have hold := hknown w (hread ▸ hw) b (heq ▸ hb)
      exact Nat.not_lt_of_le hnew hold
    obtain ⟨depth, hdepth⟩ :=
      Nat.exists_eq_succ_of_ne_zero (Nat.ne_zero_of_lt (hid.trans_le hmade.grows.size_le))
    have hne : a ≠ id := Nat.ne_of_gt (hid.trans_le hge)
    rw [Bool.eq_iff_iff, Heap.equal, Heap.equal, hdepth,
      equalWithin_rows hmade.arrays hne hapart depth]
    exact isMatrix_seq_iff hrows hcols
  · exact matrix?_seq_eq_ok_iff.mpr ⟨hrows, hcols, hmade.arrays.imp fun _ _ harr => harr.rowOf⟩
  · intro line i index s hindex
    exact elementAt_matrix hindex s

/-- The list of the list of `1` and `2.0` equals the matrix of these numbers, and so it equals the
array of that matrix's row. -/
theorem matrix_equals_rows_mixed :
    let h : Heap := ⟨#[#[.int 1, .float 2.0], #[.seq .list 0]]⟩
    let m : DenseMatrix Binary64 := .ofFn 1 2 fun _ j => if j = 0 then 1.0 else 2.0
    0 < m.rows ∧ 0 < m.cols ∧ 1 < h.size ∧ (∀ v ∈ h.read 1, h.Known v) ∧
      (h.rowArray m).2.equal (h.rowArray m).1 (.seq .list 1) = true ∧
      (h.rowArray m).2.matrix? (h.rowArray m).1 = .ok m := by
  intro h m
  have hsize : 1 < h.size := by decide
  have hknown : ∀ v ∈ h.read 1, h.Known v := by
    intro v hv
    obtain rfl : v = .seq .list 0 := Array.mem_singleton.mp hv
    rintro _ ⟨⟩
    decide
  have hequal : h.equal (.matrix m) (.seq .list 1) = true := by decide +kernel
  have hrows : 0 < m.rows := by decide
  have hcols : 0 < m.cols := by decide
  obtain ⟨hsame, hkept, hback, -⟩ :=
    @matrix_equals_rows h m hrows hcols .list 1 hsize hknown
  exact ⟨hrows, hcols, hsize, hknown, by rw [← hsame, ← hkept, hequal], hback⟩

end SeqScript
