import Mathlib.Data.List.Induction
import Mathlib.Data.List.Perm.Basic
import SeqScript.Sequence.StableSort

/-!
# Sorted rows

What it means that one row is another one sorted, for a comparison that may or may not be
an order. Whatever the comparison says, the elements are the same (`Kept.perm`). If it is
an order (`Consistent`), elements that tie stand as they stood (`Kept.classes`), and none
stands before a lesser one (`Ascending`). These together leave one row only
(`Sorts.unique`), so that two ways of sorting by an order need not be compared.

* `sorts_insertAll` — insertion sorts.
* `sorts_merge` — two sorted rows merged are sorted, from whichever end.
-/

namespace SeqScript.Sequence

variable {α : Type} {less : α → α → Bool} {a b x y : α} {xs ys zs l r : List α}

-- ---------------------------------------------------------------------------
-- Comparisons that are orders
-- ---------------------------------------------------------------------------

/-- The comparison is a strict order of classes of elements. -/
structure Consistent (less : α → α → Bool) : Prop where
  asymm {a b : α} : less a b = true → less b a = false
  trans {a b c : α} : less a b = false → less b c = false → less a c = false

/-- Neither element is less than the other. -/
def tie (less : α → α → Bool) (a b : α) : Bool := !less a b && !less b a

namespace Consistent

variable (h : Consistent less)

include h

/-- Nothing is less than itself. -/
theorem irrefl (a : α) : less a a = false := by
  by_contra ha
  rw [Bool.not_eq_false] at ha
  exact Bool.false_ne_true ((h.asymm ha).symm.trans ha)

theorem tie_self (a : α) : tie less a a = true := by
  rw [tie, h.irrefl a]
  rfl

/-- What is less than an element is less than all that are not less than that. -/
theorem less_of_less_of_not (hab : less a b = true) (hcb : less x b = false) :
    less a x = true := by
  by_contra hax
  rw [Bool.not_eq_true] at hax
  exact Bool.false_ne_true ((h.trans hax hcb).symm.trans hab)

theorem less_of_not_of_less (hba : less b a = false) (hbc : less b x = true) :
    less a x = true := by
  by_contra hax
  rw [Bool.not_eq_true] at hax
  exact Bool.false_ne_true ((h.trans hba hax).symm.trans hbc)

/-- The comparison the other way round orders too. -/
theorem flip : Consistent fun a b => less b a where
  asymm := h.asymm
  trans hab hbc := h.trans hbc hab

/-- Of two elements that do not tie, at most one ties with a third. -/
theorem tie_eq_false (hab : less a b = true ∨ less b a = true) (ha : tie less x a = true) :
    tie less x b = false := by
  by_contra hb
  simp only [tie, Bool.not_eq_false, Bool.and_eq_true, Bool.not_eq_true'] at ha hb
  rcases hab with hab | hab
  · exact Bool.false_ne_true ((h.trans ha.2 hb.1).symm.trans hab)
  · exact Bool.false_ne_true ((h.trans hb.2 ha.1).symm.trans hab)

end Consistent

/-- The opposite comparison has the same ties. -/
theorem tie_flip (less : α → α → Bool) : tie (fun a b => less b a) = tie less := by
  funext a b
  exact Bool.and_comm ..

-- ---------------------------------------------------------------------------
-- Rearranging
-- ---------------------------------------------------------------------------

/-- A row has been rearranged, and elements that tie have kept their order. -/
structure Kept (less : α → α → Bool) (xs ys : List α) : Prop where
  perm : ys.Perm xs
  classes : Consistent less → ∀ e, ys.filter (tie less e) = xs.filter (tie less e)

namespace Kept

theorem refl (xs : List α) : Kept less xs xs := ⟨.refl xs, fun _ _ => rfl⟩

theorem symm (h : Kept less xs ys) : Kept less ys xs :=
  ⟨h.perm.symm, fun hless e => (h.classes hless e).symm⟩

/-- Rearranging twice is rearranging. -/
theorem trans (h : Kept less xs ys) (h' : Kept less ys zs) : Kept less xs zs :=
  ⟨h'.perm.trans h.perm, fun hless e => (h'.classes hless e).trans (h.classes hless e)⟩

/-- Rows side by side are rearranged side by side. -/
theorem append {xs' ys' : List α} (h : Kept less xs ys) (h' : Kept less xs' ys') :
    Kept less (xs ++ xs') (ys ++ ys') := by
  refine ⟨h.perm.append h'.perm, ?_⟩
  intro hless e
  rw [List.filter_append, List.filter_append, h.classes hless, h'.classes hless]

theorem cons (x : α) (h : Kept less xs ys) : Kept less (x :: xs) (x :: ys) :=
  (refl [x]).append h

theorem reverse (h : Kept less xs ys) : Kept less xs.reverse ys.reverse := by
  refine ⟨(List.reverse_perm ys).trans (h.perm.trans (List.reverse_perm xs).symm), ?_⟩
  intro hless e
  rw [List.filter_reverse, List.filter_reverse, h.classes hless]

theorem of_flip (h : Kept (fun a b => less b a) xs ys) : Kept less xs ys := by
  refine ⟨h.perm, ?_⟩
  intro hless
  rw [← tie_flip less]
  exact h.classes hless.flip

/-- **An element may pass others as long as it ties with none of them.** -/
theorem pass (hapart : Consistent less → ∀ a ∈ l, less x a = true ∨ less a x = true) :
    Kept less (l ++ x :: r) (x :: (l ++ r)) := by
  refine ⟨List.perm_middle.symm, ?_⟩
  intro hless e
  rw [List.filter_cons, List.filter_append, List.filter_append, List.filter_cons]
  split
  · next hx =>
    have hnone : l.filter (tie less e) = [] := by
      rw [List.filter_eq_nil_iff]
      intro a ha
      rw [hless.tie_eq_false (hapart hless a ha) hx]
      exact Bool.false_ne_true
    rw [hnone]
    rfl
  · rfl

theorem mem_iff (h : Kept less xs ys) : a ∈ ys ↔ a ∈ xs := h.perm.mem_iff

theorem length_eq (h : Kept less xs ys) : ys.length = xs.length := h.perm.length_eq

end Kept

/-- No element stands before a lesser one, provided that the comparison is an order. -/
def Ascending (less : α → α → Bool) (xs : List α) : Prop :=
  Consistent less → xs.Pairwise fun a b => less b a = false

/-- A row of one element has no other arrangement. -/
theorem eq_of_perm_of_short (h : ys.Perm xs) (hshort : xs.length ≤ 1) : ys = xs := by
  rcases xs with _ | ⟨x, _ | ⟨x', xs⟩⟩
  · exact h.eq_nil
  · exact h.eq_singleton
  · simp at hshort

theorem ascending_of_short (h : xs.length ≤ 1) : Ascending less xs := by
  intro
  rw [List.pairwise_iff_getElem]
  intro i j _ _ _
  omega

/-- The second row is the first one sorted. -/
structure Sorts (less : α → α → Bool) (xs ys : List α) : Prop where
  kept : Kept less xs ys
  ascending : Ascending less ys

/-- Backwards, and by the opposite comparison, a row is as sorted as before. -/
theorem ascending_flip_reverse (h : Ascending less xs) :
    Ascending (fun a b => less b a) xs.reverse := by
  intro hless
  rw [List.pairwise_reverse]
  exact h hless.flip

namespace Sorts

/-- A row that has been rearranged before it is sorted. -/
theorem of_kept (h : Kept less xs ys) (h' : Sorts less ys zs) : Sorts less xs zs :=
  ⟨h.trans h'.kept, h'.ascending⟩

/-- What rearranges a row and, with an order, is the sorted row. -/
theorem of_eq (h : Sorts less xs zs) (hperm : ys.Perm xs) (heq : Consistent less → ys = zs) :
    Sorts less xs ys := by
  refine ⟨⟨hperm, fun hless => ?_⟩, fun hless => ?_⟩
  · rw [heq hless]
    exact h.kept.classes hless
  · rw [heq hless]
    exact h.ascending hless

/-- Sorting the reverse row from the greatest down. -/
theorem of_flip (h : Sorts (fun a b => less b a) xs.reverse ys) : Sorts less xs ys.reverse := by
  refine ⟨?_, ascending_flip_reverse h.ascending⟩
  have hkept := h.kept.of_flip.reverse
  rwa [List.reverse_reverse] at hkept

private theorem mem_iff_of_classes (hless : Consistent less)
    (hclasses : ∀ e, ys.filter (tie less e) = zs.filter (tie less e)) : a ∈ ys ↔ a ∈ zs := by
  have hfilter := congrArg (a ∈ ·) (hclasses a)
  simpa only [List.mem_filter, hless.tie_self a, and_true, eq_iff_iff] using hfilter

/-- Two rows in order with the same classes have the same first element, hence the same
others. -/
private theorem eq_of_classes (hless : Consistent less)
    (hclasses : ∀ e, ys.filter (tie less e) = zs.filter (tie less e))
    (hy : ys.Pairwise fun a b => less b a = false)
    (hz : zs.Pairwise fun a b => less b a = false) : ys = zs := by
  induction ys generalizing zs with
  | nil =>
    rcases zs with _ | ⟨z, zs⟩
    · rfl
    · exact absurd ((mem_iff_of_classes hless hclasses).mpr List.mem_cons_self) List.not_mem_nil
  | cons y ys ih =>
    rcases zs with _ | ⟨z, zs⟩
    · exact absurd ((mem_iff_of_classes hless hclasses).mp List.mem_cons_self) List.not_mem_nil
    · obtain ⟨hy, hys⟩ := List.pairwise_cons.mp hy
      obtain ⟨hz, hzs⟩ := List.pairwise_cons.mp hz
      -- each of the two first elements occurs in the other row, behind its first
      have hyz : less y z = false := by
        rcases List.mem_cons.mp
          ((mem_iff_of_classes hless hclasses).mp List.mem_cons_self) with rfl | hmem
        · exact hless.irrefl _
        · exact hz y hmem
      have hzy : less z y = false := by
        rcases List.mem_cons.mp
          ((mem_iff_of_classes hless hclasses).mpr List.mem_cons_self) with rfl | hmem
        · exact hless.irrefl _
        · exact hy z hmem
      have hfirst := hclasses y
      rw [List.filter_cons_of_pos (hless.tie_self y),
        List.filter_cons_of_pos (by rw [tie, hyz, hzy]; rfl)] at hfirst
      obtain ⟨rfl, -⟩ := List.cons.inj hfirst
      have hrest : ∀ e, ys.filter (tie less e) = zs.filter (tie less e) := by
        intro e
        have hboth := hclasses e
        rw [List.filter_cons, List.filter_cons] at hboth
        split at hboth
        · exact (List.cons.inj hboth).2
        · exact hboth
      rw [ih hrest hys hzs]

/-- **There is one way to sort by an order.** -/
theorem unique (hless : Consistent less) (h : Sorts less xs ys) (h' : Sorts less xs zs) :
    ys = zs :=
  eq_of_classes hless
    (fun e => (h.kept.classes hless e).trans (h'.kept.classes hless e).symm)
    (h.ascending hless) (h'.ascending hless)

/-- Elements that tie stand in the order in which they stood. -/
theorem stable {before : α → α → Prop} (h : Sorts less xs ys) (hless : Consistent less)
    (hxs : xs.Pairwise before) :
    ys.Pairwise fun a b => less a b = true ∨ tie less a b = true ∧ before a b := by
  rw [List.pairwise_iff_forall_sublist]
  intro a b hab
  have hba := List.pairwise_iff_forall_sublist.mp (h.ascending hless) hab
  cases hlt : less a b with
  | true => exact Or.inl rfl
  | false =>
    have htie : tie less a b = true := by rw [tie, hlt, hba]; rfl
    have hclass : [a, b].Sublist (xs.filter (tie less a)) := by
      rw [← h.kept.classes hless a]
      have hfilter := hab.filter (tie less a)
      rwa [List.filter_cons_of_pos (hless.tie_self a), List.filter_cons_of_pos htie,
        List.filter_nil] at hfilter
    exact Or.inr ⟨htie, List.pairwise_iff_forall_sublist.mp (hxs.filter _) hclass⟩

end Sorts

-- ---------------------------------------------------------------------------
-- Insertion
-- ---------------------------------------------------------------------------

/-- An element is put behind its equals. -/
theorem insertBelow_kept (less : α → α → Bool) (x : α) (down : List α) :
    Kept less (x :: down) (insertBelow less x down) := by
  induction down with
  | nil => exact .refl _
  | cons y ys ih =>
    rw [insertBelow]
    split
    · next hlt =>
      have hpass : Kept less ([x] ++ y :: ys) (y :: ([x] ++ ys)) :=
        .pass fun _ a ha => Or.inr (List.mem_singleton.mp ha ▸ hlt)
      exact hpass.trans (ih.cons y)
    · exact .refl _

theorem insertBelow_perm (less : α → α → Bool) (x : α) (down : List α) :
    (insertBelow less x down).Perm (x :: down) := (insertBelow_kept less x down).perm

/-- The last of a row is put into what the sort has made of those before it. -/
theorem reverse_insertAll_concat (less : α → α → Bool) (sorted xs : List α) (x : α) :
    (insertAll less sorted (xs ++ [x])).reverse =
      insertBelow less x (insertAll less sorted xs).reverse := by
  simp only [insertAll, List.foldl_append, List.foldl_cons, List.foldl_nil, List.reverse_reverse]

theorem insertAll_nil (less : α → α → Bool) (sorted : List α) :
    insertAll less sorted [] = sorted := List.reverse_reverse sorted

/-- The run lemma of insertion. -/
theorem insertAll_kept (less : α → α → Bool) (sorted xs : List α) :
    Kept less (sorted ++ xs) (insertAll less sorted xs) := by
  induction xs using List.reverseRecOn with
  | nil =>
    rw [insertAll_nil, List.append_nil]
    exact .refl _
  | append_singleton xs x ih =>
    have hlast := (insertBelow_kept less x (insertAll less sorted xs).reverse).reverse
    rw [← reverse_insertAll_concat, List.reverse_reverse, List.reverse_cons,
      List.reverse_reverse] at hlast
    rw [← List.append_assoc]
    exact (ih.append (.refl [x])).trans hlast

/-- **Sorting rearranges**, whatever the comparison says. -/
theorem sortBy_perm (less : α → α → Bool) (xs : List α) : (sortBy less xs).Perm xs :=
  (insertAll_kept less [] xs).perm

/-- The comparison puts `x` on the right side of `y`, which came before it. -/
def Placed (less : α → α → Bool) (before : α → α → Prop) (y x : α) : Prop :=
  if less x y = true then before x y else before y x

section

variable {before : α → α → Prop} (htrans : ∀ a b c, before a b → before b c → before a c)

include htrans

/-- One element put into a row that is sorted from the greatest down. -/
theorem pairwise_insertBelow (hsorted : l.Pairwise fun a b => before b a)
    (hx : ∀ y ∈ l, Placed less before y x) :
    (insertBelow less x l).Pairwise fun a b => before b a := by
  induction l with
  | nil => exact List.pairwise_singleton _ x
  | cons y ys ih =>
    obtain ⟨hy, hys⟩ := List.pairwise_cons.mp hsorted
    obtain ⟨hxy, hxys⟩ := List.forall_mem_cons.mp hx
    rw [Placed] at hxy
    rw [insertBelow]
    split
    · next hless =>
      -- `x` goes further down, and all that is there stands before `y`
      rw [if_pos hless] at hxy
      refine List.pairwise_cons.mpr ⟨?_, ih hys hxys⟩
      intro z hz
      rcases List.mem_cons.mp ((insertBelow_perm less x ys).mem_iff.mp hz) with rfl | hz
      · exact hxy
      · exact hy z hz
    · next hless =>
      rw [if_neg hless] at hxy
      refine List.pairwise_cons.mpr ⟨?_, hsorted⟩
      intro z hz
      rcases List.mem_cons.mp hz with rfl | hz
      · exact hxy
      · exact htrans _ _ _ (hy z hz) hxy

/-- **A row is in order once each element has been put where it belongs among those
before it.** -/
theorem pairwise_insertAll (hsorted : l.Pairwise before)
    (h : (l ++ xs).Pairwise (Placed less before)) : (insertAll less l xs).Pairwise before := by
  rw [← List.pairwise_reverse]
  induction xs using List.reverseRecOn with
  | nil =>
    rw [insertAll_nil, List.pairwise_reverse]
    exact hsorted
  | append_singleton xs x ih =>
    rw [← List.append_assoc] at h
    obtain ⟨hxs, -, hx⟩ := List.pairwise_append.mp h
    rw [reverse_insertAll_concat]
    refine pairwise_insertBelow htrans (ih hxs) ?_
    intro y hy
    rw [List.mem_reverse, (insertAll_kept less l xs).mem_iff] at hy
    exact hx y hy x (List.mem_singleton_self x)

/-- A relation that insertion establishes between neighbours holds of the whole row. -/
theorem pairwise_sortBy (h : xs.Pairwise (Placed less before)) :
    (sortBy less xs).Pairwise before :=
  pairwise_insertAll htrans .nil h

end

/-- **Insertion into a sorted row sorts.** -/
theorem sorts_insertAll (hl : Ascending less l) (xs : List α) :
    Sorts less (l ++ xs) (insertAll less l xs) := by
  refine ⟨insertAll_kept less l xs, ?_⟩
  intro hless
  have hplaced : ∀ y x, Placed less (fun a b => less b a = false) y x := by
    intro y x
    rw [Placed]
    split
    · next hlt => exact hless.asymm hlt
    · next hnot => exact Bool.not_eq_true _ ▸ hnot
  exact pairwise_insertAll (fun a b c hba hcb => hless.trans hcb hba) (hl hless)
    (List.pairwise_of_forall hplaced)

/-- Insertion into the empty row. -/
theorem sorts_sortBy (less : α → α → Bool) (xs : List α) : Sorts less xs (sortBy less xs) :=
  sorts_insertAll (fun _ => .nil) xs

/-- The comparison sees the keys only. -/
theorem map_insertBelow {β : Type} (f : β → α) (x : β) (sorted : List β) :
    (insertBelow (fun p q => less (f p) (f q)) x sorted).map f =
      insertBelow less (f x) (sorted.map f) := by
  induction sorted with
  | nil => rfl
  | cons y ys ih =>
    rw [insertBelow, List.map_cons, insertBelow]
    split
    · rw [List.map_cons, ih]
    · rfl

/-- What elements carry along does not matter to the sort. -/
theorem map_sortBy {β : Type} (less : α → α → Bool) (f : β → α) (xs : List β) :
    (sortBy (fun p q => less (f p) (f q)) xs).map f = sortBy less (xs.map f) := by
  have hconcat {γ : Type} (less : γ → γ → Bool) (xs : List γ) (x : γ) :
      (sortBy less (xs ++ [x])).reverse = insertBelow less x (sortBy less xs).reverse :=
    reverse_insertAll_concat less [] xs x
  induction xs using List.reverseRecOn with
  | nil => rfl
  | append_singleton xs x ih =>
    rw [← List.reverse_inj, ← List.map_reverse, hconcat, map_insertBelow, List.map_reverse, ih,
      List.map_append, List.map_singleton, hconcat]

-- ---------------------------------------------------------------------------
-- Merging
-- ---------------------------------------------------------------------------

/-- An element of the right row that goes first is less than all of the left one. -/
theorem merge_kept (hl : Ascending less l) (r : List α) :
    Kept less (l ++ r) (List.merge l r fun a b => !less b a) := by
  induction l generalizing r with
  | nil =>
    rw [List.nil_merge]
    exact .refl _
  | cons x xs ih =>
    have hxs : Ascending less xs := fun hless => (hl hless).of_cons
    induction r with
    | nil =>
      rw [List.merge_right, List.append_nil]
      exact .refl _
    | cons y ys ihr =>
      rw [List.cons_merge_cons]
      split
      · exact (ih hxs (y :: ys)).cons x
      · next htaken =>
        have hyx : less y x = true := by simpa using htaken
        have hpass : Kept less (x :: xs ++ y :: ys) (y :: (x :: xs ++ ys)) := by
          refine .pass ?_
          intro hless a ha
          refine Or.inl ?_
          rcases List.mem_cons.mp ha with rfl | ha
          · exact hyx
          · exact hless.less_of_less_of_not hyx ((List.pairwise_cons.mp (hl hless)).1 a ha)
        exact hpass.trans (ihr.cons y)

/-- Two sorted rows merged from the front. -/
theorem sorts_listMerge (hl : Ascending less l) (hr : Ascending less r) :
    Sorts less (l ++ r) (List.merge l r fun a b => !less b a) := by
  refine ⟨merge_kept hl r, ?_⟩
  intro hless
  have hnot : ∀ a b, ((!less b a) = true) = (less b a = false) := fun a b => by simp
  have hmerged := @List.pairwise_merge α (fun a b => !less b a) ?_ ?_ l r
  · simp only [hnot] at hmerged
    exact hmerged (hl hless) (hr hless)
  · simp only [hnot]
    exact fun a b c hab hbc => hless.trans hbc hab
  · intro a b
    cases hab : less a b with
    | false => simp
    | true => simp [hless.asymm hab]

/-- Two sorted rows merged from the back, which is the same under the opposite comparison. -/
theorem sorts_listMerge_reverse (hl : Ascending less l) (hr : Ascending less r) :
    Sorts less (l ++ r) (List.merge r.reverse l.reverse fun b a => !less b a).reverse := by
  refine .of_flip ?_
  rw [List.reverse_append]
  exact sorts_listMerge (ascending_flip_reverse hr) (ascending_flip_reverse hl)

/-- **Merging sorted rows sorts**, from whichever end. -/
theorem sorts_merge (hl : Ascending less l) (hr : Ascending less r) :
    Sorts less (l ++ r) (merge less l r) := by
  unfold merge
  split
  · exact sorts_listMerge hl hr
  · exact sorts_listMerge_reverse hl hr

end SeqScript.Sequence
