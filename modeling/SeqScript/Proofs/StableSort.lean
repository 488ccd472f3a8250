import Mathlib.Data.List.FinRange
import SeqScript.Proofs.Arrangement

/-!
# The sort by stretches

If the comparison is an order, the sort has a result, and it is the row sorted. If it is
none, there may be no result, but if there is one it is a rearrangement all the same. Both
are carried through the sort together: `Gives` says of a step that it has a result if the
comparison is an order, and what holds of the result.

* `gives_meet` — two sorted halves that are merged from both ends meet. Either end cuts the
  two halves in two so that nothing of one part goes before anything of the other, and there
  is one cut for each number of elements.
* `gives_sortStretches` — stretches joined in whatever order give the sorted row.
* `gives_sortByParting` — a row is parted so that one part goes before the other.

The main results are `stableSort_eq` and `stableSort_perm`.
-/

namespace SeqScript.Sequence

variable {α : Type} {less : α → α → Bool} {a b x y : α} {xs ys zs l r : List α}

-- ---------------------------------------------------------------------------
-- Steps that may have no result
-- ---------------------------------------------------------------------------

/-- A step of a sort: with an order it has a result, and of its result `P` holds. -/
structure Gives (less : α → α → Bool) {β : Type} (o : Option β) (P : β → Prop) : Prop where
  isSome : Consistent less → o.isSome = true
  holds : ∀ z, o = some z → P z

namespace Gives

variable {β γ : Type} {o : Option β} {P : β → Prop} {Q : γ → Prop}

theorem some {z : β} (h : P z) : Gives less (some z) P :=
  ⟨fun _ => rfl, fun _ heq => Option.some.inj heq ▸ h⟩

/-- Steps that are total under an order can follow each other, and what the first gives the second
may use. -/
theorem bind {f : β → Option γ} (h : Gives less o P) (hf : ∀ z, P z → Gives less (f z) Q) :
    Gives less (o >>= f) Q := by
  cases o with
  | none => exact ⟨fun hless => absurd (h.isSome hless) Bool.false_ne_true, nofun⟩
  | some z => exact hf z (h.holds z rfl)

theorem imp {P' : β → Prop} (h : Gives less o P) (himp : ∀ z, P z → P' z) : Gives less o P' :=
  ⟨h.isSome, fun z hz => himp z (h.holds z hz)⟩

theorem map {f : β → γ} (h : Gives less o P) (hf : ∀ z, P z → Q (f z)) :
    Gives less (o.map f) Q := by
  rw [Option.map_eq_bind]
  exact h.bind fun z hz => some (hf z hz)

end Gives

-- ---------------------------------------------------------------------------
-- Merging from both ends
-- ---------------------------------------------------------------------------

/-- One step of a merge takes the head of the row whose turn it is. -/
theorem mergeSome_step {keeps : α → α → Bool} {n : Nat} (hl : n + 1 ≤ l.length)
    (hr : n + 1 ≤ r.length) {front : List α} {k : Nat}
    (h : mergeSome keeps (n + 1) l r = (front, k)) :
    ∃ x xs y ys rest j, l = x :: xs ∧ r = y :: ys ∧
      (keeps x y = true ∧ mergeSome keeps n xs (y :: ys) = (rest, j) ∧ front = x :: rest ∧
          k = j + 1 ∨
        keeps x y = false ∧ mergeSome keeps n (x :: xs) ys = (rest, j) ∧ front = y :: rest ∧
          k = j) := by
  rcases l with _ | ⟨x, xs⟩
  · exact absurd hl (Nat.not_succ_le_zero n)
  rcases r with _ | ⟨y, ys⟩
  · exact absurd hr (Nat.not_succ_le_zero n)
  rw [mergeSome] at h
  split at h
  · next hkeeps =>
    rcases hrest : mergeSome keeps n xs (y :: ys) with ⟨rest, j⟩
    rw [hrest] at h
    obtain ⟨rfl, rfl⟩ := Prod.mk.inj h
    exact ⟨x, xs, y, ys, rest, j, rfl, rfl, .inl ⟨hkeeps, hrest, rfl, rfl⟩⟩
  · next hkeeps =>
    rcases hrest : mergeSome keeps n (x :: xs) ys with ⟨rest, j⟩
    rw [hrest] at h
    obtain ⟨rfl, rfl⟩ := Prod.mk.inj h
    exact ⟨x, xs, y, ys, rest, j, rfl, rfl,
      .inr ⟨Bool.eq_false_of_not_eq_true hkeeps, hrest, rfl, rfl⟩⟩

/-- The part of a merge that `mergeSome` gives: as many elements as asked for, taken from the
front of the two rows, and the merge goes on with what it leaves. -/
theorem mergeSome_spec (keeps : α → α → Bool) {n : Nat} (hl : n ≤ l.length) (hr : n ≤ r.length)
    {front : List α} {k : Nat} (h : mergeSome keeps n l r = (front, k)) :
    k ≤ n ∧ front.length = n ∧ front.Perm (l.take k ++ r.take (n - k)) ∧
      List.merge l r keeps = front ++ List.merge (l.drop k) (r.drop (n - k)) keeps := by
  induction n generalizing l r front k with
  | zero =>
    obtain ⟨rfl, rfl⟩ : [] = front ∧ 0 = k := by simpa [mergeSome] using h
    exact ⟨Nat.le_refl 0, rfl, .refl _, rfl⟩
  | succ n ih =>
    obtain ⟨x, xs, y, ys, rest, j, rfl, rfl, hstep⟩ := mergeSome_step hl hr h
    rw [List.cons_merge_cons]
    obtain ⟨hkeeps, hrest, rfl, rfl⟩ | ⟨hkeeps, hrest, rfl, rfl⟩ := hstep
    · obtain ⟨hj, hlength, hperm, hmerge⟩ :=
        ih (Nat.le_of_succ_le_succ hl) (Nat.le_of_succ_le hr) hrest
      rw [if_pos hkeeps, hmerge, Nat.succ_sub_succ]
      exact ⟨Nat.succ_le_succ hj, congrArg _ hlength, hperm.cons x, rfl⟩
    · obtain ⟨hj, hlength, hperm, hmerge⟩ :=
        ih (Nat.le_of_succ_le hl) (Nat.le_of_succ_le_succ hr) hrest
      rw [if_neg (Bool.eq_false_iff.mp hkeeps), hmerge, Nat.succ_sub hj]
      exact ⟨Nat.le_succ_of_le hj, congrArg _ hlength,
        (hperm.cons y).trans List.perm_middle.symm, rfl⟩

/-- **What a merge has taken goes before what it has left.** In either row, what the order
keeps before an element is kept before those behind it. -/
theorem mergeSome_cut {keeps : α → α → Bool} {n : Nat} (hl : n ≤ l.length) (hr : n ≤ r.length)
    (hleft : l.Pairwise fun a a' => ∀ b, keeps a' b = true → keeps a b = true)
    (hright : r.Pairwise fun b b' => ∀ a, keeps a b = true → keeps a b' = true)
    {front : List α} {k : Nat} (h : mergeSome keeps n l r = (front, k)) :
    (∀ a ∈ l.take k, ∀ b ∈ r.drop (n - k), keeps a b = true) ∧
      ∀ a ∈ l.drop k, ∀ b ∈ r.take (n - k), keeps a b = false := by
  induction n generalizing l r front k with
  | zero =>
    obtain ⟨rfl, rfl⟩ : [] = front ∧ 0 = k := by simpa [mergeSome] using h
    simp
  | succ n ih =>
    obtain ⟨x, xs, y, ys, rest, j, rfl, rfl, hstep⟩ := mergeSome_step hl hr h
    obtain ⟨hx, hleft'⟩ := List.pairwise_cons.mp hleft
    obtain ⟨hy, hright'⟩ := List.pairwise_cons.mp hright
    obtain ⟨hkeeps, hrest, rfl, rfl⟩ | ⟨hkeeps, hrest, rfl, rfl⟩ := hstep
    · obtain ⟨hbefore, hbehind⟩ :=
        ih (Nat.le_of_succ_le_succ hl) (Nat.le_of_succ_le hr) hleft' hright hrest
      rw [Nat.succ_sub_succ]
      refine ⟨?_, hbehind⟩
      intro a ha b hb
      rcases List.mem_cons.mp ha with rfl | ha
      · rcases List.mem_cons.mp (List.mem_of_mem_drop hb) with rfl | hb
        · exact hkeeps
        · exact hy b hb a hkeeps
      · exact hbefore a ha b hb
    · have hl' := Nat.le_of_succ_le hl
      have hr' := Nat.le_of_succ_le_succ hr
      have hj := (mergeSome_spec keeps hl' hr' hrest).1
      obtain ⟨hbefore, hbehind⟩ := ih hl' hr' hleft hright' hrest
      rw [Nat.succ_sub hj]
      refine ⟨hbefore, ?_⟩
      intro a ha b hb
      rcases List.mem_cons.mp hb with rfl | hb
      · rcases List.mem_cons.mp (List.mem_of_mem_drop ha) with rfl | ha
        · exact hkeeps
        · exact Bool.eq_false_iff.mpr fun hab => Bool.eq_false_iff.mp hkeeps (hx a ha b hab)
      · exact hbehind a ha b hb

private theorem exists_mem_take_drop {i j : Nat} (hij : i < j) (hi : i < l.length) :
    ∃ a, a ∈ l.take j ∧ a ∈ l.drop i := by
  refine ⟨l[i], List.mem_take_iff_getElem.mpr ⟨i, by omega, rfl⟩, ?_⟩
  exact List.mem_drop_iff_getElem.mpr ⟨0, by omega, by simp⟩

/-- Where the front has cut two halves in two and the back has too, the two cuts do not
cross. -/
theorem ends_meet (hless : Consistent less) (hl : Ascending less l) (hr : Ascending less r)
    (hlength : l.length ≤ r.length) {front back : List α} {k j : Nat}
    (hfront : mergeSome (fun a b => !less b a) l.length l r = (front, k))
    (hback : mergeSome (fun b a => !less b a) l.length r.reverse l.reverse = (back, j)) :
    k ≤ j ∧ l.length - k + j ≤ r.length := by
  have hl' : l.length ≤ l.reverse.length := by rw [List.length_reverse]
  have hr' : l.length ≤ r.reverse.length := by rwa [List.length_reverse]
  have hk := (mergeSome_spec _ (Nat.le_refl _) hlength hfront).1
  have hj := (mergeSome_spec _ hr' hl' hback).1
  have htrans {a b c : α} (hab : (!less a b) = true) (hbc : less b c = false) :
      (!less a c) = true := by
    rw [Bool.not_eq_true'] at hab ⊢
    exact hless.trans hab hbc
  have htrans' {a b c : α} (hab : less a b = false) (hbc : (!less b c) = true) :
      (!less a c) = true := by
    rw [Bool.not_eq_true'] at hbc ⊢
    exact hless.trans hab hbc
  obtain ⟨hbefore, hbehind⟩ := mergeSome_cut (Nat.le_refl _) hlength
    ((hl hless).imp fun haa' b h => htrans h haa')
    ((hr hless).imp fun hbb' a h => htrans' hbb' h) hfront
  obtain ⟨hbehind', hbefore'⟩ := mergeSome_cut hr' hl'
    (List.pairwise_reverse.mpr ((hr hless).imp fun hbb' a h => htrans' hbb' h))
    (List.pairwise_reverse.mpr ((hl hless).imp fun haa' b h => htrans h haa')) hback
  have hjl : l.length - (l.length - j) = j := by omega
  rw [List.take_reverse, List.drop_reverse, hjl] at hbehind'
  rw [List.take_reverse, List.drop_reverse, hjl] at hbefore'
  simp only [List.mem_reverse] at hbehind' hbefore'
  constructor
  · by_contra hcross
    obtain ⟨a, hak, haj⟩ := exists_mem_take_drop (l := l) (i := j) (j := k) (by omega) (by omega)
    obtain ⟨b, hbj, hbk⟩ := exists_mem_take_drop (l := r) (i := l.length - k)
      (j := r.length - j) (by omega) (by omega)
    exact Bool.false_ne_true ((hbefore' b hbj a haj).symm.trans (hbefore a hak b hbk))
  · by_contra hcross
    obtain ⟨a, haj, hak⟩ := exists_mem_take_drop (l := l) (i := k) (j := j) (by omega) (by omega)
    obtain ⟨b, hbk, hbj⟩ := exists_mem_take_drop (l := r) (i := r.length - j)
      (j := l.length - k) (by omega) (by omega)
    exact Bool.false_ne_true ((hbehind a hak b hbk).symm.trans (hbehind' b hbj a haj))

/-- What the two ends have taken and what is left between them is all of both halves. -/
theorem meet_perm {front back : List α} {k j : Nat} (hlength : l.length ≤ r.length)
    (hfront : mergeSome (fun a b => !less b a) l.length l r = (front, k))
    (hback : mergeSome (fun b a => !less b a) l.length r.reverse l.reverse = (back, j))
    (hkj : k ≤ j) (hmeet : l.length - k + j ≤ r.length) :
    (front ++ ((l.take j).drop k ++ (r.take (r.length - j)).drop (l.length - k)) ++
      back.reverse).Perm (l ++ r) := by
  classical
  have hl' : l.length ≤ l.reverse.length := by rw [List.length_reverse]
  have hr' : l.length ≤ r.reverse.length := by rwa [List.length_reverse]
  have hfront := (mergeSome_spec _ (Nat.le_refl _) hlength hfront).2.2.1
  obtain ⟨hj, -, hback, -⟩ := mergeSome_spec _ hr' hl' hback
  have hjl : l.length - (l.length - j) = j := by omega
  rw [List.take_reverse, List.take_reverse, hjl] at hback
  -- either half is what the front takes of it, what is left, and what the back takes
  have hparts (m : List α) {i j : Nat} (hi : i ≤ j) :
      m.take i ++ (m.take j).drop i ++ m.drop j = m := by
    rw [← min_eq_left hi, ← List.take_take, min_eq_left hi, List.take_append_drop,
      List.take_append_drop]
  rw [List.perm_iff_count] at hfront hback ⊢
  intro a
  have hcountl := congrArg (List.count a) (hparts l hkj)
  have hcountr := congrArg (List.count a)
    (hparts r (show l.length - k ≤ r.length - j by omega))
  have hcountf := hfront a
  have hcountb := hback a
  simp only [List.count_append, List.count_reverse] at hcountl hcountr hcountf hcountb ⊢
  omega

private theorem middle_eq {m m' : List α} (h : (xs ++ m ++ ys).Perm (xs ++ m' ++ ys))
    (hshort : m'.length ≤ 1) : m = m' := by
  rw [List.perm_append_right_iff, List.perm_append_left_iff] at h
  exact eq_of_perm_of_short h hshort

/-- The merge of two rows that begins and ends in known ways. -/
private theorem exists_middle {whole front back rest rest' : List α} (h : whole = front ++ rest)
    (h' : whole = rest' ++ back) (hlength : front.length + back.length ≤ whole.length) :
    ∃ m, whole = front ++ m ++ back := by
  rcases List.append_eq_append_iff.mp (h.symm.trans h') with ⟨m, rfl, -⟩ | ⟨m, rfl, rfl⟩
  · exact ⟨m, h'⟩
  · have hm : m.length = 0 := by
      rw [h] at hlength
      simp only [List.length_append] at hlength
      omega
    rw [List.length_eq_zero_iff.mp hm] at h ⊢
    exact ⟨[], by simpa using h⟩

/-- **Two sorted halves meet**, and what they make is sorted. -/
theorem gives_meet (hl : Ascending less l) (hr : Ascending less r) (hlength : l.length ≤ r.length)
    (hlength' : r.length ≤ l.length + 1) : Gives less (meet less l r) (Sorts less (l ++ r)) := by
  rcases hfront : mergeSome (fun a b => !less b a) l.length l r with ⟨front, k⟩
  rcases hback : mergeSome (fun b a => !less b a) l.length r.reverse l.reverse with ⟨back, j⟩
  simp only [meet, hfront, hback]
  split
  · next hmeet =>
    refine .some ?_
    rw [List.append_assoc front]
    have hperm := meet_perm hlength hfront hback hmeet.1 hmeet.2
    -- for an order it is the merge from the front, which is also the one from the back
    have heq : Consistent less →
        front ++ ((l.take j).drop k ++ (r.take (r.length - j)).drop (l.length - k)) ++
          back.reverse = List.merge l r fun a b => !less b a := by
      intro hless
      obtain ⟨-, hfrontLength, -, hmerge⟩ := mergeSome_spec _ (Nat.le_refl _) hlength hfront
      obtain ⟨-, hbackLength, -, hmerge'⟩ := mergeSome_spec _
        (by rwa [List.length_reverse]) (by rw [List.length_reverse]) hback
      have hsame := (sorts_listMerge hl hr).unique hless (sorts_listMerge_reverse hl hr)
      have hwhole := (sorts_listMerge hl hr).kept.length_eq
      rw [List.length_append] at hwhole
      obtain ⟨m, hm⟩ := exists_middle hmerge
        (hsame.trans (congrArg List.reverse hmerge' |>.trans List.reverse_append))
        (by rw [List.length_reverse]; omega)
      rw [hm] at hwhole ⊢
      rw [middle_eq (hperm.trans ((List.merge_perm_append _).symm.trans (.of_eq hm)))]
      simp only [List.length_append, List.length_reverse] at hwhole
      omega
    exact (sorts_listMerge hl hr).of_eq hperm heq
  · next hcross =>
    exact ⟨fun hless => absurd (ends_meet hless hl hr hlength hfront hback) hcross, nofun⟩

-- ---------------------------------------------------------------------------
-- Small rows
-- ---------------------------------------------------------------------------

/-- Two pairs are merged by comparisons that may contradict each other, and nothing is lost. -/
theorem mergePairs_perm (less : α → α → Bool) (a b c d : α) :
    (mergePairs less a b c d).Perm [a, b, c, d] := by
  classical
  unfold mergePairs
  rw [List.perm_iff_count]
  intro z
  simp only [List.count_cons]
  grind

/-- With an order, two pairs are merged as rows are. -/
theorem mergePairs_eq (hless : Consistent less) {a b c d : α} (hab : less b a = false)
    (hcd : less d c = false) :
    mergePairs less a b c d = List.merge [a, b] [c, d] fun l r => !less r l := by
  simp only [mergePairs, List.cons_merge_cons, List.nil_merge, List.merge_right]
  cases hca : less c a with
  | false =>
    cases hdb : less d b with
    | false => cases hcb : less c b <;> simp [hcb]
    | true => simp [hcd, hless.less_of_not_of_less hcd hdb]
  | true =>
    cases hdb : less d b with
    | false => simp [hab, hless.trans hdb hab]
    | true => cases hda : less d a <;> simp [hda]

/-- A pair is swapped only if the second is less. -/
theorem sortPair_kept (less : α → α → Bool) (a b : α) :
    Kept less [a, b] [(sortPair less a b).1, (sortPair less a b).2] := by
  unfold sortPair
  split
  · next hlt => exact .pass (l := [a]) fun _ c hc => Or.inl (List.mem_singleton.mp hc ▸ hlt)
  · exact .refl _

theorem sortPair_ascending (hless : Consistent less) (a b : α) :
    less (sortPair less a b).2 (sortPair less a b).1 = false := by
  unfold sortPair
  split
  · next hlt => exact hless.asymm hlt
  · next hnot => exact Bool.not_eq_true _ ▸ hnot

/-- Four elements: two pairs, merged. -/
theorem sorts_sortFour (less : α → α → Bool) (a b c d : α) :
    Sorts less [a, b, c, d] (sortFour less a b c d) := by
  have hkept := (sortPair_kept less a b).append (sortPair_kept less c d)
  have hpair (a b : α) : Ascending less [(sortPair less a b).1, (sortPair less a b).2] :=
    fun hless => List.pairwise_pair.mpr (sortPair_ascending hless a b)
  have hmerge := sorts_listMerge (hpair a b) (hpair c d)
  have heq (hless : Consistent less) :=
    mergePairs_eq hless (sortPair_ascending hless a b) (sortPair_ascending hless c d)
  exact .of_kept hkept (hmerge.of_eq (mergePairs_perm ..) heq)

/-- The first elements in one go, the others inserted. -/
theorem sorts_sortHalf (less : α → α → Bool) (xs : List α) : Sorts less xs (sortHalf less xs) := by
  unfold sortHalf
  split
  · next a b c d rest =>
    have hfour := sorts_sortFour less a b c d
    exact .of_kept (hfour.kept.append (.refl rest)) (sorts_insertAll hfour.ascending rest)
  · exact sorts_sortBy less xs

/-- Two halves sorted and merged from both ends. This is where the sort of a small row may give up.
-/
theorem gives_sortSmall (less : α → α → Bool) (xs : List α) :
    Gives less (sortSmall less xs) (Sorts less xs) := by
  unfold sortSmall
  split
  · next hshort =>
    exact .some ⟨.refl xs, ascending_of_short (Nat.le_of_lt_succ hshort)⟩
  · have hhalves {f : List α → List α} (hf : ∀ xs, Sorts less xs (f xs)) :
        Gives less (meet less (f (xs.take (xs.length / 2))) (f (xs.drop (xs.length / 2))))
          (Sorts less xs) := by
      have hleft := hf (xs.take (xs.length / 2))
      have hright := hf (xs.drop (xs.length / 2))
      have hlengths := hleft.kept.length_eq
      have hlengths' := hright.kept.length_eq
      rw [List.length_take] at hlengths
      rw [List.length_drop] at hlengths'
      refine (gives_meet hleft.ascending hright.ascending (by omega) (by omega)).imp ?_
      intro ys hys
      have hkept := hleft.kept.append hright.kept
      rw [List.take_append_drop] at hkept
      exact .of_kept hkept hys
    dsimp only
    split
    · exact hhalves (sorts_sortBy less)
    · exact hhalves (sorts_sortHalf less)

-- ---------------------------------------------------------------------------
-- Stretches
-- ---------------------------------------------------------------------------

/-- A stretch goes on as long as neighbours do. -/
theorem isChain_take_chainLength (goesOn : α → α → Bool) (x : α) (xs : List α) :
    (x :: xs.take (chainLength goesOn x xs)).IsChain fun a b => goesOn a b = true := by
  induction xs generalizing x with
  | nil => exact .singleton x
  | cons y ys ih =>
    rw [chainLength]
    split
    · next h => exact List.isChain_cons_cons.mpr ⟨h, ih y⟩
    · exact .singleton x

/-- A row that descends without ties is sorted by turning it round. -/
theorem reverse_kept (h : Consistent less → xs.Pairwise fun a b => less b a = true) :
    Kept less xs xs.reverse := by
  induction xs with
  | nil => exact .refl []
  | cons x xs ih =>
    have hpass : Kept less (xs.reverse ++ x :: []) (x :: (xs.reverse ++ [])) := by
      refine .pass ?_
      intro hless a ha
      exact Or.inr ((List.pairwise_cons.mp (h hless)).1 a (List.mem_reverse.mp ha))
    rw [List.append_nil] at hpass
    rw [List.reverse_cons]
    exact ((ih fun hless => (h hless).of_cons).cons x).trans hpass.symm

/-- **What is found in order is sorted**, turned round if it descends. -/
theorem sorts_inOrder (less : α → α → Bool) (xs : List α) {n : Nat} {down : Bool}
    (h : inOrder less xs = (n, down)) :
    Sorts less (xs.take n) (if down then (xs.take n).reverse else xs.take n) := by
  unfold inOrder at h
  split at h
  · next x y ys =>
    obtain ⟨rfl, hdown⟩ := Prod.mk.inj h
    have hchain :
        ((x :: y :: ys).take (chainLength (fun a b => less b a == less y x) y ys + 2)).IsChain
          fun a b => less b a = down := by
      refine List.isChain_cons_cons.mpr ⟨hdown, ?_⟩
      refine (isChain_take_chainLength _ y ys).imp ?_
      intro a b hab
      rw [← hdown]
      exact eq_of_beq hab
    rw [hdown] at hchain ⊢
    cases down with
    | true =>
      have hpairwise : Consistent less → _ := fun hless =>
        have : Trans (fun a b => less b a = true) (fun a b => less b a = true)
            fun a b => less b a = true :=
          ⟨fun hab hbc => hless.less_of_less_of_not hbc (hless.asymm hab)⟩
        hchain.pairwise
      refine ⟨reverse_kept hpairwise, ?_⟩
      intro hless
      exact List.pairwise_reverse.mpr ((hpairwise hless).imp hless.asymm)
    | false =>
      refine ⟨.refl _, ?_⟩
      intro hless
      have : Trans (fun a b => less b a = false) (fun a b => less b a = false)
          fun a b => less b a = false := ⟨fun hab hbc => hless.trans hbc hab⟩
      exact hchain.pairwise
  · next hshort =>
    obtain ⟨rfl, rfl⟩ := Prod.mk.inj h
    refine ⟨.refl _, ascending_of_short ?_⟩
    rcases xs with _ | ⟨x, _ | ⟨y, ys⟩⟩
    · exact Nat.zero_le 1
    · exact Nat.le_refl 1
    · exact absurd rfl (hshort x y ys)

/-- A stretch that is called sorted is. -/
def Stretch.Honest (less : α → α → Bool) (s : Stretch α) : Prop :=
  s.sorted = true → Ascending less s.items

/-- A stretch at the front of a row: found as it is, turned round, or left to be sorted later. -/
theorem gives_cutStretch (less : α → α → Bool) (good : Nat) (eager : Bool) (xs : List α) :
    Gives less (cutStretch less good eager xs) fun p =>
      ∃ front, xs = front ++ p.2 ∧ Kept less front p.1.items ∧ p.1.Honest less := by
  have hcut (n : Nat) : xs = xs.take n ++ xs.drop n := (List.take_append_drop n xs).symm
  rcases horder : inOrder less xs with ⟨n, down⟩
  simp only [cutStretch, horder]
  split
  · have hsorts := sorts_inOrder less xs horder
    exact .some ⟨xs.take n, hcut n, hsorts.kept, fun _ => hsorts.ascending⟩
  · split
    · refine (gives_sortSmall less (xs.take smallLength)).map ?_
      intro items hitems
      exact ⟨_, hcut smallLength, hitems.kept, fun _ => hitems.ascending⟩
    · exact .some ⟨xs.take good, hcut good, .refl _, nofun⟩

/-- The row that stretches make up one after another. -/
def rowOf (ss : List (Stretch α)) : List α := ss.flatMap (·.items)

/-- The run lemma of cutting: all stretches together are the row, and each is what it says. -/
theorem gives_cutStretches (less : α → α → Bool) {good : Nat} (hgood : 0 < good) (eager : Bool)
    (xs : List α) : Gives less (cutStretches less good hgood eager xs) fun ss =>
      Kept less xs (rowOf ss) ∧ ∀ s ∈ ss, s.Honest less := by
  fun_induction cutStretches less good hgood eager xs with
  | case1 => exact .some ⟨.refl [], nofun⟩
  | case2 xs hxs hcut =>
    refine ⟨fun hless => ?_, nofun⟩
    have hsome := (gives_cutStretch less good eager xs).isSome hless
    rw [hcut] at hsome
    exact absurd hsome Bool.false_ne_true
  | case3 xs hxs s rest hcut hlt ih =>
    obtain ⟨front, rfl, hkept, hhonest⟩ := (gives_cutStretch less good eager xs).holds _ hcut
    refine ih.map ?_
    rintro ss ⟨hrest, hall⟩
    exact ⟨hkept.append hrest, List.forall_mem_cons.mpr ⟨hhonest, hall⟩⟩

-- ---------------------------------------------------------------------------
-- Joining
-- ---------------------------------------------------------------------------

section

variable {room factor : Nat} {finish : List α → Option (List α)}
  (hfinish : ∀ xs, Gives less (finish xs) (Sorts less xs))

include hfinish

/-- A stretch that is not sorted yet is sorted. -/
theorem gives_settle {s : Stretch α} (hs : s.Honest less) :
    Gives less (s.settle finish) (Sorts less s.items) := by
  unfold Stretch.settle
  split
  · next hsorted => exact .some ⟨.refl _, hs hsorted⟩
  · exact hfinish s.items

/-- Two neighbours are merged, or left together to be sorted later if there is room. -/
theorem gives_joinStretches {left right : Stretch α} (hleft : left.Honest less)
    (hright : right.Honest less) :
    Gives less (joinStretches less room finish left right) fun s =>
      Kept less (left.items ++ right.items) s.items ∧ s.Honest less := by
  unfold joinStretches
  split
  · exact .some ⟨.refl _, nofun⟩
  · refine (gives_settle hfinish hleft).bind fun l hl => ?_
    refine (gives_settle hfinish hright).bind fun r hr => ?_
    have hmerge := sorts_merge hl.ascending hr.ascending
    exact .some ⟨(hl.kept.append hr.kept).trans hmerge.kept, fun _ => hmerge.ascending⟩

/-- The row behind a stack of stretches, whose nearest one is its first. -/
def behind (stack : List (Stretch α × Nat)) : List α := rowOf (stack.map Prod.fst).reverse

omit hfinish in
theorem behind_cons (s : Stretch α) (d : Nat) (stack : List (Stretch α × Nat)) :
    behind ((s, d) :: stack) = behind stack ++ s.items := by
  simp [behind, rowOf]

/-- The run lemma of the stack. The row that it stands for is kept, and at depth zero it is emptied.
-/
theorem gives_collapse {depth : Nat} {stack : List (Stretch α × Nat)} {last : Stretch α}
    (hstack : ∀ p ∈ stack, p.1.Honest less) (hlast : last.Honest less) :
    Gives less (collapse less room finish depth stack last) fun p =>
      Kept less (behind stack ++ last.items) (behind p.1 ++ p.2.items) ∧
        (∀ q ∈ p.1, q.1.Honest less) ∧ p.2.Honest less ∧ (depth = 0 → p.1 = []) := by
  induction stack generalizing last with
  | nil => exact .some ⟨.refl _, hstack, hlast, fun _ => rfl⟩
  | cons top stack ih =>
    obtain ⟨left, d⟩ := top
    obtain ⟨hleft, hrest⟩ := List.forall_mem_cons.mp hstack
    rw [collapse]
    split
    · refine (gives_joinStretches hfinish hleft hlast).bind ?_
      rintro joined ⟨hkept, hjoined⟩
      refine (ih hrest hjoined).imp ?_
      rintro p ⟨hcollapsed, hp⟩
      rw [behind_cons, List.append_assoc]
      exact ⟨((Kept.refl _).append hkept).trans hcollapsed, hp⟩
    · next hdeep => exact .some ⟨.refl _, hstack, hlast, fun hdepth => by omega⟩

/-- **Whatever the order in which they are joined**, stretches make up one row. -/
theorem gives_joinAll {start : Nat} {stack : List (Stretch α × Nat)} {last : Stretch α}
    {rest : List (Stretch α)} (hstack : ∀ p ∈ stack, p.1.Honest less) (hlast : last.Honest less)
    (hrest : ∀ s ∈ rest, s.Honest less) :
    Gives less (joinAll less room factor finish start stack last rest) fun whole =>
      Kept less (behind stack ++ last.items ++ rowOf rest) whole.items ∧ whole.Honest less := by
  induction rest generalizing start stack last with
  | nil =>
    refine (gives_collapse hfinish hstack hlast).bind ?_
    rintro ⟨stack', whole⟩ ⟨hkept, -, hwhole, hempty⟩
    obtain rfl : stack' = [] := hempty rfl
    refine .some ⟨?_, hwhole⟩
    simpa [rowOf, behind] using hkept
  | cons next rest ih =>
    obtain ⟨hnext, hrest⟩ := List.forall_mem_cons.mp hrest
    refine (gives_collapse hfinish hstack hlast).bind ?_
    rintro ⟨stack', joined⟩ ⟨hkept, hstack', hjoined, -⟩
    refine (ih (List.forall_mem_cons.mpr ⟨hjoined, hstack'⟩) hnext hrest).imp ?_
    rintro whole ⟨hwhole, hhonest⟩
    rw [behind_cons, List.append_assoc] at hwhole
    exact ⟨(hkept.append (.refl _)).trans hwhole, hhonest⟩

/-- **A row is sorted by its stretches.** -/
theorem gives_sortStretches (eager : Bool) (xs : List α) :
    Gives less (sortStretches less room eager finish xs) (Sorts less xs) := by
  unfold sortStretches
  split
  · next hlong =>
    refine (gives_cutStretches less (goodLength_pos hlong) eager xs).bind ?_
    rintro ss ⟨hkept, hhonest⟩
    rcases ss with _ | ⟨first, rest⟩
    · exact .some ⟨hkept, fun _ => .nil⟩
    · obtain ⟨hfirst, hrest⟩ := List.forall_mem_cons.mp hhonest
      refine (gives_joinAll hfinish (List.forall_mem_nil _) hfirst hrest).bind ?_
      rintro whole ⟨hwhole, hdone⟩
      exact (gives_settle hfinish hdone).imp fun ys hys => .of_kept (hkept.trans hwhole) hys
  · next hshort =>
    exact .some ⟨.refl xs, ascending_of_short (Nat.le_of_lt_succ (Nat.lt_of_not_le hshort))⟩

end

-- ---------------------------------------------------------------------------
-- Parting
-- ---------------------------------------------------------------------------

/-- A row is parted and nothing is lost. -/
theorem part_perm (goesLeft : α → Bool) (pivotLeft : Bool) (before : List α) (pivot : α)
    (after : List α) :
    ((part goesLeft pivotLeft before pivot after).1 ++
      (part goesLeft pivotLeft before pivot after).2).Perm (before ++ pivot :: after) := by
  classical
  have hbefore := List.perm_iff_count.mp (List.filter_append_perm goesLeft before)
  have hafter := List.perm_iff_count.mp (List.filter_append_perm goesLeft after)
  rw [List.perm_iff_count]
  intro a
  have hcounts := hbefore a
  have hcounts' := hafter a
  rw [List.count_append] at hcounts hcounts'
  cases pivotLeft <;>
  · simp only [part, List.count_append, List.count_cons, Bool.false_eq_true, if_false, if_true,
      List.count_nil]
    omega

/-- Where the pivot goes to the side on which it is put, parting is filtering. -/
theorem part_eq {goesLeft : α → Bool} {pivotLeft : Bool} {pivot : α}
    (hpivot : goesLeft pivot = pivotLeft) (before after : List α) :
    part goesLeft pivotLeft before pivot after =
      ((before ++ pivot :: after).filter goesLeft,
        (before ++ pivot :: after).filter (!goesLeft ·)) := by
  subst hpivot
  cases hpivot : goesLeft pivot <;> simp [part, hpivot]

/-- A row parted so that no element of one part ties with one of the other. -/
theorem filter_classes {p : α → Bool} (hp : ∀ x y, p x = true → p y = false → less x y = true)
    (xs : List α) (e : α) :
    (xs.filter p ++ xs.filter (!p ·)).filter (tie less e) = xs.filter (tie less e) := by
  have hside : ∀ x, tie less e x = true → p x = p e := by
    intro x hx
    simp only [tie, Bool.and_eq_true, Bool.not_eq_true'] at hx
    cases hpx : p x <;> cases hpe : p e
    · rfl
    · exact absurd (hx.1.symm.trans (hp e x hpe hpx)) Bool.false_ne_true
    · exact absurd (hx.2.symm.trans (hp x e hpx hpe)) Bool.false_ne_true
    · rfl
  have hleft (x : α) : (tie less e x && p x) = (tie less e x && p e) := by
    cases hx : tie less e x with
    | false => rfl
    | true => rw [hside x hx]
  have hright (x : α) : (tie less e x && !p x) = (tie less e x && !p e) := by
    cases hx : tie less e x with
    | false => rfl
    | true => rw [hside x hx]
  simp only [List.filter_append, List.filter_filter, hleft, hright]
  cases p e <;> simp

/-- Parts that are sorted make up a sorted row, if nothing of the second goes before anything
of the first. -/
theorem Sorts.append {low high low' high' : List α} (hlow : Sorts less low low')
    (hhigh : Sorts less high high')
    (hparts : Consistent less → ∀ a ∈ low, ∀ b ∈ high, less b a = false) :
    Sorts less (low ++ high) (low' ++ high') := by
  refine ⟨hlow.kept.append hhigh.kept, ?_⟩
  intro hless
  refine List.pairwise_append.mpr ⟨hlow.ascending hless, hhigh.ascending hless, ?_⟩
  intro a ha b hb
  exact hparts hless a (hlow.kept.mem_iff.mp ha) b (hhigh.kept.mem_iff.mp hb)

/-- A parting by which lesser elements go to the left, under an order. -/
structure Parts (less : α → α → Bool) (goesLeft : α → Bool) (pivotLeft : Bool) (pivot : α) :
    Prop where
  pivot_side : goesLeft pivot = pivotLeft
  less_of_sides : ∀ x y, goesLeft x = true → goesLeft y = false → less x y = true

/-- Elements less than the pivot go to the left. -/
theorem Consistent.parts_below (hless : Consistent less) (pivot : α) :
    Parts less (less · pivot) false pivot where
  pivot_side := hless.irrefl pivot
  less_of_sides _ _ hx hy := hless.less_of_less_of_not hx hy

/-- Elements not greater than the pivot go to the left. -/
theorem Consistent.parts_upTo (hless : Consistent less) (pivot : α) :
    Parts less (fun x => !less pivot x) true pivot where
  pivot_side := by rw [hless.irrefl]; rfl
  less_of_sides _ _ hx hy :=
    hless.less_of_not_of_less (Bool.not_eq_true' _ ▸ hx) (Bool.not_eq_false' _ ▸ hy)

section

variable {goesLeft : α → Bool} {pivotLeft : Bool} {pivot : α} {before after : List α}

/-- Elements that tie go to the same side, so they stand as they stood. -/
theorem part_kept (h : Consistent less → Parts less goesLeft pivotLeft pivot) :
    Kept less (before ++ pivot :: after) ((part goesLeft pivotLeft before pivot after).1 ++
      (part goesLeft pivotLeft before pivot after).2) := by
  refine ⟨part_perm .., ?_⟩
  intro hless e
  rw [part_eq (h hless).pivot_side]
  exact filter_classes (h hless).less_of_sides _ e

theorem mem_part_left (h : Parts less goesLeft pivotLeft pivot) :
    x ∈ (part goesLeft pivotLeft before pivot after).1 ↔
      x ∈ before ++ pivot :: after ∧ goesLeft x = true := by
  rw [part_eq h.pivot_side, List.mem_filter]

theorem mem_part_right (h : Parts less goesLeft pivotLeft pivot) :
    x ∈ (part goesLeft pivotLeft before pivot after).2 ↔
      x ∈ before ++ pivot :: after ∧ goesLeft x = false := by
  rw [part_eq h.pivot_side, List.mem_filter, Bool.not_eq_true']

/-- The two parts sorted are the row sorted. -/
theorem sorts_part (h : Consistent less → Parts less goesLeft pivotLeft pivot)
    {low high : List α} (hlow : Sorts less (part goesLeft pivotLeft before pivot after).1 low)
    (hhigh : Sorts less (part goesLeft pivotLeft before pivot after).2 high) :
    Sorts less (before ++ pivot :: after) (low ++ high) := by
  refine .of_kept (part_kept h) (hlow.append hhigh ?_)
  intro hless a ha b hb
  exact hless.asymm ((h hless).less_of_sides a b ((mem_part_left (h hless)).mp ha).2
    ((mem_part_right (h hless)).mp hb).2)

end

theorem medianOfThree_lt {n i j k : Nat} (lt : Nat → Nat → Bool) (hi : i < n) (hj : j < n)
    (hk : k < n) : medianOfThree lt i j k < n := by
  unfold medianOfThree
  split
  · split
    · exact hj
    · exact hk
  · exact hi

/-- Samples are taken from inside the row. -/
theorem middlePlace_lt {size i j k n : Nat} (lt : Nat → Nat → Bool) (hn : 0 < n)
    (hi : i + n ≤ size) (hj : j + n ≤ size) (hk : k + n ≤ size) :
    middlePlace lt i j k n < size := by
  fun_induction middlePlace lt i j k n with
  | case1 i j k n hsmall => exact medianOfThree_lt lt (by omega) (by omega) (by omega)
  | case2 i j k n hlarge m ihi ihj ihk =>
    have hm : 0 < m := Nat.div_pos (by omega) (by decide)
    have hmn : m * 8 ≤ n := Nat.div_mul_le_self n 8
    exact medianOfThree_lt lt (ihi hm (by omega) (by omega) (by omega))
      (ihj hm (by omega) (by omega) (by omega)) (ihk hm (by omega) (by omega) (by omega))

/-- The pivot is an element of the row. -/
theorem pivotPlace_lt (less : α → α → Bool) (hlong : 8 ≤ xs.length) :
    pivotPlace less xs < xs.length :=
  middlePlace_lt _ (by omega) (by omega) (by omega) (by omega)

/-- A pivot that is a least element: those that go to its side tie with it. -/
private theorem ascending_least {pivot : α} {before after : List α}
    (hleast : Consistent less → ∀ x ∈ before ++ pivot :: after, less x pivot = false) :
    Ascending less (part (fun x => !less pivot x) true before pivot after).1 := by
  intro hless
  refine List.pairwise_of_forall_mem_list ?_
  intro x hx y hy
  obtain ⟨-, hx⟩ := (mem_part_left (hless.parts_upTo pivot)).mp hx
  obtain ⟨hy, -⟩ := (mem_part_left (hless.parts_upTo pivot)).mp hy
  exact hless.trans (hleast hless y hy) (Bool.not_eq_true' _ ▸ hx)

/-- Nothing is below a pivot that is not above the floor, or below which nothing was found. -/
theorem Consistent.pivot_least (hless : Consistent less) {floor : Option α} {before after : List α}
    {pivot : α} (hfloor : ∀ f ∈ floor, ∀ x ∈ before ++ pivot :: after, less x f = false)
    (h : ((floor.any fun f => !less f pivot) ||
      (part (less · pivot) false before pivot after).1.isEmpty) = true) :
    ∀ x ∈ before ++ pivot :: after, less x pivot = false := by
  intro x hx
  rcases Bool.or_eq_true _ _ ▸ h with hany | hempty
  · obtain ⟨f, hf, hfp⟩ := (Option.any_eq_true _ _).mp hany
    exact hless.trans (hfloor f hf x hx) (Bool.not_eq_true' _ ▸ hfp)
  · rw [List.isEmpty_iff] at hempty
    by_contra hxp
    rw [Bool.not_eq_false] at hxp
    have hmem := (mem_part_left (hless.parts_below pivot)).mpr ⟨hx, hxp⟩
    rw [hempty] at hmem
    exact List.not_mem_nil hmem

/-- **A row is sorted by parting it**, if none of its elements is less than the floor. -/
theorem gives_sortByParting (room limit : Nat) (floor : Option α) (xs : List α)
    (hfloor : Consistent less → ∀ f ∈ floor, ∀ x ∈ xs, less x f = false) :
    Gives less (sortByParting less room limit floor xs) (Sorts less xs) := by
  induction limit generalizing floor xs with
  | zero =>
    rw [sortByParting]
    split
    · exact gives_sortSmall less xs
    · exact gives_sortStretches (gives_sortSmall less) true xs
  | succ limit ih =>
    rw [sortByParting]
    split
    · exact gives_sortSmall less xs
    · next hlong =>
      have hplace : pivotPlace less xs < xs.length :=
        pivotPlace_lt less (Nat.le_trans (by decide) (Nat.le_of_not_le hlong))
      have hxs := List.take_append_drop (pivotPlace less xs) xs
      rw [List.splitAt_eq]
      rw [List.drop_eq_getElem_cons hplace] at hxs ⊢
      generalize xs.take (pivotPlace less xs) = before at *
      generalize xs[pivotPlace less xs] = pivot at *
      generalize xs.drop (pivotPlace less xs + 1) = after at *
      subst hxs
      dsimp only
      split
      · next hpivot =>
        have hleast (hless : Consistent less) := hless.pivot_least (hfloor hless) hpivot
        refine (ih none _ nofun).bind fun high hhigh => .some ?_
        exact sorts_part (fun hless => hless.parts_upTo pivot)
          ⟨.refl _, ascending_least hleast⟩ hhigh
      · refine (ih (some pivot) _ ?_).bind fun high hhigh => ?_
        · rintro hless _ ⟨⟩ x hx
          exact ((mem_part_right (hless.parts_below pivot)).mp hx).2
        refine (ih floor _ ?_).bind fun low hlow => .some ?_
        · intro hless f hf x hx
          exact hfloor hless f hf x ((mem_part_left (hless.parts_below pivot)).mp hx).1
        exact sorts_part (fun hless => hless.parts_below pivot) hlow hhigh

-- ---------------------------------------------------------------------------
-- Main results
-- ---------------------------------------------------------------------------

/-- **The sort of rows,** whichever way it takes. -/
theorem gives_stableSort (less : α → α → Bool) (xs : List α) :
    Gives less (stableSort less xs) (Sorts less xs) := by
  unfold stableSort
  split
  · exact .some (sorts_sortBy less xs)
  · exact gives_sortStretches (fun ys => gives_sortByParting _ _ none ys nofun) _ xs

/-- **A row is sorted as by insertion if the comparison is an order.** -/
theorem stableSort_eq (hless : Consistent less) (xs : List α) :
    stableSort less xs = some (sortBy less xs) := by
  obtain ⟨ys, hys⟩ := Option.isSome_iff_exists.mp ((gives_stableSort less xs).isSome hless)
  rw [hys, ((gives_stableSort less xs).holds ys hys).unique hless (sorts_sortBy less xs)]

/-- **Whatever the comparison says, sorting rearranges.** -/
theorem stableSort_perm (h : stableSort less xs = some ys) : ys.Perm xs :=
  ((gives_stableSort less xs).holds ys h).kept.perm

/-- Short rows are sorted by insertion, which never gives up. -/
theorem stableSort_of_short (less : α → α → Bool) (hshort : xs.length ≤ shortLength) :
    stableSort less xs = some (sortBy less xs) := if_pos hshort

end SeqScript.Sequence
