import Mathlib
import SeqScript.Proofs.Provenance
import SeqScript.Proofs.Rounding.Order
import SeqScript.Proofs.Sorting

/-!
# Where rounding shows in the order of numbers

Rows of integers are sorted by the order of integers, but the statistics compare all their
elements as the numbers they are rounded to. These two orders agree as far as rounding tells
integers apart.

* `order_statistics_up_to_rounding` — the greatest, the least and the middle element of a row
  of integers are those of the order of integers, or are rounded to the same number. If no
  two different elements are, the statistics agree with the order in full; so they do for
  integers of magnitude at most `2 ^ 53`.
-/

namespace SeqScript

open Binary64 (ofWord weight)

-- ---------------------------------------------------------------------------
-- Extremes
-- ---------------------------------------------------------------------------

namespace Value

/-- A value that is greater than another, as the language compares them. -/
def Exceeds (v w : Value) : Prop := comparison .gt v w = .ok (.bool true)

theorem exceeds_int {n k : Int64} : (int n).Exceeds (int k) ↔ k.toInt < n.toInt := by
  have hcompare : comparison .gt (int n) (int k) =
      .ok (.bool (compare n.toInt k.toInt == .gt)) := rfl
  rw [Exceeds, hcompare]
  simp [Int.compare_eq_gt]

/-- The pattern of the number that an integer is rounded to. -/
def wordWeight : Value → Int
  | int n => weight n.toInt
  | _ => 0

end Value

namespace Sequence

open Value

/-- **No element of the row has a greater key than the best one**, if those with greater keys
beat the others. -/
theorem key_le_best {beats : Binary64 → Binary64 → Bool} {key : Value → Int} {champion : Value}
    {vs : List Value}
    (hbeats : ∀ v ∈ champion :: vs, ∀ w ∈ champion :: vs,
      (beats (numberOf v) (numberOf w) = true ↔ key w < key v)) :
    ∀ v ∈ champion :: vs, key v ≤ key (best beats champion vs) := by
  induction vs generalizing champion with
  | nil => simp [best]
  | cons v vs ih =>
    have hfirst := hbeats v (by simp) champion (by simp)
    rw [best]
    split
    · next hwins =>
      have hrest := ih fun x hx y hy =>
        hbeats x (List.mem_cons_of_mem _ hx) y (List.mem_cons_of_mem _ hy)
      have hv := hrest v List.mem_cons_self
      rw [hfirst] at hwins
      intro x hx
      rcases List.mem_cons.mp hx with rfl | hx
      · omega
      · exact hrest x hx
    · next hloses =>
      have hsub : champion :: vs ⊆ champion :: v :: vs :=
        List.cons_subset_cons _ (List.subset_cons_self ..)
      have hrest := ih fun x hx y hy => hbeats x (hsub hx) y (hsub hy)
      have hchampion := hrest champion List.mem_cons_self
      rw [hfirst] at hloses
      intro x hx
      rcases List.mem_cons.mp hx with rfl | hx
      · exact hchampion
      · rcases List.mem_cons.mp hx with rfl | hx
        · omega
        · exact hrest x (List.mem_cons_of_mem _ hx)

theorem numbers_int (function : String) (ns : List Int64) :
    numbers function (ns.map Value.int) = .ok (ns.map ofWord) := by
  induction ns with
  | nil => rfl
  | cons n ns ih =>
    simp only [List.map_cons, numbers, number?, ih]
    rfl

theorem someNumbers_int (function : String) {ns : List Int64} (hne : ns ≠ []) :
    someNumbers function (ns.map Value.int) = .ok (ns.map ofWord) := by
  simp only [someNumbers, numbers_int, bind, Except.bind, List.isEmpty_iff, List.map_eq_nil_iff,
    hne, if_false]
  rfl

section

variable {ns : List Int64}

/-- The extreme of a row of integers is the one with the greatest key. -/
theorem extreme_int (function : String) (beats : Binary64 → Binary64 → Bool) (key : Value → Int)
    (hne : ns ≠ [])
    (hbeats : ∀ a b : Int64, beats (ofWord a) (ofWord b) = true ↔ key (.int b) < key (.int a)) :
    ∃ m ∈ ns, extreme function beats (ns.map Value.int) = .ok (.int m) ∧
      ∀ n ∈ ns, key (.int n) ≤ key (.int m) := by
  cases ns with
  | nil => exact absurd rfl hne
  | cons first rest =>
    have hextreme : extreme function beats ((first :: rest).map Value.int) =
        .ok (best beats (.int first) (rest.map Value.int)) := by
      simp only [extreme, someNumbers_int function hne]
      rfl
    obtain ⟨m, hm, hbest⟩ := List.mem_map.mp (mem_extreme hextreme)
    have hkey : ∀ v ∈ (first :: rest).map Value.int, key v ≤ key (.int m) := by
      rw [hbest]
      refine key_le_best ?_
      intro v hv w hw
      obtain ⟨a, -, rfl⟩ := List.mem_map.mp (show v ∈ (first :: rest).map Value.int from hv)
      obtain ⟨b, -, rfl⟩ := List.mem_map.mp (show w ∈ (first :: rest).map Value.int from hw)
      exact hbeats a b
    exact ⟨m, hm, hextreme.trans (congrArg _ hbest.symm),
      fun n hn => hkey (.int n) (List.mem_map_of_mem hn)⟩

theorem greatest_int (hne : ns ≠ []) :
    ∃ m ∈ ns, greatest (ns.map Value.int) = .ok (.int m) ∧
      ∀ n ∈ ns, (Value.int n).Exceeds (.int m) → ofWord n = ofWord m := by
  obtain ⟨m, hm, hextreme, hkey⟩ := extreme_int "max" (fun x y => y.below x) wordWeight hne
    fun a b => Binary64.below_ofWord_iff b a
  refine ⟨m, hm, hextreme, ?_⟩
  intro n hn hexceeds
  have hle : weight m.toInt ≤ weight n.toInt := Binary64.weight_mono (exceeds_int.mp hexceeds).le
  exact (Binary64.ofWord_eq_iff n m).mpr (le_antisymm (hkey n hn) hle)

theorem least_int (hne : ns ≠ []) :
    ∃ m ∈ ns, least (ns.map Value.int) = .ok (.int m) ∧
      ∀ n ∈ ns, (Value.int m).Exceeds (.int n) → ofWord n = ofWord m := by
  obtain ⟨m, hm, hextreme, hkey⟩ := extreme_int "min" Binary64.below (-·.wordWeight) hne
    fun a b => (Binary64.below_ofWord_iff a b).trans neg_lt_neg_iff.symm
  refine ⟨m, hm, hextreme, ?_⟩
  intro n hn hexceeds
  have hle : weight n.toInt ≤ weight m.toInt := Binary64.weight_mono (exceeds_int.mp hexceeds).le
  exact (Binary64.ofWord_eq_iff n m).mpr (le_antisymm hle (neg_le_neg_iff.mp (hkey n hn)))

-- ---------------------------------------------------------------------------
-- Medians
-- ---------------------------------------------------------------------------

/-- **The total order of numbers does not contradict itself,** so a row of numbers is sorted by
insertion as by any other stable sort. -/
theorem arrange_numbers {xs : List Value} (hnumbers : ∀ v ∈ xs, v.number?.isSome = true) :
    (arrange numericallyBefore xs).map (List.map xs.get) = some (sortBy numericallyBefore xs) := by
  have hrank (i j : Fin xs.length) : placeLess numericallyBefore xs i j =
      decide ((numberOf (xs.get i)).rank < (numberOf (xs.get j)).rank) := by
    obtain ⟨x, hx⟩ := Option.isSome_iff_exists.mp (hnumbers _ (xs.get_mem i))
    obtain ⟨y, hy⟩ := Option.isSome_iff_exists.mp (hnumbers _ (xs.get_mem j))
    rw [placeLess, numericallyBefore, numberOf, numberOf, hx, hy, Bool.eq_iff_iff, beq_iff_eq,
      Binary64.compareTotal, Int.compare_eq_lt, decide_eq_true_iff]
    rfl
  have hless : Consistent (placeLess numericallyBefore xs) := by
    constructor
    · intro i j
      simp only [hrank, decide_eq_true_iff, decide_eq_false_iff_not]
      omega
    · intro i j k
      simp only [hrank, decide_eq_false_iff_not]
      omega
  rw [arrange_of_consistent hless, Option.map_some, map_get_sortBy]

theorem numericallyBefore_int (a b : Int64) :
    numericallyBefore (.int a) (.int b) = true ↔ weight a.toInt < weight b.toInt := by
  have hcompare : numericallyBefore (.int a) (.int b) =
      ((ofWord a).compareTotal (ofWord b) == .lt) := rfl
  rw [hcompare, beq_iff_eq, Binary64.compareTotal, Int.compare_eq_lt]
  exact Binary64.rank_ofWord_lt_iff a b

theorem sortsBefore_int (a b : Int64) :
    sortsBefore (.int a) (.int b) = true ↔ a.toInt < b.toInt := by
  have hcompare : sortsBefore (.int a) (.int b) = (compare a.toInt b.toInt == .lt) := rfl
  rw [hcompare, beq_iff_eq, Int.compare_eq_lt]

/-- A sort that goes by the order of integers, or by that of the numbers they are rounded to,
leaves these numbers in order. -/
theorem pairwise_weight (less : Value → Value → Bool) (ns : List Int64)
    (hless : ∀ a b : Int64, less (.int a) (.int b) = true → weight a.toInt ≤ weight b.toInt)
    (hnot : ∀ a b : Int64, ¬ less (.int a) (.int b) = true → weight b.toInt ≤ weight a.toInt) :
    (sortBy less (ns.map Value.int)).Pairwise fun v w => v.wordWeight ≤ w.wordWeight := by
  refine pairwise_sortBy (fun _ _ _ => le_trans) (List.pairwise_of_forall_mem_list ?_)
  intro v hv w hw
  obtain ⟨a, -, rfl⟩ := List.mem_map.mp hv
  obtain ⟨b, -, rfl⟩ := List.mem_map.mp hw
  rw [Placed]
  split
  · next h => exact hless b a h
  · next h => exact hnot b a h

/-- **Both sorts of integers put the same numbers in the same places**, once integers are
rounded. -/
theorem map_weight_sortBy (ns : List Int64) :
    (sortBy numericallyBefore (ns.map Value.int)).map wordWeight =
      (sortBy sortsBefore (ns.map Value.int)).map wordWeight := by
  have hrounded := pairwise_weight numericallyBefore ns
    (fun a b h => ((numericallyBefore_int a b).mp h).le)
    (fun a b h => not_lt.mp ((numericallyBefore_int a b).not.mp h))
  have hexact := pairwise_weight sortsBefore ns
    (fun a b h => Binary64.weight_mono ((sortsBefore_int a b).mp h).le)
    (fun a b h => Binary64.weight_mono (not_lt.mp ((sortsBefore_int a b).not.mp h)))
  have hperm : (sortBy numericallyBefore (ns.map Value.int)).Perm
      (sortBy sortsBefore (ns.map Value.int)) := (sortBy_perm ..).trans (sortBy_perm ..).symm
  exact List.Perm.eq_of_pairwise (fun _ _ _ _ => le_antisymm) (List.pairwise_map.mpr hrounded)
    (List.pairwise_map.mpr hexact) (hperm.map wordWeight)

/-- The element at a place of a sorted row of integers. -/
theorem sortBy_int_at (less : Value → Value → Bool) {i : Nat} (hi : i < ns.length) :
    ∃ n ∈ ns, (sortBy less (ns.map Value.int))[i]? = some (.int n) := by
  have hperm := sortBy_perm less (ns.map Value.int)
  have hlt : i < (sortBy less (ns.map Value.int)).length := by
    rwa [hperm.length_eq, List.length_map]
  obtain ⟨n, hn, heq⟩ := List.mem_map.mp (hperm.mem_iff.mp (List.getElem_mem hlt))
  exact ⟨n, hn, by rw [List.getElem?_eq_getElem hlt, heq]⟩

theorem sort_int (ns : List Int64) :
    sort (ns.map Value.int) = .ok (some (sortBy sortsBefore (ns.map Value.int))) := by
  refine sort_eq_sortBy (Or.inr ⟨.number, ?_⟩) ?_
  · intro v hv
    obtain ⟨n, -, rfl⟩ := List.mem_map.mp hv
    rfl
  · intro hstraddled
    obtain ⟨x, hx⟩ := hstraddled.mixed.2
    simp at hx

theorem median_eq_of_odd (hodd : ns.length % 2 = 1) {v : Value}
    (hv : (sortBy numericallyBefore (ns.map Value.int))[ns.length / 2]? = some v) :
    median (ns.map Value.int) = .ok v := by
  have hne : ns ≠ [] := by
    rintro rfl
    cases hodd
  have hlength : (sortBy numericallyBefore (ns.map Value.int)).length = ns.length :=
    (sortBy_perm ..).length_eq.trans (List.length_map ..)
  simp only [median, someNumbers_int "median" hne, bind, Except.bind, hlength, hodd, if_true,
    List.getD_eq_getElem?_getD, hv]
  rfl

theorem median_int (hodd : ns.length % 2 = 1) :
    ∃ m ∈ ns, ∃ k ∈ ns, ∃ sorted, median (ns.map Value.int) = .ok (.int m) ∧
      sort (ns.map Value.int) = .ok (some sorted) ∧ sorted[ns.length / 2]? = some (.int k) ∧
      ofWord m = ofWord k := by
  have hmiddle : ns.length / 2 < ns.length := by omega
  obtain ⟨m, hm, hrounded⟩ := sortBy_int_at numericallyBefore hmiddle
  obtain ⟨k, hk, hexact⟩ := sortBy_int_at sortsBefore hmiddle
  have hweight : weight m.toInt = weight k.toInt := by
    have hplace := congrArg (·[ns.length / 2]?) (map_weight_sortBy ns)
    simp only [List.getElem?_map, hrounded, hexact, Option.map_some, Option.some_inj] at hplace
    exact hplace
  exact ⟨m, hm, k, hk, _, median_eq_of_odd hodd hrounded, sort_int ns, hexact,
    (Binary64.ofWord_eq_iff m k).mpr hweight⟩

/-- No two different integers of a row are rounded to one number. -/
def ToldApart (ns : List Int64) : Prop := ∀ a ∈ ns, ∀ b ∈ ns, ofWord a = ofWord b → a = b

theorem toldApart_of_small (hsmall : ∀ n ∈ ns, -2 ^ 53 ≤ n.toInt ∧ n.toInt ≤ 2 ^ 53) :
    ToldApart ns := by
  intro a ha b hb heq
  have hweight := (Binary64.ofWord_eq_iff a b).mp heq
  have hasmall := hsmall a ha
  have hbsmall := hsmall b hb
  refine Int64.toInt_inj.mp ?_
  rcases lt_trichotomy a.toInt b.toInt with hlt | hsame | hgt
  · have hlarge := Binary64.large_of_weight_eq hlt hweight
    omega
  · exact hsame
  · have hlarge := Binary64.large_of_weight_eq hgt hweight.symm
    omega

end

end Sequence

open Sequence Value in
/-- **The order statistics of integers are those of the order of integers, up to rounding.** Take
any row of integers that is not empty.
* The greatest and the least element are elements of the row. An element that exceeds the
  greatest, or that the least exceeds, is rounded to the same number as that.
* The median of a row of odd length is an element that is rounded to the same number as the
  one in the middle of the sorted row.
* If no two different elements are rounded to one number, then no element exceeds the
  greatest, the least exceeds none, and the median of a row of odd length is the element in
  the middle of the sorted row. This is so for integers of magnitude at most `2 ^ 53`. -/
theorem order_statistics_up_to_rounding {ns : List Int64} (hne : ns ≠ []) :
    (∃ m ∈ ns, greatest (ns.map Value.int) = .ok (.int m) ∧
      ∀ n ∈ ns, (Value.int n).Exceeds (.int m) → ofWord n = ofWord m) ∧
    (∃ m ∈ ns, least (ns.map Value.int) = .ok (.int m) ∧
      ∀ n ∈ ns, (Value.int m).Exceeds (.int n) → ofWord n = ofWord m) ∧
    (ns.length % 2 = 1 →
      ∃ m ∈ ns, ∃ k ∈ ns, ∃ sorted, median (ns.map Value.int) = .ok (.int m) ∧
        sort (ns.map Value.int) = .ok (some sorted) ∧ sorted[ns.length / 2]? = some (.int k) ∧
        ofWord m = ofWord k) ∧
    (ToldApart ns →
      (∃ m ∈ ns, greatest (ns.map Value.int) = .ok (.int m) ∧
        ∀ n ∈ ns, ¬ (Value.int n).Exceeds (.int m)) ∧
      (∃ m ∈ ns, least (ns.map Value.int) = .ok (.int m) ∧
        ∀ n ∈ ns, ¬ (Value.int m).Exceeds (.int n)) ∧
      (ns.length % 2 = 1 →
        ∃ v sorted, median (ns.map Value.int) = .ok v ∧
          sort (ns.map Value.int) = .ok (some sorted) ∧ sorted[ns.length / 2]? = some v)) ∧
    ((∀ n ∈ ns, -2 ^ 53 ≤ n.toInt ∧ n.toInt ≤ 2 ^ 53) → ToldApart ns) := by
  refine ⟨greatest_int hne, least_int hne, median_int, ?_, toldApart_of_small⟩
  intro hapart
  have hself : ∀ n : Int64, ¬ (Value.int n).Exceeds (.int n) := by
    intro n hn
    exact lt_irrefl _ (exceeds_int.mp hn)
  refine ⟨?_, ?_, ?_⟩
  · obtain ⟨m, hm, hgreatest, hround⟩ := greatest_int hne
    refine ⟨m, hm, hgreatest, ?_⟩
    intro n hn hexceeds
    obtain rfl := hapart n hn m hm (hround n hn hexceeds)
    exact hself n hexceeds
  · obtain ⟨m, hm, hleast, hround⟩ := least_int hne
    refine ⟨m, hm, hleast, ?_⟩
    intro n hn hexceeds
    obtain rfl := hapart n hn m hm (hround n hn hexceeds)
    exact hself n hexceeds
  · intro hodd
    obtain ⟨m, hm, k, hk, sorted, hmedian, hsort, hmiddle, hround⟩ := median_int hodd
    obtain rfl := hapart m hm k hk hround
    exact ⟨_, sorted, hmedian, hsort, hmiddle⟩

open Sequence Value in
/-- The statistics agree with the order of integers on a row that goes up to the bounds. -/
theorem order_statistics_up_to_rounding_small :
    let ns : List Int64 := [3, -9007199254740992, 9007199254740992]
    let xs := ns.map Value.int
    ns ≠ [] ∧ ToldApart ns ∧
      (∃ m ∈ ns, greatest xs = .ok (.int m) ∧ ∀ n ∈ ns, ¬ (Value.int n).Exceeds (.int m)) ∧
      (∃ m ∈ ns, least xs = .ok (.int m) ∧ ∀ n ∈ ns, ¬ (Value.int m).Exceeds (.int n)) ∧
      (∃ v sorted, median xs = .ok v ∧ sort xs = .ok (some sorted) ∧
        sorted[ns.length / 2]? = some v) := by
  intro ns xs
  have hne : ns ≠ [] := List.cons_ne_nil _ _
  obtain ⟨-, -, -, hexact, hsmall⟩ := order_statistics_up_to_rounding hne
  have hbounds : ns.all fun n =>
      decide (-9007199254740992 ≤ n.toInt ∧ n.toInt ≤ 9007199254740992) := by decide +kernel
  have hapart : ToldApart ns := by
    refine hsmall ?_
    intro n hn
    have hn' := of_decide_eq_true (List.all_eq_true.mp hbounds n hn)
    omega
  obtain ⟨hgreatest, hleast, hmedian⟩ := hexact hapart
  exact ⟨hne, hapart, hgreatest, hleast, hmedian (by decide +kernel)⟩

open Sequence Value in
/-- Of the integers `2 ^ 53` and `2 ^ 53 + 1`, which are rounded to one number, the greatest
element is the first that comes, and so is the least; and with one more `2 ^ 53` behind them
the median is the greater one, which is not in the middle of the sorted row. -/
theorem order_statistics_differ :
    let low := Value.int 9007199254740992
    let high := Value.int 9007199254740993
    (greatest [low, high] = .ok low ∧ high.Exceeds low) ∧
    (least [high, low] = .ok high ∧ high.Exceeds low) ∧
    (median [low, high, low] = .ok high ∧
      ∃ sorted, sort [low, high, low] = .ok (some sorted) ∧ sorted[3 / 2]? = some low ∧
        low ≠ high) := by
  have hgreatest : greatest ([9007199254740992, 9007199254740993].map Value.int) =
      .ok (.int 9007199254740992) := rfl
  have hleast : least ([9007199254740993, 9007199254740992].map Value.int) =
      .ok (.int 9007199254740993) := rfl
  have hmedian : median ([9007199254740992, 9007199254740993, 9007199254740992].map Value.int) =
      .ok (.int 9007199254740993) := median_eq_of_odd rfl rfl
  have hexceeds : (Value.int 9007199254740993).Exceeds (.int 9007199254740992) := rfl
  refine ⟨⟨hgreatest, hexceeds⟩, ⟨hleast, hexceeds⟩, hmedian, _, rfl, rfl, ?_⟩
  intro hsame
  exact absurd (Value.int.inj hsame) (by decide)

end SeqScript
