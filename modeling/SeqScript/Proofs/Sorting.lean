import SeqScript.Eval.Collection
import SeqScript.Proofs.Conform
import SeqScript.Proofs.SortOrder
import SeqScript.Proofs.StableSort

/-!
# Sorting values

Before a row is sorted its first value is compared with every other one. That is enough:
values can be ordered if they are of one family, so a row that passes is of one family
throughout and the sort meets no pair that it cannot order.

The order of a row may contradict itself all the same, if it holds a floating-point number
and two integers that are rounded to it (`Straddled`). A row that is not so, or that is
short, is sorted; of another one the sort may notice the contradiction and give up.

* `consistent_places` — a row in which no number is straddled is compared by an order.
* `sort_eq_none` — the sort gives up on no other row.
* `arrange_stable` — values that are equal keep the order they came in.

The main result is `sort_stable_permutation`.
-/

namespace SeqScript

namespace Sequence

open Value

-- ---------------------------------------------------------------------------
-- Arranging places
-- ---------------------------------------------------------------------------

section

variable {α : Type} {less : α → α → Bool} {xs : List α} {places : List (Fin xs.length)}

/-- The comparison of places in a row by what stands there. -/
def placeLess (less : α → α → Bool) (xs : List α) (i j : Fin xs.length) : Bool :=
  less (xs.get i) (xs.get j)

theorem arrange_eq (less : α → α → Bool) (xs : List α) :
    arrange less xs = stableSort (placeLess less xs) (List.finRange xs.length) := rfl

/-- Every place comes once, whatever the comparison says. -/
theorem arrange_perm (h : arrange less xs = some places) :
    places.Perm (List.finRange xs.length) := by
  rw [arrange_eq] at h
  exact stableSort_perm h

/-- A rearrangement of the places is one of the row. -/
theorem map_get_perm (h : places.Perm (List.finRange xs.length)) :
    (places.map xs.get).Perm xs := by
  have hmap := h.map xs.get
  rwa [List.map_get_finRange] at hmap

/-- The comparison is asked about elements of the row only. -/
theorem arrange_congr {less' : α → α → Bool}
    (h : ∀ a ∈ xs, ∀ b ∈ xs, less a b = less' a b) : arrange less xs = arrange less' xs := by
  have hplaces : placeLess less xs = placeLess less' xs := by
    funext i j
    exact h _ (xs.get_mem i) _ (xs.get_mem j)
  rw [arrange_eq, arrange_eq, hplaces]

/-- By an order, places are arranged as insertion would. -/
theorem arrange_of_consistent (hless : Consistent (placeLess less xs)) :
    arrange less xs = some (sortBy (placeLess less xs) (List.finRange xs.length)) := by
  rw [arrange_eq, stableSort_eq hless]

/-- To sort places and to read them is to sort. -/
theorem map_get_sortBy (less : α → α → Bool) (xs : List α) :
    (sortBy (placeLess less xs) (List.finRange xs.length)).map xs.get = sortBy less xs := by
  rw [show placeLess less xs = fun i j => less (xs.get i) (xs.get j) from rfl, map_sortBy,
    List.map_get_finRange]

/-- **Places are arranged so that equal elements keep their order.** -/
theorem arrange_stable (hless : Consistent (placeLess less xs))
    (h : arrange less xs = some places) :
    places.Pairwise fun i j =>
      less (xs.get i) (xs.get j) = true ∨ tie less (xs.get i) (xs.get j) = true ∧ i < j := by
  rw [arrange_of_consistent hless] at h
  rw [← Option.some.inj h]
  exact (sorts_sortBy _ _).stable hless (List.pairwise_lt_finRange _)

end

-- ---------------------------------------------------------------------------
-- Rows whose order contradicts itself
-- ---------------------------------------------------------------------------

/-- A row holds integers and floating-point numbers side by side. -/
def Mixed (xs : List Value) : Prop := (∃ n, Value.int n ∈ xs) ∧ ∃ x, Value.float x ∈ xs

/-- A row holds a floating-point number and two integers that are rounded to it. -/
def Straddled (xs : List Value) : Prop := ∃ a ∈ xs, ∃ b ∈ xs, ∃ c ∈ xs, Straddles a b c

variable {xs ys : List Value}

/-- Rows of integers alone, or of floating-point numbers alone, do not contradict
themselves. -/
theorem Straddled.mixed (h : Straddled xs) : Mixed xs := by
  obtain ⟨a, ha, b, hb, c, hc, n, k, rfl, rfl, rfl, -⟩ := h
  exact ⟨⟨n, ha⟩, ⟨_, hb⟩⟩

theorem sortsBefore_of_ok {a b : Value} {o : Ordering} (h : a.sortOrder b = .ok o) :
    sortsBefore a b = (o == .lt) := by
  simp only [sortsBefore, h]

/-- Of two values of one family, one does not go before the other exactly if that is not
above it. -/
theorem sortsBefore_eq_false_iff {f : Family} {a b : Value} (ha : a.family? = some f)
    (hb : b.family? = some f) : sortsBefore a b = false ↔ b.NotAbove a := by
  obtain ⟨o, hab, hba⟩ := sortOrder_swap ha hb
  rw [sortsBefore_of_ok hab, NotAbove, hba]
  cases o <;> simp [Ordering.swap]

/-- No two values go before each other. -/
theorem sortsBefore_asymm {f : Family} {a b : Value} (ha : a.family? = some f)
    (hb : b.family? = some f) (h : sortsBefore a b = true) : sortsBefore b a = false := by
  obtain ⟨o, hab, hba⟩ := sortOrder_swap ha hb
  rw [sortsBefore_of_ok hab] at h
  rw [sortsBefore_of_ok hba, eq_of_beq h]
  rfl

/-- No value goes before itself, whether it can be ordered or not. -/
theorem sortsBefore_self (a : Value) : sortsBefore a a = false := by
  cases hfamily : a.family? with
  | some f =>
    by_contra hself
    rw [Bool.not_eq_false] at hself
    exact Bool.false_ne_true ((sortsBefore_asymm hfamily hfamily hself).symm.trans hself)
  | none =>
    unfold sortsBefore
    split
    · next o ho =>
      obtain ⟨f, hf, -⟩ := sortOrder_ok_iff.mp ⟨o, ho⟩
      cases hfamily.symm.trans hf
    · rfl

/-- **Where no number is straddled, a row that may be sorted is compared by an order.** -/
theorem consistent_places (hfits : xs.length ≤ 1 ∨ ∃ f, ∀ v ∈ xs, v.family? = some f)
    (hstraddled : ¬ Straddled xs) : Consistent (placeLess sortsBefore xs) := by
  rcases hfits with hshort | ⟨f, hf⟩
  · have hsame (i j : Fin xs.length) : placeLess sortsBefore xs i j = false := by
      obtain rfl : i = j := Fin.ext (by omega)
      exact sortsBefore_self _
    exact ⟨fun _ => hsame _ _, fun _ _ => hsame _ _⟩
  · have hplace (i : Fin xs.length) : (xs.get i).family? = some f := hf _ (xs.get_mem i)
    refine ⟨fun {i j} => sortsBefore_asymm (hplace i) (hplace j), ?_⟩
    intro i j k hij hjk
    unfold placeLess at hij hjk ⊢
    rw [sortsBefore_eq_false_iff (hplace i) (hplace j)] at hij
    rw [sortsBefore_eq_false_iff (hplace j) (hplace k)] at hjk
    rw [sortsBefore_eq_false_iff (hplace i) (hplace k)]
    by_contra hik
    exact hstraddled ⟨_, xs.get_mem k, _, xs.get_mem j, _, xs.get_mem i,
      (transitivity_fails_iff (hplace k) (hplace j) (hplace i)).mp ⟨hjk, hij, hik⟩⟩

-- ---------------------------------------------------------------------------
-- The check before the sort
-- ---------------------------------------------------------------------------

/-- The first value is compared with every other one, and with nothing else. -/
theorem checkOrdered_ok_iff {first : Value} {rest : List Value} :
    checkOrdered first rest = .ok () ↔ ∀ v ∈ rest, ∃ o, first.sortOrder v = .ok o := by
  induction rest with
  | nil => simp [checkOrdered]
  | cons v vs ih =>
    rw [checkOrdered, List.forall_mem_cons, ← ih]
    cases first.sortOrder v with
    | error cause => simp [bind, Except.bind]
    | ok o => simp [bind, Except.bind]

/-- What cannot be compared is a fault of type. -/
theorem checkOrdered_error {first : Value} {rest : List Value} {cause : Cause}
    (h : checkOrdered first rest = .error cause) : cause.faultClass = .type := by
  induction rest with
  | nil => simp [checkOrdered] at h
  | cons v vs ih =>
    rw [checkOrdered] at h
    cases horder : first.sortOrder v with
    | error e =>
      rw [horder] at h
      rw [← Except.error.inj h]
      exact sortOrder_error horder
    | ok o =>
      rw [horder] at h
      exact ih h

/-- A first value that can be ordered with all others has all of one family. -/
theorem checkOrdered_ok_iff_family {first : Value} {rest : List Value} :
    checkOrdered first rest = .ok () ↔
      (first :: rest).length ≤ 1 ∨ ∃ f, ∀ v ∈ first :: rest, v.family? = some f := by
  rw [checkOrdered_ok_iff]
  cases rest with
  | nil => simp
  | cons v vs =>
    have hlong : ¬ (first :: v :: vs).length ≤ 1 := by simp
    simp only [hlong, false_or, sortOrder_ok_iff]
    constructor
    · intro h
      obtain ⟨f, hfirst, -⟩ := h v (List.mem_cons_self ..)
      refine ⟨f, List.forall_mem_cons.mpr ⟨hfirst, ?_⟩⟩
      intro w hw
      obtain ⟨g, hg, hwg⟩ := h w hw
      rw [hwg, ← hg, hfirst]
    · rintro ⟨f, hf⟩ w hw
      exact ⟨f, hf first (List.mem_cons_self ..), hf w (List.mem_cons_of_mem _ hw)⟩

theorem sort_cons (first : Value) (rest : List Value) :
    sort (first :: rest) = (checkOrdered first rest).map fun _ =>
      (arrange sortsBefore (first :: rest)).map fun places =>
        places.map (first :: rest).get := by
  rw [sort]
  cases checkOrdered first rest <;> rfl

/-- **A row that passes the check is arranged**, and no other one is. -/
theorem sort_eq_ok_iff {r : Option (List Value)} :
    sort xs = .ok r ↔
      (xs.length ≤ 1 ∨ ∃ f, ∀ v ∈ xs, v.family? = some f) ∧
        r = (arrange sortsBefore xs).map fun places => places.map xs.get := by
  cases xs with
  | nil =>
    have harrange : arrange sortsBefore ([] : List Value) = some [] := rfl
    rw [harrange]
    exact ⟨fun h => ⟨Or.inl (Nat.zero_le 1), (Except.ok.inj h).symm⟩, fun h => congrArg _ h.2.symm⟩
  | cons first rest =>
    rw [← checkOrdered_ok_iff_family, sort_cons]
    cases checkOrdered first rest with
    | error cause => simp [Except.map]
    | ok u => simp [Except.map, eq_comm]

/-- A row passes the check exactly if it is of one family, or has no two elements. -/
theorem sort_ok_iff :
    (∃ r, sort xs = .ok r) ↔ xs.length ≤ 1 ∨ ∃ f, ∀ v ∈ xs, v.family? = some f := by
  constructor
  · rintro ⟨r, hr⟩
    exact (sort_eq_ok_iff.mp hr).1
  · intro hfits
    exact ⟨_, sort_eq_ok_iff.mpr ⟨hfits, rfl⟩⟩

theorem sort_error {cause : Cause} (h : sort xs = .error cause) : cause.faultClass = .type := by
  cases xs with
  | nil => cases h
  | cons first rest =>
    rw [sort_cons] at h
    cases hcheck : checkOrdered first rest with
    | error e =>
      rw [hcheck] at h
      rw [← Except.error.inj h]
      exact checkOrdered_error hcheck
    | ok u => simp [hcheck, Except.map] at h

/-- A row in which no number is straddled is sorted. -/
theorem sort_eq_sortBy (hfits : xs.length ≤ 1 ∨ ∃ f, ∀ v ∈ xs, v.family? = some f)
    (hstraddled : ¬ Straddled xs) : sort xs = .ok (some (sortBy sortsBefore xs)) := by
  refine sort_eq_ok_iff.mpr ⟨hfits, ?_⟩
  rw [arrange_of_consistent (consistent_places hfits hstraddled), Option.map_some, map_get_sortBy]

/-- **The sort gives up on no row but a long one with a number that is straddled.** -/
theorem sort_eq_none (h : sort xs = .ok none) : shortLength < xs.length ∧ Straddled xs := by
  obtain ⟨hfits, hnone⟩ := sort_eq_ok_iff.mp h
  have hnone : arrange sortsBefore xs = none := Option.map_eq_none_iff.mp hnone.symm
  constructor
  · by_contra hshort
    rw [arrange_eq, stableSort_of_short] at hnone
    · cases hnone
    · rw [List.length_finRange]
      exact Nat.le_of_not_lt hshort
  · by_contra hstraddled
    rw [arrange_of_consistent (consistent_places hfits hstraddled)] at hnone
    cases hnone

/-- Every two values of a row that is sorted can be ordered, either way round. -/
theorem pairwise_orderable (hfits : xs.length ≤ 1 ∨ ∃ f, ∀ v ∈ xs, v.family? = some f) :
    xs.Pairwise fun a b => (∃ o, a.sortOrder b = .ok o) ∧ ∃ o, b.sortOrder a = .ok o := by
  rcases hfits with hshort | ⟨f, hf⟩
  · rw [List.pairwise_iff_getElem]
    intro i j _ _ _
    omega
  · refine List.pairwise_of_forall_mem_list ?_
    intro a ha b hb
    exact ⟨sortOrder_ok_iff.mpr ⟨f, hf a ha, hf b hb⟩, sortOrder_ok_iff.mpr ⟨f, hf b hb, hf a ha⟩⟩

/-- Of two places of a row, the value at the first goes before that at the second. -/
def GoesBefore (xs : List Value) (i j : Fin xs.length) : Prop :=
  (xs.get i).sortOrder (xs.get j) = .ok .lt ∨
    (xs.get i).sortOrder (xs.get j) = .ok .eq ∧ i < j

/-- What the sort puts first goes before. -/
theorem goesBefore_of_less {f : Family} (hf : ∀ v ∈ xs, v.family? = some f)
    {i j : Fin xs.length} (h : sortsBefore (xs.get i) (xs.get j) = true ∨
      tie sortsBefore (xs.get i) (xs.get j) = true ∧ i < j) : GoesBefore xs i j := by
  obtain ⟨o, hij, hji⟩ := sortOrder_swap (hf _ (xs.get_mem i)) (hf _ (xs.get_mem j))
  rw [tie, sortsBefore_of_ok hij, sortsBefore_of_ok hji] at h
  rw [GoesBefore, hij]
  cases o with
  | lt => exact Or.inl rfl
  | eq =>
    rcases h with h | ⟨-, h⟩
    · cases h
    · exact Or.inr ⟨rfl, h⟩
  | gt =>
    rcases h with h | ⟨h, -⟩
    · cases h
    · cases h

/-- **A row in which no number is straddled is sorted stably.** -/
theorem arrange_goesBefore (hfits : xs.length ≤ 1 ∨ ∃ f, ∀ v ∈ xs, v.family? = some f)
    (hstraddled : ¬ Straddled xs) {places : List (Fin xs.length)}
    (h : arrange sortsBefore xs = some places) : places.Pairwise (GoesBefore xs) := by
  rcases hfits with hshort | ⟨f, hf⟩
  · have hlength := (arrange_perm h).length_eq
    rw [List.length_finRange] at hlength
    rw [List.pairwise_iff_getElem]
    intro i j _ _ _
    omega
  · exact (arrange_stable (consistent_places (Or.inr ⟨f, hf⟩) hstraddled) h).imp
      (goesBefore_of_less hf)

/-- What goes before is not above. -/
theorem GoesBefore.notAbove {i j : Fin xs.length} (h : GoesBefore xs i j) :
    (xs.get i).NotAbove (xs.get j) := by
  rcases h with hlt | ⟨heq, -⟩
  · exact ⟨.lt, hlt, by simp⟩
  · exact ⟨.eq, heq, by simp⟩

/-- What a comparison says of pairs that cannot be ordered does not matter. -/
theorem arrange_of_agrees (hfits : xs.length ≤ 1 ∨ ∃ f, ∀ v ∈ xs, v.family? = some f)
    {less : Value → Value → Bool}
    (hless : ∀ a b o, a.sortOrder b = .ok o → less a b = (o == .lt)) :
    arrange less xs = arrange sortsBefore xs := by
  rcases hfits with hshort | ⟨f, hf⟩
  · -- at most one place, which is compared with nothing
    have hplaces (less : Value → Value → Bool) :
        arrange less xs = some (List.finRange xs.length) := by
      rw [← List.length_finRange (n := xs.length)] at hshort
      rw [arrange_eq, stableSort_of_short _ (hshort.trans (by decide)),
        eq_of_perm_of_short (sortBy_perm ..) hshort]
    rw [hplaces, hplaces]
  · refine arrange_congr ?_
    intro a ha b hb
    obtain ⟨o, ho⟩ := sortOrder_ok_iff.mpr ⟨f, hf a ha, hf b hb⟩
    rw [hless a b o ho, sortsBefore_of_ok ho]

end Sequence

-- ---------------------------------------------------------------------------
-- Main result
-- ---------------------------------------------------------------------------

section

variable (self : Doer) {m : Machine} (kind : SeqKind) {id : SeqId} (mutate : Bool)
  (declared : Option Ty) (line : Nat)

/-- The sorted row is written to the store, and the subject is the result. -/
theorem apply_sort_of_some {ys : List Value}
    (h : Sequence.sort (m.heap.read id).toList = .ok (some ys)) :
    CollectionOp.sort.apply self (.seq kind id) [] mutate declared line m =
      .ok (.seq kind id) { m with heap := m.heap.write id ys.toArray } := by
  show (CollectionOp.sorted line (m.heap.read id).toList >>= _) m = _
  rw [CollectionOp.sorted, h]
  rfl

/-- If the sort gives up, the machine is left as it is. -/
theorem apply_sort_of_none (h : Sequence.sort (m.heap.read id).toList = .ok none) :
    CollectionOp.sort.apply self (.seq kind id) [] mutate declared line m =
      .error (.disorder (m.heap.read id).toList) m := by
  show (CollectionOp.sorted line (m.heap.read id).toList >>= _) m = _
  rw [CollectionOp.sorted, h]
  rfl

theorem apply_sort_of_error {cause : Cause}
    (h : Sequence.sort (m.heap.read id).toList = .error cause) :
    CollectionOp.sort.apply self (.seq kind id) [] mutate declared line m =
      .error (.fault ⟨line, cause⟩) m := by
  show (CollectionOp.sorted line (m.heap.read id).toList >>= _) m = _
  rw [CollectionOp.sorted, h]
  rfl

end

open Sequence Value in
/-- **Sorting is a stable rearrangement of values of one family, unless it gives up.**
* A row is accepted exactly if it has at most one value or all its values are numbers, or
  texts, or truth values. Otherwise it is refused with a type error.
* The sort gives up on an accepted row only if it has more than twenty values and holds a
  floating-point number with two different integers that are rounded to it. Such a row mixes
  integers and floating-point numbers, and its order contradicts itself.
* If it does not give up, what comes out is a rearrangement. Every two of the values could be
  ordered, so that any comparison which says what the order says arranges them alike: what it
  says of pairs that cannot be ordered is never asked for.
* If the row holds no such number, in particular if integers and floating-point numbers are
  not mixed, every value stands where it is not greater than any behind it, and of two equal
  ones the one that came first stands first.
* `xs.sort()` writes the sorted row over the elements of `xs`. If the row is refused, or the
  sort gives up, it leaves them and all else as they were. -/
theorem sort_stable_permutation (xs : List Value) :
    ((∃ r, sort xs = .ok r) ↔ xs.length ≤ 1 ∨ ∃ f, ∀ v ∈ xs, v.family? = some f) ∧
    (∀ cause, sort xs = .error cause → cause.faultClass = .type) ∧
    (sort xs = .ok none → shortLength < xs.length ∧ Straddled xs) ∧
    (Straddled xs → Mixed xs) ∧
    (∀ ys, sort xs = .ok (some ys) →
      ys.Perm xs ∧
      xs.Pairwise (fun a b => (∃ o, a.sortOrder b = .ok o) ∧ ∃ o, b.sortOrder a = .ok o) ∧
      ∃ places : List (Fin xs.length),
        places.Perm (List.finRange xs.length) ∧ places.map xs.get = ys ∧
        (∀ less : Value → Value → Bool,
          (∀ a b o, a.sortOrder b = .ok o → less a b = (o == .lt)) →
            arrange less xs = some places) ∧
        (¬ Straddled xs → ys.Pairwise NotAbove ∧ places.Pairwise (GoesBefore xs))) ∧
    (∀ (self : Doer) (m : Machine) (kind : SeqKind) (id : SeqId) (mutate : Bool)
        (declared : Option Ty) (line : Nat), (m.heap.read id).toList = xs →
      let act := CollectionOp.sort.apply self (.seq kind id) [] mutate declared line
      (∀ ys, sort xs = .ok (some ys) →
        act m = .ok (.seq kind id) { m with heap := m.heap.write id ys.toArray }) ∧
      (sort xs = .ok none → act m = .error (.disorder xs) m) ∧
      (∀ cause, sort xs = .error cause → act m = .error (.fault ⟨line, cause⟩) m)) := by
  refine ⟨sort_ok_iff, fun _ => sort_error, sort_eq_none, Straddled.mixed, ?_, ?_⟩
  · intro ys hok
    obtain ⟨hfits, hys⟩ := sort_eq_ok_iff.mp hok
    obtain ⟨places, harrange, rfl⟩ := Option.map_eq_some_iff.mp hys.symm
    refine ⟨map_get_perm (arrange_perm harrange), pairwise_orderable hfits, places,
      arrange_perm harrange, rfl, ?_, ?_⟩
    · intro less hless
      rw [arrange_of_agrees hfits hless, harrange]
    · intro hstraddled
      have hbefore := arrange_goesBefore hfits hstraddled harrange
      exact ⟨List.pairwise_map.mpr (hbefore.imp GoesBefore.notAbove), hbefore⟩
  · rintro self m kind id mutate declared line rfl
    refine ⟨?_, ?_, ?_⟩
    · intro ys hok
      exact apply_sort_of_some self kind mutate declared line hok
    · intro hnone
      exact apply_sort_of_none self kind mutate declared line hnone
    · intro cause herror
      exact apply_sort_of_error self kind mutate declared line herror

/-- Twenty-one numbers, all of them `2 ^ 53` but for the first, which is the integer behind it
and is rounded to it. -/
def straddledRow : List Value :=
  let low := Value.int 9007199254740992
  let float := Value.float 9007199254740992.0
  [.int 9007199254740993, low] ++ List.replicate 8 float ++ [low, low] ++
    List.replicate 9 float

open Sequence Value in
/-- Of a row of numbers in which the integers `2 ^ 53 + 1` and `2 ^ 53` straddle the number
`2 ^ 53`, the sort finds that the two ends of a merge do not meet, and it gives up. -/
theorem sort_gives_up :
    straddledRow.length = 21 ∧ (∀ v ∈ straddledRow, v.family? = some .number) ∧
      sort straddledRow = .ok none := by
  have hnumbers : ∀ v ∈ straddledRow, v.family? = some .number := by decide
  have hnone : arrange sortsBefore straddledRow = none := by decide +kernel
  exact ⟨rfl, hnumbers, sort_eq_ok_iff.mpr ⟨Or.inr ⟨.number, hnumbers⟩, by rw [hnone]; rfl⟩⟩

end SeqScript
