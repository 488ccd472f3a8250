import Mathlib
import SeqScript.Proofs.Rounding.Order
import SeqScript.Sequence.Transform

/-!
# The order that rows are sorted in

Values fall into three families, and two of them can be ordered exactly if they are of one
family (`sortOrder_ok_iff`). Two integers are compared exactly, but an integer is compared
with a floating-point number as the number it is rounded to.

* `sortOrder_swap` — two values are in opposite order the other way round.
* `transitivity_fails_iff` — the order is transitive but for one kind of triple: a number
  with two integers around it that are both rounded to it.
-/

namespace SeqScript

open Binary64 (ofWord)

-- ---------------------------------------------------------------------------
-- Which values can be ordered
-- ---------------------------------------------------------------------------

/-- Values that can be ordered among each other. -/
inductive Family where
  | number | text | truth
  deriving DecidableEq

namespace Value

/-- The family of a value; all others can be ordered with nothing. -/
def family? : Value → Option Family
  | int _ | float _ => some .number
  | str _ => some .text
  | bool _ => some .truth
  | _ => none

/-- Two values can be ordered exactly if they are of one family. -/
theorem sortOrder_ok_iff {a b : Value} :
    (∃ o, a.sortOrder b = .ok o) ↔ ∃ f, a.family? = some f ∧ b.family? = some f := by
  cases a <;> cases b <;> simp [sortOrder, number?, family?]

theorem sortOrder_error {a b : Value} {cause : Cause} (h : a.sortOrder b = .error cause) :
    cause.faultClass = .type := by
  unfold sortOrder at h
  split at h
  · simp at h
  · simp at h
  · simp at h
  · split at h
    · simp at h
    · rw [← Except.error.inj h]
      rfl

theorem number_of_family {v : Value} (h : v.family? = some .number) :
    (∃ n, v = int n) ∨ ∃ x, v = float x := by
  cases v <;> simp_all [family?]

theorem text_of_family {v : Value} (h : v.family? = some .text) : ∃ s, v = str s := by
  cases v <;> simp_all [family?]

theorem truth_of_family {v : Value} (h : v.family? = some .truth) : ∃ b, v = bool b := by
  cases v <;> simp_all [family?]

-- ---------------------------------------------------------------------------
-- The order that rows are sorted in
-- ---------------------------------------------------------------------------

/-- A value that does not sort behind another. -/
def NotAbove (a b : Value) : Prop := ∃ o, a.sortOrder b = .ok o ∧ o ≠ .gt

/-- Two integers in falling order, and between them a number that both are rounded to. -/
def Straddles (a b c : Value) : Prop :=
  ∃ n k : Int64, a = .int n ∧ b = .float (ofWord n) ∧ c = .int k ∧
    ofWord k = ofWord n ∧ k.toInt < n.toInt

section

variable {κ : Type} [LinearOrder κ] {a b : Value} {k k' : κ}

theorem notAbove_of_keys (h : a.sortOrder b = .ok (compare k k')) : a.NotAbove b ↔ k ≤ k' := by
  rw [← compare_le_iff_le]
  constructor
  · rintro ⟨o, ho, hne⟩
    rw [h] at ho
    rwa [Except.ok.inj ho]
  · intro hne
    exact ⟨_, h, hne⟩

theorem swap_of_keys (h : a.sortOrder b = .ok (compare k k'))
    (h' : b.sortOrder a = .ok (compare k' k)) :
    ∃ o, a.sortOrder b = .ok o ∧ b.sortOrder a = .ok o.swap := by
  have hswap : compare k' k = (compare k k').swap := Std.OrientedCmp.eq_swap
  exact ⟨_, h, hswap ▸ h'⟩

end

/-- Values of one family are in opposite order the other way round. -/
theorem sortOrder_swap {f : Family} {a b : Value} (ha : a.family? = some f)
    (hb : b.family? = some f) :
    ∃ o, a.sortOrder b = .ok o ∧ b.sortOrder a = .ok o.swap := by
  cases f with
  | number =>
    rcases number_of_family ha with ⟨n, rfl⟩ | ⟨x, rfl⟩ <;>
      rcases number_of_family hb with ⟨k, rfl⟩ | ⟨y, rfl⟩ <;> exact swap_of_keys rfl rfl
  | text =>
    obtain ⟨s, rfl⟩ := text_of_family ha
    obtain ⟨t, rfl⟩ := text_of_family hb
    exact swap_of_keys rfl rfl
  | truth =>
    obtain ⟨p, rfl⟩ := truth_of_family ha
    obtain ⟨q, rfl⟩ := truth_of_family hb
    exact swap_of_keys rfl rfl

/-- The place of a number among floating-point numbers, an integer rounded. -/
def place : Value → Int
  | int n => (ofWord n).rank
  | float x => x.rank
  | _ => 0

theorem rank_ofWord_mono {n k : Int64} (h : n.toInt ≤ k.toInt) :
    (ofWord n).rank ≤ (ofWord k).rank := by
  have hweight := Binary64.weight_mono h
  have hlt := Binary64.rank_ofWord_lt_iff k n
  omega

theorem NotAbove.place_le {a b : Value} (ha : a.family? = some .number)
    (hb : b.family? = some .number) (h : a.NotAbove b) : a.place ≤ b.place := by
  rcases number_of_family ha with ⟨n, rfl⟩ | ⟨x, rfl⟩
  · rcases number_of_family hb with ⟨k, rfl⟩ | ⟨y, rfl⟩
    · exact rank_ofWord_mono ((notAbove_of_keys rfl).mp h)
    · exact (notAbove_of_keys rfl).mp h
  · rcases number_of_family hb with ⟨k, rfl⟩ | ⟨y, rfl⟩ <;> exact (notAbove_of_keys rfl).mp h

/-- The order of numbers is transitive, unless a number stands between two integers that
are rounded to it. -/
theorem number_transitivity {a b c : Value} (ha : a.family? = some .number)
    (hb : b.family? = some .number) (hc : c.family? = some .number) (hab : a.NotAbove b)
    (hbc : b.NotAbove c) (hac : ¬ a.NotAbove c) : Straddles a b c := by
  have hplace : a.place ≤ b.place ∧ b.place ≤ c.place :=
    ⟨hab.place_le ha hb, hbc.place_le hb hc⟩
  have hle : a.place ≤ c.place := hplace.1.trans hplace.2
  rcases number_of_family ha with ⟨n, rfl⟩ | ⟨x, rfl⟩
  · rcases number_of_family hc with ⟨k, rfl⟩ | ⟨y, rfl⟩
    · rw [notAbove_of_keys rfl, not_le] at hac
      rcases number_of_family hb with ⟨j, rfl⟩ | ⟨x, rfl⟩
      · have hnj : n.toInt ≤ j.toInt := (notAbove_of_keys rfl).mp hab
        have hjk : j.toInt ≤ k.toInt := (notAbove_of_keys rfl).mp hbc
        omega
      · -- rounded, the integers are in order after all, so that all three are one number
        have hback : (ofWord k).rank ≤ (ofWord n).rank := rank_ofWord_mono hac.le
        obtain ⟨hnx, hxk⟩ : (ofWord n).rank ≤ x.rank ∧ x.rank ≤ (ofWord k).rank := hplace
        have hx : x = ofWord n := Binary64.rank_injective (by omega)
        have hk : ofWord k = ofWord n := Binary64.rank_injective (by omega)
        exact ⟨n, k, rfl, hx ▸ rfl, rfl, hk, hac⟩
    · exact absurd ((notAbove_of_keys rfl).mpr hle) hac
  · rcases number_of_family hc with ⟨k, rfl⟩ | ⟨y, rfl⟩ <;>
      exact absurd ((notAbove_of_keys rfl).mpr hle) hac

theorem Straddles.fails {a b c : Value} (h : Straddles a b c) :
    a.NotAbove b ∧ b.NotAbove c ∧ ¬ a.NotAbove c := by
  obtain ⟨n, k, rfl, rfl, rfl, heq, hlt⟩ := h
  refine ⟨(notAbove_of_keys rfl).mpr le_rfl, (notAbove_of_keys rfl).mpr (heq ▸ le_rfl), ?_⟩
  rw [notAbove_of_keys rfl]
  omega

/-- Among values of one family, transitivity fails at triples of one kind and at no others. -/
theorem transitivity_fails_iff {f : Family} {a b c : Value} (ha : a.family? = some f)
    (hb : b.family? = some f) (hc : c.family? = some f) :
    (a.NotAbove b ∧ b.NotAbove c ∧ ¬ a.NotAbove c) ↔ Straddles a b c := by
  refine ⟨?_, Straddles.fails⟩
  rintro ⟨hab, hbc, hac⟩
  cases f with
  | number => exact number_transitivity ha hb hc hab hbc hac
  | text =>
    obtain ⟨s, rfl⟩ := text_of_family ha
    obtain ⟨t, rfl⟩ := text_of_family hb
    obtain ⟨u, rfl⟩ := text_of_family hc
    rw [notAbove_of_keys rfl] at hab hbc hac
    exact absurd (hab.trans hbc) hac
  | truth =>
    obtain ⟨p, rfl⟩ := truth_of_family ha
    obtain ⟨q, rfl⟩ := truth_of_family hb
    obtain ⟨r, rfl⟩ := truth_of_family hc
    rw [notAbove_of_keys rfl] at hab hbc hac
    exact absurd (hab.trans hbc) hac

/-- One of the integers that straddle a number is greater than `2 ^ 53` in magnitude. -/
theorem Straddles.large {a b c : Value} (h : Straddles a b c) :
    ∃ n k : Int64, a = .int n ∧ c = .int k ∧ (2 ^ 53 < n.toInt ∨ k.toInt < -2 ^ 53) := by
  obtain ⟨n, k, ha, -, hc, heq, hlt⟩ := h
  exact ⟨n, k, ha, hc, Binary64.large_of_weight_eq hlt ((Binary64.ofWord_eq_iff k n).mp heq)⟩

end Value

open Value in
/-- **The order that rows are sorted in is a total preorder, but for rounding.** Take three
values of one family, integers and floating-point numbers freely mixed.
* Each two of them are in opposite order the other way round.
* If the first is not above the second and the second not above the third, then the first is
  not above the third, with one exception: the first and the third are integers, in falling
  order, and the second is the floating-point number that both are rounded to. There the
  order is never transitive.
* The exception needs an integer beyond `2 ^ 53` in magnitude. -/
theorem sort_order_preorder_up_to_rounding {f : Family} {a b c : Value}
    (ha : a.family? = some f) (hb : b.family? = some f) (hc : c.family? = some f) :
    (∃ o, a.sortOrder b = .ok o ∧ b.sortOrder a = .ok o.swap) ∧
    ((a.NotAbove b ∧ b.NotAbove c ∧ ¬ a.NotAbove c) ↔ Straddles a b c) ∧
    (Straddles a b c →
      ∃ n k : Int64, a = .int n ∧ c = .int k ∧ (2 ^ 53 < n.toInt ∨ k.toInt < -2 ^ 53)) :=
  ⟨sortOrder_swap ha hb, transitivity_fails_iff ha hb hc, Straddles.large⟩

open Value in
/-- Of the two zeros and the integer between them, none is above those behind it. -/
theorem sort_order_preorder_up_to_rounding_zeros :
    let a := Value.float (-0.0)
    let b := Value.int 0
    let c := Value.float 0.0
    (a.family? = some .number ∧ b.family? = some .number ∧ c.family? = some .number) ∧
      a.sortOrder b = .ok .lt ∧ b.sortOrder a = .ok .gt ∧ a.NotAbove c := by
  intro a b c
  obtain ⟨⟨o, hab, hba⟩, htransitive, -⟩ :=
    sort_order_preorder_up_to_rounding (f := .number) (a := a) (b := b) (c := c) rfl rfl rfl
  have hlt : a.sortOrder b = .ok .lt := congrArg Except.ok (by decide +kernel)
  obtain rfl : o = .lt := Except.ok.inj (hab.symm.trans hlt)
  refine ⟨⟨rfl, rfl, rfl⟩, hlt, hba, ?_⟩
  by_contra hac
  have hbc : b.NotAbove c := (notAbove_of_keys rfl).mpr (by decide +kernel)
  obtain ⟨n, k, ha, -⟩ := htransitive.mp ⟨⟨.lt, hlt, by decide⟩, hbc, hac⟩
  cases show Value.float (-0.0) = Value.int n from ha

open Value in
/-- At the integers `2 ^ 53 + 1` and `2 ^ 53` with the number `2 ^ 53` between them, the order
is not transitive: the number is equal to both, and yet the first is above the other. -/
theorem sort_order_not_transitive :
    let a := Value.int 9007199254740993
    let b := Value.float 9007199254740992.0
    let c := Value.int 9007199254740992
    (a.family? = some .number ∧ b.family? = some .number ∧ c.family? = some .number) ∧
      a.NotAbove b ∧ b.NotAbove c ∧ ¬ a.NotAbove c := by
  intro a b c
  have hstraddles : Straddles a b c :=
    ⟨9007199254740993, 9007199254740992, rfl, congrArg Value.float (by decide +kernel), rfl,
      by decide +kernel, by decide⟩
  exact ⟨⟨rfl, rfl, rfl⟩, hstraddles.fails⟩

end SeqScript
