import Mathlib
import SeqScript.Eval.Builtin
import SeqScript.Proofs.Provenance

/-!
# Integer arithmetic is exact or refused

Every operation on integers is carried out on unbounded ones, and what comes out is a word or
is refused. So nothing ever wraps around, and of each operation only the range is left to say:
for which operands the result is a word.

* `Exact` — a result is the very integer if that is a word, and a value error if it is none.
* `TruncatedDivision` — what a quotient and a remainder have to be, said of the exact quotient.
  Only the least word over `-1` has a quotient that is no word (`fits_tdiv_iff`).
* `foldlM_ofInt?` — a sum is taken from the left, so every partial sum on the way has to be a
  word, also one that later terms would bring back into range.

The main result is `integer_arithmetic_exact`.
-/

namespace SeqScript

-- ---------------------------------------------------------------------------
-- Integers that are words
-- ---------------------------------------------------------------------------

namespace Word

/-- The integers that are words. -/
def Fits (n : Int) : Prop := -2 ^ 63 ≤ n ∧ n < 2 ^ 63

theorem fits_toInt (w : Int64) : Fits w.toInt := ⟨w.le_toInt, w.toInt_lt⟩

theorem ofInt?_of_fits {n : Int} (hlow : -2 ^ 63 ≤ n) (hhigh : n < 2 ^ 63) :
    ofInt? n = some (Int64.ofInt n) := if_pos (by omega)

theorem ofInt?_of_not_fits {n : Int} (h : n < -2 ^ 63 ∨ 2 ^ 63 ≤ n) : ofInt? n = none :=
  if_neg (by omega)

theorem ofInt?_eq_none_iff {n : Int} : ofInt? n = none ↔ ¬ Fits n := by
  unfold Fits
  constructor
  · rintro hnone ⟨hlow, hhigh⟩
    simp [ofInt?_of_fits hlow hhigh] at hnone
  · intro hout
    exact ofInt?_of_not_fits (by omega)

/-- A word is that of the integer it stands for, and of no other. -/
theorem ofInt?_eq_some_iff {n : Int} {w : Int64} : ofInt? n = some w ↔ w.toInt = n := by
  constructor
  · intro hsome
    have hfits : Fits n := by
      by_contra hout
      simp [ofInt?_eq_none_iff.mpr hout] at hsome
    rw [ofInt?_of_fits hfits.1 hfits.2] at hsome
    rw [← Option.some.inj hsome]
    exact Int64.toInt_ofInt_of_le hfits.1 hfits.2
  · rintro rfl
    rw [ofInt?_of_fits w.le_toInt w.toInt_lt, Int64.ofInt_toInt]

/-- An integer of no greater magnitude than a word is a word, unless it is the least one negated. -/
theorem fits_of_natAbs_le {n : Int} {w : Int64} (hle : n.natAbs ≤ w.toInt.natAbs)
    (hne : n ≠ 2 ^ 63) : Fits n := by
  have hlow := w.le_toInt
  have hhigh := w.toInt_lt
  unfold Fits
  omega

theorem toInt_eq_min_iff {w : Int64} : w.toInt = -2 ^ 63 ↔ w = Int64.minValue := by
  rw [← Int64.toInt_inj]
  exact Iff.rfl

end Word

open Word

-- ---------------------------------------------------------------------------
-- Results
-- ---------------------------------------------------------------------------

/-- A result is refused with a value error. -/
def Refused (r : Except Cause Value) : Prop := ∃ cause, r = .error cause ∧ cause.faultClass = .value

/-- A result is the integer `n` itself if that is a word, and refused if it is none. -/
structure Exact (n : Int) (r : Except Cause Value) : Prop where
  given : Fits n → ∃ w : Int64, w.toInt = n ∧ r = .ok (.int w)
  refused : ¬ Fits n → Refused r

theorem not_refused_ok (v : Value) : ¬ Refused (.ok v) := by
  rintro ⟨cause, hr, -⟩
  cases hr

theorem exact_ok {n : Int} {w : Int64} (hw : w.toInt = n) : Exact n (.ok (.int w)) where
  given _ := ⟨w, hw, rfl⟩
  refused hout := absurd (hw ▸ fits_toInt w) hout

theorem exact_error {n : Int} {cause : Cause} (hout : ¬ Fits n)
    (hcause : cause.faultClass = .value) : Exact n (.error cause) where
  given hfits := absurd hfits hout
  refused _ := ⟨cause, rfl, hcause⟩

theorem Exact.refused_iff {n : Int} {r : Except Cause Value} (h : Exact n r) :
    Refused r ↔ ¬ Fits n := by
  refine ⟨?_, h.refused⟩
  intro hrefused hfits
  obtain ⟨w, -, rfl⟩ := h.given hfits
  exact not_refused_ok _ hrefused

-- ---------------------------------------------------------------------------
-- Division
-- ---------------------------------------------------------------------------

/-- `q` and `r` are the quotient and the remainder of a division that cuts off toward zero. -/
structure TruncatedDivision (a b q r : Int) : Prop where
  quotient : q = if 0 ≤ (a / b : ℚ) then ⌊(a / b : ℚ)⌋ else ⌈(a / b : ℚ)⌉
  whole : a = q * b + r
  small : |r| < |b|
  sign : r = 0 ∨ r.sign = a.sign

/-- A remainder that is small and has the sign of the dividend makes the quotient the exact one
without its fraction. -/
theorem truncated_of_remainder {a b q r : Int} (hb : b ≠ 0) (hwhole : a = q * b + r)
    (hsmall : |r| < |b|) (hsign : r = 0 ∨ r.sign = a.sign) :
    q = if 0 ≤ (a / b : ℚ) then ⌊(a / b : ℚ)⌋ else ⌈(a / b : ℚ)⌉ := by
  have hb' : (b : ℚ) ≠ 0 := Int.cast_ne_zero.mpr hb
  have hquotient : (a / b : ℚ) = q + r / b := by
    rw [hwhole]
    push_cast
    field_simp
  by_cases hr : r = 0
  · simp [hquotient, hr]
  have hfraction : |(r / b : ℚ)| < 1 := by
    rw [abs_div, div_lt_one (abs_pos.mpr hb')]
    exact_mod_cast hsmall
  obtain ⟨habove, hbelow⟩ := abs_lt.mp hfraction
  -- the fraction has the sign of the exact quotient
  have hsame : 0 < (r / b : ℚ) * (a / b) := by
    have hproduct : 0 < r * a := by
      rw [← Int.sign_eq_one_iff_pos, Int.sign_mul, ← hsign.resolve_left hr, ← Int.sign_mul,
        Int.sign_eq_one_iff_pos]
      exact mul_self_pos.mpr hr
    rw [div_mul_div_comm]
    exact div_pos (by exact_mod_cast hproduct) (mul_self_pos.mpr hb')
  split_ifs with hnonneg
  · have hpositive : 0 < (r / b : ℚ) := pos_of_mul_pos_left hsame hnonneg
    symm
    rw [Int.floor_eq_iff, hquotient]
    constructor <;> linarith
  · have hnegative : (r / b : ℚ) < 0 := neg_of_mul_pos_left hsame (le_of_not_ge hnonneg)
    symm
    rw [Int.ceil_eq_iff, hquotient]
    constructor <;> linarith

theorem truncatedDivision_tdiv (a : Int) {b : Int} (hb : b ≠ 0) :
    TruncatedDivision a b (a.tdiv b) (a.tmod b) := by
  have hwhole : a = a.tdiv b * b + a.tmod b := (Int.tdiv_mul_add_tmod a b).symm
  have hsmall : |a.tmod b| < |b| := by
    rw [Int.abs_eq_natAbs, Int.abs_eq_natAbs, Int.natAbs_tmod]
    exact_mod_cast Nat.mod_lt _ (Int.natAbs_pos.mpr hb)
  have hsign : a.tmod b = 0 ∨ (a.tmod b).sign = a.sign := by
    rw [← Int.sign_eq_zero_iff_zero, Int.sign_tmod]
    split_ifs
    · exact Or.inl rfl
    · exact Or.inr rfl
  exact ⟨truncated_of_remainder hb hwhole hsmall hsign, hwhole, hsmall, hsign⟩

/-- The only quotient of two words that is no word is that of the least one and `-1`. -/
theorem fits_tdiv_iff {a b : Int64} (hb : b.toInt ≠ 0) :
    Fits (a.toInt.tdiv b.toInt) ↔ ¬ (a = Int64.minValue ∧ b = -1) := by
  constructor
  · rintro hfits ⟨rfl, rfl⟩
    exact absurd hfits.2 (by decide)
  · intro hne
    have hquotient := Int.natAbs_tdiv a.toInt b.toInt
    refine fits_of_natAbs_le (w := a) ?_ ?_
    · rw [hquotient]
      exact Nat.div_le_self ..
    · -- a quotient of `2 ^ 63` leaves only `-1` to divide by
      intro hbound
      rw [hbound] at hquotient
      have hmagnitude : a.toInt.natAbs / b.toInt.natAbs = 2 ^ 63 := hquotient.symm
      have hle := Nat.div_mul_le_self a.toInt.natAbs b.toInt.natAbs
      rw [hmagnitude] at hle
      have hlow := a.le_toInt
      have hhigh := a.toInt_lt
      have hunit : b.toInt = 1 ∨ b.toInt = -1 := by omega
      rcases hunit with hone | hminus
      · rw [hone, Int.tdiv_one] at hbound
        omega
      · rw [hminus, Int.tdiv_neg, Int.tdiv_one] at hbound
        exact hne ⟨toInt_eq_min_iff.mp (by omega), Int64.toInt_inj.mp hminus⟩

/-- The remainder of two words is a word. -/
theorem fits_tmod (a : Int64) {b : Int64} (hb : b.toInt ≠ 0) : Fits (a.toInt.tmod b.toInt) := by
  have hsmall := (truncatedDivision_tdiv a.toInt hb).small
  rw [Int.abs_eq_natAbs, Int.abs_eq_natAbs] at hsmall
  have hlow := b.le_toInt
  have hhigh := b.toInt_lt
  unfold Fits
  omega

-- ---------------------------------------------------------------------------
-- Operators
-- ---------------------------------------------------------------------------

section

variable {op : BinaryOp} {a b : Int64} {n : Int}

/-- An operator with nothing to refuse beforehand. -/
theorem exact_arithmetic (hguard : ¬ ((op = .div ∨ op = .mod) ∧ b = 0))
    (hcombine : combine? op a b = ofInt? n) : Exact n (Value.arithmetic op (.int a) (.int b)) := by
  rw [Value.arithmetic, Word.arithmetic, if_neg hguard, hcombine]
  cases hw : ofInt? n with
  | some w => exact exact_ok (ofInt?_eq_some_iff.mp hw)
  | none => exact exact_error (ofInt?_eq_none_iff.mp hw) rfl

theorem refused_of_zero (a : Int64) (hop : op = .div ∨ op = .mod) :
    Refused (Value.arithmetic op (.int a) (.int 0)) := by
  refine ⟨.divisionByZero, ?_, rfl⟩
  rw [Value.arithmetic, Word.arithmetic, if_pos ⟨hop, rfl⟩]
  rfl

/-- Quotient and remainder are given or refused together. -/
theorem divided (hb : b ≠ 0) (hne : ¬ (a = Int64.minValue ∧ b = -1)) :
    ∃ q r : Int64, Value.arithmetic .div (.int a) (.int b) = .ok (.int q) ∧
      Value.arithmetic .mod (.int a) (.int b) = .ok (.int r) ∧
      TruncatedDivision a.toInt b.toInt q.toInt r.toInt := by
  have hb' : b.toInt ≠ 0 := fun hzero => hb (Int64.toInt_inj.mp hzero)
  have hfits := (fits_tdiv_iff hb').mpr hne
  have hquotient : combine? .div a b = ofInt? (a.toInt.tdiv b.toInt) := rfl
  have hremainder : combine? .mod a b = ofInt? (a.toInt.tmod b.toInt) := by
    rw [combine?, ofInt?_of_fits hfits.1 hfits.2]
    rfl
  obtain ⟨q, hq, hdiv⟩ := (exact_arithmetic (by simp [hb]) hquotient).given hfits
  obtain ⟨r, hr, hmod⟩ := (exact_arithmetic (by simp [hb]) hremainder).given (fits_tmod a hb')
  refine ⟨q, r, hdiv, hmod, ?_⟩
  rw [hq, hr]
  exact truncatedDivision_tdiv a.toInt hb'

theorem not_divided : Refused (Value.arithmetic .div (.int .minValue) (.int (-1))) ∧
    Refused (Value.arithmetic .mod (.int .minValue) (.int (-1))) :=
  ⟨⟨_, rfl, rfl⟩, ⟨_, rfl, rfl⟩⟩

theorem exact_negate (n : Int64) : Exact (-n.toInt) (Value.unary .negate (.int n)) := by
  rw [Value.unary]
  cases hw : ofInt? (-n.toInt) with
  | some w => exact exact_ok (ofInt?_eq_some_iff.mp hw)
  | none => exact exact_error (ofInt?_eq_none_iff.mp hw) rfl

theorem exact_magnitude (n : Int64) : Exact |n.toInt| (Builtin.magnitude (.int n)) := by
  rw [Int.abs_eq_natAbs]
  generalize hv : Value.int n = v
  fun_cases Builtin.magnitude v with
  | case1 k w hw =>
    cases hv
    exact exact_ok (ofInt?_eq_some_iff.mp hw)
  | case2 k hnone =>
    cases hv
    exact exact_error (ofInt?_eq_none_iff.mp hnone) rfl
  | case3 => cases hv
  | case4 _ hint => exact absurd hv.symm (hint n)

theorem not_fits_neg_iff : ¬ Fits (-a.toInt) ↔ a = Int64.minValue := by
  have hlow := a.le_toInt
  have hhigh := a.toInt_lt
  rw [← toInt_eq_min_iff]
  unfold Fits
  omega

theorem not_fits_abs_iff : ¬ Fits |a.toInt| ↔ a = Int64.minValue := by
  have hlow := a.le_toInt
  have hhigh := a.toInt_lt
  rw [← toInt_eq_min_iff, Int.abs_eq_natAbs]
  unfold Fits
  omega

end

-- ---------------------------------------------------------------------------
-- Sums
-- ---------------------------------------------------------------------------

namespace Sequence

/-- Every partial sum of a row is a word. -/
def PartialSumsFit (ns : List Int64) : Prop := ∀ p, p <+: ns → Fits (p.map Int64.toInt).sum

/-- Terms are added to what has been added up so far, which has to be a word each time. -/
theorem foldlM_ofInt? {ns : List Int64} {start total : Int64} :
    ns.foldlM (fun sum n => ofInt? (sum.toInt + n.toInt)) start = some total ↔
      (∀ p, p <+: ns → Fits (start.toInt + (p.map Int64.toInt).sum)) ∧
        total.toInt = start.toInt + (ns.map Int64.toInt).sum := by
  induction ns generalizing start with
  | nil => simp [Int64.toInt_inj, eq_comm, fits_toInt]
  | cons n ns ih =>
    rw [List.foldlM_cons, List.map_cons, List.sum_cons, ← add_assoc]
    cases hnext : ofInt? (start.toInt + n.toInt) with
    | none =>
      refine iff_of_false (by simp) ?_
      rintro ⟨hfits, -⟩
      refine ofInt?_eq_none_iff.mp hnext ?_
      simpa using hfits [n] (by simp)
    | some next =>
      have hsum := ofInt?_eq_some_iff.mp hnext
      rw [Option.bind_eq_bind, Option.bind_some, ih, hsum]
      -- the partial sums but the first are those of the other terms
      refine and_congr_left fun _ => ?_
      rw [← hsum]
      constructor
      · intro hrest p hp
        rcases List.prefix_cons_iff.mp hp with rfl | ⟨q, rfl, hq⟩
        · simpa using fits_toInt start
        · rw [List.map_cons, List.sum_cons, ← add_assoc, ← hsum]
          exact hrest q hq
      · intro hall q hq
        have hfits := hall (n :: q) ((List.prefix_cons_inj n).mpr hq)
        rwa [List.map_cons, List.sum_cons, ← add_assoc, ← hsum] at hfits

/-- The integers of a row of integers. -/
theorem integers?_int (ns : List Int64) : integers? (ns.map Value.int) = some ns := by
  induction ns with
  | nil => rfl
  | cons n ns ih => rw [List.map_cons, integers?, ih, Option.map_some]

theorem integerSum_eq_some_iff {ns : List Int64} {total : Int64} :
    integerSum ns = some total ↔
      PartialSumsFit ns ∧ total.toInt = (ns.map Int64.toInt).sum := by
  rw [integerSum, foldlM_ofInt?, Int64.toInt_zero]
  simp only [zero_add]
  rfl

theorem sum_int (ns : List Int64) :
    (PartialSumsFit ns →
      ∃ w : Int64, w.toInt = (ns.map Int64.toInt).sum ∧ sum (ns.map Value.int) = .ok (.int w)) ∧
    (¬ PartialSumsFit ns → Refused (sum (ns.map Value.int))) := by
  simp only [sum, integers?_int]
  cases hsum : integerSum ns with
  | some total =>
    obtain ⟨hfit, htotal⟩ := integerSum_eq_some_iff.mp hsum
    exact ⟨fun _ => ⟨total, htotal, rfl⟩, fun hout => absurd hfit hout⟩
  | none =>
    refine ⟨?_, fun _ => ⟨.sumOverflow, rfl, rfl⟩⟩
    intro hfit
    have hword := ofInt?_of_fits (hfit ns (List.prefix_refl ns)).1 (hfit ns (List.prefix_refl ns)).2
    have hsome := integerSum_eq_some_iff.mpr ⟨hfit, ofInt?_eq_some_iff.mp hword⟩
    rw [hsum] at hsome
    cases hsome

/-- The order of the terms decides whether they can be added up. -/
example : sum [.int Int64.maxValue, .int (-1), .int 1] = .ok (.int Int64.maxValue) ∧
    sum [.int Int64.maxValue, .int 1, .int (-1)] = .error .sumOverflow := ⟨rfl, rfl⟩

end Sequence

-- ---------------------------------------------------------------------------
-- Main result
-- ---------------------------------------------------------------------------

/-- **Integer arithmetic is exact or refused, never wrapped.** Of all words `a`, `b` and `n`:
* `a + b`, `a - b` and `a * b` are the exact integer if that is a word, and a value error if not.
* `a / b` and `a % b` are value errors if `b` is zero, or `a` the least word and `b` minus one.
  Otherwise they are the quotient cut off toward zero and the remainder that goes with it.
* `-n` and `abs(n)` are the exact integer, and value errors exactly for the least word.
* `sum` of a sequence of integers is the exact total if every partial sum from the left is a
  word, and a value error if one is not. -/
theorem integer_arithmetic_exact (h : Heap) (self : Doer) (line : Nat) :
    (∀ a b : Int64,
      Exact (a.toInt + b.toInt) (Value.binary h .add (.int a) (.int b)) ∧
      Exact (a.toInt - b.toInt) (Value.binary h .sub (.int a) (.int b)) ∧
      Exact (a.toInt * b.toInt) (Value.binary h .mul (.int a) (.int b)) ∧
      (b = 0 ∨ a = Int64.minValue ∧ b = -1 →
        Refused (Value.binary h .div (.int a) (.int b)) ∧
        Refused (Value.binary h .mod (.int a) (.int b))) ∧
      (¬ (b = 0 ∨ a = Int64.minValue ∧ b = -1) →
        ∃ q r : Int64, Value.binary h .div (.int a) (.int b) = .ok (.int q) ∧
          Value.binary h .mod (.int a) (.int b) = .ok (.int r) ∧
          TruncatedDivision a.toInt b.toInt q.toInt r.toInt)) ∧
    (∀ n : Int64,
      Exact (-n.toInt) (Value.unary .negate (.int n)) ∧
      (Refused (Value.unary .negate (.int n)) ↔ n = Int64.minValue) ∧
      ∃ r, Builtin.abs.call self [.int n] line = Run.charge line r ∧ Exact |n.toInt| r ∧
        (Refused r ↔ n = Int64.minValue)) ∧
    ∀ (m : Machine) (kind : SeqKind) (id : SeqId) (ns : List Int64),
      (m.heap.read id).toList = ns.map Value.int →
      ∃ r, Builtin.sum.call self [.seq kind id] line m = Run.charge line r m ∧
        (Sequence.PartialSumsFit ns →
          ∃ w : Int64, w.toInt = (ns.map Int64.toInt).sum ∧ r = .ok (.int w)) ∧
        (¬ Sequence.PartialSumsFit ns → Refused r) := by
  refine ⟨?_, ?_, ?_⟩
  · intro a b
    refine ⟨exact_arithmetic (by simp) rfl, exact_arithmetic (by simp) rfl,
      exact_arithmetic (by simp) rfl, ?_, ?_⟩
    · rintro (rfl | ⟨rfl, rfl⟩)
      · exact ⟨refused_of_zero a (.inl rfl), refused_of_zero a (.inr rfl)⟩
      · exact not_divided
    · intro hne
      obtain ⟨hb, hmin⟩ := not_or.mp hne
      exact divided hb hmin
  · intro n
    have hcall (v : Value) :
        Builtin.abs.call self [v] line = Run.charge line (Builtin.magnitude v) := rfl
    exact ⟨exact_negate n, (exact_negate n).refused_iff.trans not_fits_neg_iff, _, hcall _,
      exact_magnitude n, (exact_magnitude n).refused_iff.trans not_fits_abs_iff⟩
  · intro m kind id ns hread
    obtain ⟨hexact, hrefused⟩ := Sequence.sum_int ns
    refine ⟨Sequence.sum (ns.map Value.int), ?_, hexact, hrefused⟩
    rw [← hread]
    rfl

end SeqScript
