import Mathlib
import SeqScript.Binary64.Parts
import SeqScript.Proofs.Rounding

/-!
# Integers in the order of the numbers they are rounded to

Finite numbers are ordered as their bit patterns are, once the sign is put in front
(`Bits.lt_iff`), and so is the total order but for the two zeros (`Bits.rank_eq`). The
pattern of the number nearest to an integer is its `weight`. Rounding keeps the order of
integers (`weight_mono`), and tells them apart up to `2 ^ 53` (`large_of_weight_eq`); beyond
that, different integers can be rounded to one number.
-/

namespace SeqScript

namespace Binary64

open Float.Model (Format UnpackedFloat)
open Float.Model.UnpackedFloat

-- ---------------------------------------------------------------------------
-- Order
-- ---------------------------------------------------------------------------

/-- A magnitude with its sign. -/
def signed (s : Sign) (magnitude : Nat) : Int :=
  match s with
  | .positive => magnitude
  | .negative => -magnitude

@[simp] theorem signed_positive (k : Nat) : signed .positive k = k := rfl

@[simp] theorem signed_negative (k : Nat) : signed .negative k = -k := rfl

@[simp] theorem signed_zero (s : Sign) : signed s 0 = 0 := by cases s <;> rfl

/-- A finite number taken apart, with its pattern less the sign: a significand is of full width
unless the exponent is the least there is. -/
inductive Weighs : UnpackedFloat → Sign → Nat → Prop
  | zero (s : Sign) : Weighs (.zero s) s 0
  | finite (s : Sign) {m k : Nat} {x : Int} (hm : 0 < m) (above : Nat) (hx : x + 1074 = above)
      (hlow : 0 < above → 2 ^ 52 ≤ m) (hhigh : m < 2 ^ 53) (hk : k = above * 2 ^ 52 + m) :
      Weighs (.finite s m x hm) s k

theorem weighs_unpack {s : Sign} {e : BitVec Format.binary64.exponentBits}
    {f : BitVec Format.binary64.mantissaBitsWithoutImplicit} (hfinite : e ≠ -1#_) :
    Weighs (unpack Format.binary64 (packComponents Format.binary64 s e f)) s
      (e.toNat * 2 ^ 52 + f.toNat) := by
  have hf : f.toNat < 2 ^ 52 := f.isLt
  unfold unpack
  simp only [unpackMantissa_packComponents, unpackExponent_packComponents,
    unpackSign_packComponents]
  rw [if_neg hfinite]
  split
  · next hzero =>
    subst hzero
    split
    · next hnone =>
      rw [hnone]
      exact .zero s
    · exact .finite s _ 0 rfl (by omega) (by omega) rfl
  · next hzero =>
    have hpos : e.toNat ≠ 0 := fun heq => hzero (BitVec.eq_of_toNat_eq heq)
    have hone : (1#1 ++ f).toNat = 2 ^ 52 + f.toNat :=
      (BitVec.toNat_append 1#1 f).trans (Nat.two_pow_add_eq_or_of_lt hf 1).symm
    refine .finite s _ (e.toNat - 1) ?_ (by omega) (by omega) (by omega)
    show (e.toNat : Int) - (1023 + 52) + 1074 = _
    omega

/-- Of two finite magnitudes the one with the higher exponent is greater. -/
theorem compare_finite {m m' above above' k k' : Nat} {x x' : Int} (hx : x + 1074 = above)
    (hx' : x' + 1074 = above') (hlow : 0 < above → 2 ^ 52 ≤ m) (hlow' : 0 < above' → 2 ^ 52 ≤ m')
    (hhigh : m < 2 ^ 53) (hhigh' : m' < 2 ^ 53) (hk : k = above * 2 ^ 52 + m)
    (hk' : k' = above' * 2 ^ 52 + m') :
    (compare x x').then (compare m m') = compare k k' := by
  rcases lt_trichotomy x x' with hlt | rfl | hgt
  · have hmore : k < k' := by omega
    rw [Int.compare_eq_lt.mpr hlt, Nat.compare_eq_lt.mpr hmore]
    rfl
  · obtain rfl : above = above' := by omega
    rw [compare_eq_iff_eq.mpr rfl, hk, hk']
    simp only [Ordering.eq_then, compare, compareOfLessAndEq, Nat.add_lt_add_iff_left,
      Nat.add_left_cancel_iff]
  · have hless : k' < k := by omega
    rw [Int.compare_eq_gt.mpr hgt, Nat.compare_eq_gt.mpr hless]
    rfl

/-- **Finite numbers compare as their patterns do**, with the sign put in front. -/
theorem Weighs.lt_iff {s s' : Sign} {a b : UnpackedFloat} {k k' : Nat} (ha : Weighs a s k)
    (hb : Weighs b s' k') : UnpackedFloat.lt a b = true ↔ signed s k < signed s' k' := by
  cases ha with
  | zero =>
    cases hb with
    | zero => simp [UnpackedFloat.lt, UnpackedFloat.compare]
    | finite _ hm' above' _ _ _ hk' =>
      have hpos : 0 < k' := by omega
      cases s' <;> simp [UnpackedFloat.lt, UnpackedFloat.compare, hpos]
  | finite _ hm above hx hlow hhigh hk =>
    have hpos : 0 < k := by omega
    cases hb with
    | zero => cases s <;> simp [UnpackedFloat.lt, UnpackedFloat.compare, hpos]
    | finite _ hm' above' hx' hlow' hhigh' hk' =>
      have hpos' : 0 < k' := by omega
      have hcompare := compare_finite hx hx' hlow hlow' hhigh hhigh' hk hk'
      cases s with
      | negative =>
        cases s' with
        | negative =>
          simpa [UnpackedFloat.lt, UnpackedFloat.compare, hcompare] using Nat.compare_eq_gt
        | positive =>
          simp [UnpackedFloat.lt, UnpackedFloat.compare]
          omega
      | positive =>
        cases s' with
        | negative => simp [UnpackedFloat.lt, UnpackedFloat.compare]
        | positive =>
          simpa [UnpackedFloat.lt, UnpackedFloat.compare, hcompare] using Nat.compare_eq_lt

-- ---------------------------------------------------------------------------
-- Signs and patterns
-- ---------------------------------------------------------------------------

/-- A number that is one is written with a sign and a magnitude: at most that of infinity. -/
structure Bits (x : Float) (s : Sign) (k : Nat) : Prop where
  toNat_eq : x.toBits.toNat = signBits s + k
  le : k ≤ infinityBits

namespace Bits

variable {x y : Float} {s s' : Sign} {k k' : Nat}

theorem fields (h : Bits x s k) : ∃ e f, Fields x s e f ∧ k = e.toNat * 2 ^ 52 + f.toNat ∧
    (e ≠ -1#_ ∨ f = 0#_) ∧ (k < infinityBits → e ≠ -1#_) := by
  obtain ⟨s₀, e, f, hfields⟩ := exists_fields x
  have he : e.toNat < 2048 := e.isLt
  have hf : f.toNat < 2 ^ 52 := f.isLt
  have hbits := hfields.toNat_toBits
  have hk := h.le
  rw [h.toNat_eq] at hbits
  unfold infinityBits at hk ⊢
  obtain rfl : s = s₀ := by
    cases s <;> cases s₀ <;> simp [signBits, Sign.toBitVec] at hbits ⊢ <;> omega
  have hsum : k = e.toNat * 2 ^ 52 + f.toNat := by omega
  have hall : e = -1#_ → e.toNat = 2047 := fun heq => heq ▸ rfl
  refine ⟨e, f, hfields, hsum, ?_, ?_⟩
  · by_cases heq : e = -1#_
    · have htop := hall heq
      exact Or.inr (BitVec.eq_of_toNat_eq (show f.toNat = 0 by omega))
    · exact Or.inl heq
  · intro hlt heq
    have htop := hall heq
    omega

theorem of_fields {e : BitVec Format.binary64.exponentBits}
    {f : BitVec Format.binary64.mantissaBitsWithoutImplicit} (h : Fields x s e f)
    (hk : k = e.toNat * 2 ^ 52 + f.toNat) (hle : k ≤ infinityBits) : Bits x s k := by
  refine ⟨?_, hle⟩
  rw [hk, ← Nat.add_assoc, h.toNat_toBits]

theorem isNaN (h : Bits x s k) : x.isNaN = false := by
  obtain ⟨e, f, hfields, -, hnumber, -⟩ := h.fields
  rw [hfields.isNaN, decide_eq_false_iff_not]
  rintro ⟨hall, hsome⟩
  exact hnumber.elim (absurd hall) hsome

/-- Negation changes the sign. -/
theorem neg (h : Bits x s k) : Bits (-x) (-s) k := by
  obtain ⟨e, f, hfields, hk, -⟩ := h.fields
  exact of_fields (hfields.neg h.isNaN) hk h.le

/-- Finite numbers are in the order of their magnitudes with the sign put in front. -/
theorem lt_iff (hx : Bits x s k) (hy : Bits y s' k') (hk : k < infinityBits)
    (hk' : k' < infinityBits) : x < y ↔ signed s k < signed s' k' := by
  obtain ⟨e, f, hfields, rfl, -, hfinite⟩ := hx.fields
  obtain ⟨e', f', hfields', rfl, -, hfinite'⟩ := hy.fields
  have hweighs := weighs_unpack (s := s) (f := f) (hfinite hk)
  have hweighs' := weighs_unpack (s := s') (f := f') (hfinite' hk')
  rw [← hfields] at hweighs
  rw [← hfields'] at hweighs'
  rw [← hweighs.lt_iff hweighs']
  show decide (x.toModel < y.toModel) = true ↔ _
  rw [decide_eq_true_iff]
  rfl

/-- The place of a number in the total order. -/
theorem rank_eq (h : Bits x s k) :
    rank (number x) = signed s k - s.toBitVec.toNat := by
  have hk := h.le
  unfold infinityBits at hk
  simp only [rank, bits, h.toNat_eq, signBit]
  cases s <;> simp [signBits, Sign.toBitVec] <;> omega

/-- The parts of a number, read off its pattern. -/
theorem parts_eq (h : Bits x s k) : parts (number x) =
    if k = infinityBits then .infinite (s == .negative)
    else if k / 2 ^ 52 = 0 then .finite (s == .negative) (k % 2 ^ 52) leastExponent
    else .finite (s == .negative) (hiddenBit + k % 2 ^ 52) ((k / 2 ^ 52 : Nat) - 1075) := by
  have hle := h.le
  unfold infinityBits at hle ⊢
  have hsign : signBits s = 0 ∧ (s == .negative) = false ∨
      signBits s = 2 ^ 63 ∧ (s == .negative) = true := by
    cases s with
    | positive => exact Or.inl ⟨rfl, rfl⟩
    | negative => exact Or.inr ⟨rfl, rfl⟩
  have hnegative : ((signBits s + k) / signBit % 2 == 1) = (s == .negative) := by
    rw [Bool.eq_iff_iff, beq_iff_eq, signBit]
    rcases hsign with ⟨hbits, hs⟩ | ⟨hbits, hs⟩ <;> rw [hbits, hs] <;> simp <;> omega
  have hexponent : (signBits s + k) / hiddenBit % 2048 = k / 2 ^ 52 := by
    unfold hiddenBit
    omega
  have hfraction : (signBits s + k) % hiddenBit = k % 2 ^ 52 := by
    unfold hiddenBit
    omega
  simp only [parts, Parts.ofBits, bits, h.toNat_eq, hnegative, hexponent, hfraction]
  by_cases hinfinite : k = 2047 * 2 ^ 52
  · rw [if_pos hinfinite, if_pos (by omega), if_pos (by omega)]
  · rw [if_neg hinfinite, if_neg (by omega)]

end Bits

theorem exists_bits {x : Float} (hx : x.isNaN = false) : ∃ s k, Bits x s k := by
  obtain ⟨s, e, f, hfields⟩ := exists_fields x
  have he : e.toNat < 2048 := e.isLt
  have hf : f.toNat < 2 ^ 52 := f.isLt
  have hall : e.toNat = 2047 → f.toNat = 0 := by
    intro htop
    rw [hfields.isNaN, decide_eq_false_iff_not, not_and, ne_eq, not_not] at hx
    rw [hx (BitVec.eq_of_toNat_eq htop)]
    rfl
  refine ⟨s, _, .of_fields hfields rfl ?_⟩
  unfold infinityBits
  omega

-- ---------------------------------------------------------------------------
-- Integers of the machine
-- ---------------------------------------------------------------------------

/-- The sign of an integer; zero is positive. -/
def signOf (n : Int) : Sign := if n < 0 then .negative else .positive

/-- The pattern of the number nearest to an integer, with its sign put in front. Numbers that
integers are rounded to are in the order of these. -/
def weight (n : Int) : Int := signed (signOf n) (roundedBits n.natAbs)

theorem weight_of_nonneg {n : Int} (h : 0 ≤ n) : weight n = roundedBits n.natAbs := by
  rw [weight, signOf, if_neg (by omega), signed_positive]

theorem weight_of_neg {n : Int} (h : n < 0) : weight n = -roundedBits n.natAbs := by
  rw [weight, signOf, if_pos h, signed_negative]

/-- **Rounding keeps the order of integers.** -/
theorem weight_mono {a b : Int} (h : a ≤ b) : weight a ≤ weight b := by
  rcases lt_or_ge a 0 with ha | ha
  · rw [weight_of_neg ha]
    rcases lt_or_ge b 0 with hb | hb
    · have hle : roundedBits b.natAbs ≤ roundedBits a.natAbs := roundedBits_mono (by omega)
      rw [weight_of_neg hb]
      omega
    · rw [weight_of_nonneg hb]
      omega
  · have hle : roundedBits a.natAbs ≤ roundedBits b.natAbs := roundedBits_mono (by omega)
    rw [weight_of_nonneg ha, weight_of_nonneg (by omega)]
    omega

theorem roundedBits_pos {n : Nat} (hn : n ≠ 0) : 0 < roundedBits n := by
  have hbound := (significand_bounds hn).1
  rw [roundedBits, if_neg hn]
  omega

/-- Two integers that are rounded to one number are not both at most `2 ^ 53` in magnitude. -/
theorem large_of_weight_eq {a b : Int} (h : a < b) (heq : weight a = weight b) :
    2 ^ 53 < b ∨ a < -2 ^ 53 := by
  rcases lt_or_ge a 0 with ha | ha
  · rw [weight_of_neg ha] at heq
    rcases lt_or_ge b 0 with hb | hb
    · rw [weight_of_neg hb] at heq
      have hlarge : 2 ^ 53 < a.natAbs :=
        lt_of_roundedBits_eq (m := b.natAbs) (by omega) (by omega)
      omega
    · have hpos : 0 < roundedBits a.natAbs := roundedBits_pos (by omega)
      rw [weight_of_nonneg hb] at heq
      omega
  · rw [weight_of_nonneg ha, weight_of_nonneg (by omega)] at heq
    have hlarge : 2 ^ 53 < b.natAbs := lt_of_roundedBits_eq (m := a.natAbs) (by omega) (by omega)
    omega

section

variable (a b : Int64)

theorem natAbs_lt : a.toInt.natAbs < 2 ^ 64 := by
  have hlow := a.le_toInt
  have hhigh := a.toInt_lt
  omega

theorem bits_ofWord :
    Bits (ofWord a).toFloat (signOf a.toInt) (roundedBits a.toInt.natAbs) := by
  have hfits := roundedBits_lt (natAbs_lt a)
  have hmagnitude : Bits (UInt64.ofNat a.toInt.natAbs).toFloat .positive _ :=
    ⟨(toBits_ofNat (natAbs_lt a)).trans (Nat.zero_add _).symm, hfits.le⟩
  unfold ofWord signOf
  split
  · exact hmagnitude.neg
  · exact hmagnitude

/-- Integers as numbers are below each other as their patterns are. -/
theorem below_ofWord_iff :
    (ofWord a).below (ofWord b) = true ↔ weight a.toInt < weight b.toInt := by
  rw [below, decide_eq_true_iff]
  exact (bits_ofWord a).lt_iff (bits_ofWord b) (roundedBits_lt (natAbs_lt a))
    (roundedBits_lt (natAbs_lt b))

theorem rank_ofWord :
    (ofWord a).rank = if a.toInt < 0 then weight a.toInt - 1 else weight a.toInt := by
  have hrank := (bits_ofWord a).rank_eq
  rw [show number (ofWord a).toFloat = ofWord a from rfl] at hrank
  rw [hrank, weight, signOf]
  split <;> rfl

theorem weight_neg_iff {n : Int} : weight n < 0 ↔ n < 0 := by
  rcases lt_or_ge n 0 with hn | hn
  · have hpos : 0 < roundedBits n.natAbs := roundedBits_pos (by omega)
    rw [weight_of_neg hn]
    omega
  · rw [weight_of_nonneg hn]
    omega

theorem rank_ofWord_lt_iff :
    (ofWord a).rank < (ofWord b).rank ↔ weight a.toInt < weight b.toInt := by
  have ha : weight a.toInt < 0 ↔ a.toInt < 0 := weight_neg_iff
  have hb : weight b.toInt < 0 ↔ b.toInt < 0 := weight_neg_iff
  rw [rank_ofWord, rank_ofWord]
  split <;> split <;> omega

end

theorem toBits_injective {x y : Float} (h : x.toBits = y.toBits) : x = y := by
  obtain ⟨⟨b, _⟩⟩ := x
  obtain ⟨⟨b', _⟩⟩ := y
  obtain rfl : b = b' := h
  rfl

theorem toBits_ne_negativeNaN (x : Float) : x.toBits.toNat ≠ 0xFFF8000000000000 := by
  intro hbits
  obtain ⟨s, e, f, hfields⟩ := exists_fields x
  have hbits' := hfields.toNat_toBits
  have hsign : signBits s ≤ 2 ^ 63 := by cases s <;> decide
  have he : e.toNat < 2048 := e.isLt
  have hf : f.toNat < 2 ^ 52 := f.isLt
  have hnan : x.isNaN = true := by
    rw [hfields.isNaN, decide_eq_true_iff]
    refine ⟨BitVec.eq_of_toNat_eq (show e.toNat = 2047 by omega), ?_⟩
    intro hzero
    have hnone : f.toNat = 0 := by rw [hzero]; rfl
    omega
  rw [eq_nan_of_isNaN hnan] at hbits
  exact absurd hbits (by decide)

theorem bits_lt (x : Binary64) : x.bits < 2 ^ 64 := by
  cases x with
  | number x => exact x.toBits.toNat_lt
  | negativeNaN => decide

/-- Numbers at one place of the total order are the same. -/
theorem rank_injective {x y : Binary64} (h : x.rank = y.rank) : x = y := by
  have hbits : x.bits = y.bits := by
    have hx := bits_lt x
    have hy := bits_lt y
    unfold rank signBit at h
    split at h <;> split at h <;> omega
  cases x with
  | number x =>
    cases y with
    | number y => rw [toBits_injective (UInt64.toNat_inj.mp hbits)]
    | negativeNaN => exact absurd hbits (toBits_ne_negativeNaN x)
  | negativeNaN =>
    cases y with
    | number y => exact absurd hbits.symm (toBits_ne_negativeNaN y)
    | negativeNaN => rfl

/-- Integers are rounded to one number exactly if its pattern is the same. -/
theorem ofWord_eq_iff (a b : Int64) : ofWord a = ofWord b ↔ weight a.toInt = weight b.toInt := by
  have hlt := rank_ofWord_lt_iff a b
  have hgt := rank_ofWord_lt_iff b a
  constructor
  · intro heq
    rw [heq] at hlt hgt
    omega
  · intro heq
    exact rank_injective (by omega)

end Binary64

end SeqScript
