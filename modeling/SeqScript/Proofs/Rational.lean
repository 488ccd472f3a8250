import Mathlib
import SeqScript.Value.Basic
import SeqScript.Proofs.Matching
import SeqScript.Proofs.Rounding.Order

/-!
# Numbers as rationals

A finite number is a rational, exactly: a whole count of the least positive number, `2 ^ -1074`
(`Bits.rational?_eq`). The count grows with the pattern of the magnitude (`ticks_strictMono`),
so what elimination asks of its cells is answered by the rationals they stand for: which of two
magnitudes is greater, whether one is negligible, and whether a cell is zero (`exceeds_iff`,
`negligible_iff`, `isZero_iff`).
-/

namespace SeqScript

namespace Binary64

open Float.Model (UnpackedFloat)

-- ---------------------------------------------------------------------------
-- What a number stands for
-- ---------------------------------------------------------------------------

/-- The rational that a finite number is. -/
def rational? (x : Binary64) : Option ℚ :=
  match x.parts with
  | .finite negative m q => some ((if negative then -(m : ℚ) else m) * 2 ^ q)
  | _ => none

/-- How many times the least positive number goes into the magnitude with a given pattern. -/
def ticks (k : Nat) : Nat :=
  if k / 2 ^ 52 = 0 then k else (2 ^ 52 + k % 2 ^ 52) * 2 ^ (k / 2 ^ 52 - 1)

/-- From one pattern to the next the magnitude grows, also where the exponent does. -/
theorem ticks_strictMono : StrictMono ticks := by
  apply strictMono_nat_of_lt_succ
  intro k
  have hpow : 0 < 2 ^ (k / 2 ^ 52 - 1) := by positivity
  by_cases hcarry : k % 2 ^ 52 + 1 = 2 ^ 52
  · have hnext : (k + 1) / 2 ^ 52 = k / 2 ^ 52 + 1 := by omega
    have hnone : (k + 1) % 2 ^ 52 = 0 := by omega
    rw [ticks, ticks, hnext, hnone, if_neg (Nat.succ_ne_zero _), Nat.add_sub_cancel]
    split
    · next hzero =>
      rw [hzero]
      omega
    · next hsome =>
      have hdouble : 2 ^ (k / 2 ^ 52) = 2 * 2 ^ (k / 2 ^ 52 - 1) := by
        rw [← pow_succ']
        congr 1
        omega
      have hless : 2 ^ 52 + k % 2 ^ 52 < 2 ^ 52 * 2 := by omega
      rw [hdouble, Nat.add_zero, ← Nat.mul_assoc]
      exact Nat.mul_lt_mul_of_pos_right hless hpow
  · have hsame : (k + 1) / 2 ^ 52 = k / 2 ^ 52 := by omega
    have hmore : (k + 1) % 2 ^ 52 = k % 2 ^ 52 + 1 := by omega
    rw [ticks, ticks, hsame, hmore]
    split
    · exact Nat.lt_succ_self k
    · exact Nat.mul_lt_mul_of_pos_right (by omega) hpow

theorem ticks_zero : ticks 0 = 0 := rfl

/-- The rational with a given sign and magnitude. -/
def ofTicks (s : UnpackedFloat.Sign) (k : Nat) : ℚ := signed s (ticks k) * 2 ^ (-1074 : ℤ)

theorem abs_ofTicks (s : UnpackedFloat.Sign) (k : Nat) :
    |ofTicks s k| = ticks k * 2 ^ (-1074 : ℤ) := by
  have hpow : (0 : ℚ) ≤ 2 ^ (-1074 : ℤ) := by positivity
  rw [ofTicks, abs_mul, abs_of_nonneg hpow]
  cases s <;> simp

/-- Magnitudes are compared by their patterns. -/
theorem abs_ofTicks_lt_iff {s s' : UnpackedFloat.Sign} {k k' : Nat} :
    |ofTicks s k| < |ofTicks s' k'| ↔ k < k' := by
  have hpow : (0 : ℚ) < 2 ^ (-1074 : ℤ) := by positivity
  rw [abs_ofTicks, abs_ofTicks, mul_lt_mul_iff_left₀ hpow, Nat.cast_lt, ticks_strictMono.lt_iff_lt]

theorem ofTicks_eq_zero_iff {s : UnpackedFloat.Sign} {k : Nat} : ofTicks s k = 0 ↔ k = 0 := by
  have hzero : |ofTicks s k| = |ofTicks s 0| ↔ k = 0 := by
    rw [abs_ofTicks, abs_ofTicks, mul_left_inj' (by positivity), Nat.cast_inj,
      ticks_strictMono.injective.eq_iff]
  rw [← hzero, abs_ofTicks s 0, ticks_zero, Nat.cast_zero, zero_mul, abs_eq_zero]

section

variable {x y : Binary64} {f : Float} {s : UnpackedFloat.Sign} {k : Nat} {r q : ℚ}

/-- The pattern of a finite number counts its ticks. -/
theorem Bits.rational?_eq (h : Bits f s k) (hk : k < infinityBits) :
    rational? (number f) = some (ofTicks s k) := by
  have hsign : ∀ m : Nat, (if (s == .negative) = true then -(m : ℚ) else m) = signed s m := by
    intro m
    cases s <;> simp
  rw [rational?, h.parts_eq, if_neg hk.ne, ofTicks, ticks]
  by_cases hlow : k / 2 ^ 52 = 0
  · have hall : k % 2 ^ 52 = k := by omega
    rw [if_pos hlow, if_pos hlow, hall]
    exact congrArg (fun z => some (z * _)) (hsign k)
  · have hexponent : ((k / 2 ^ 52 : Nat) : ℤ) - 1075 = (k / 2 ^ 52 - 1 : Nat) + (-1074) := by omega
    have hscale : ∀ a b : Nat, ((signed s (a * b) : ℤ) : ℚ) = signed s a * b := by
      intro a b
      cases s <;> simp
    rw [if_neg hlow, if_neg hlow, hscale]
    show some ((if (s == .negative) = true then -((hiddenBit + k % 2 ^ 52 : Nat) : ℚ) else _) * _) =
      _
    rw [hsign, hexponent, zpow_add₀ two_ne_zero, zpow_natCast, ← mul_assoc]
    norm_num [hiddenBit]

/-- Clearing the sign of a number leaves its magnitude. -/
theorem Bits.abs (h : Bits f s k) :
    ∃ g, Binary64.abs (number f) = number g ∧ Bits g .positive k := by
  have hmask : ∀ b : UInt64, b.toNat = signBits s + k →
      (b &&& 0x7FFFFFFFFFFFFFFF).toNat = k := by
    intro b hb
    have hle := h.le
    have hsign : signBits s = 0 ∨ signBits s = 2 ^ 63 := by cases s <;> decide
    unfold infinityBits at hle
    rw [UInt64.toNat_and, hb]
    show (signBits s + k) &&& (2 ^ 63 - 1) = k
    rw [Nat.and_two_pow_sub_one_eq_mod]
    omega
  cases s with
  | positive =>
    have hsame : f.toBits &&& 0x7FFFFFFFFFFFFFFF = f.toBits := by
      apply UInt64.toNat_inj.mp
      rw [hmask _ h.toNat_eq, h.toNat_eq]
      exact (Nat.zero_add k).symm
    refine ⟨f, ?_, h⟩
    rw [Binary64.abs, hsame, Float.ofBits_toBits]
  | negative =>
    have hsame : f.toBits &&& 0x7FFFFFFFFFFFFFFF = (-f).toBits := by
      apply UInt64.toNat_inj.mp
      rw [hmask _ h.toNat_eq, h.neg.toNat_eq]
      exact (Nat.zero_add k).symm
    refine ⟨-f, ?_, h.neg⟩
    rw [Binary64.abs, hsame, Float.ofBits_toBits]

/-- A number that is a rational has a sign and a finite magnitude. -/
theorem bits_of_rational? (h : x.rational? = some r) :
    ∃ f s k, x = number f ∧ Bits f s k ∧ k < infinityBits ∧ r = ofTicks s k := by
  cases x with
  | negativeNaN => cases h
  | number f =>
    have hnan : f.isNaN = false := by
      rw [Bool.eq_false_iff]
      intro hnan
      rw [eq_nan_of_isNaN hnan] at h
      cases h
    obtain ⟨s, k, hbits⟩ := exists_bits hnan
    have hfinite : k < infinityBits := by
      apply lt_of_le_of_ne hbits.le
      intro hinfinite
      rw [rational?, hbits.parts_eq, if_pos hinfinite] at h
      cases h
    refine ⟨f, s, k, rfl, hbits, hfinite, ?_⟩
    rw [hbits.rational?_eq hfinite] at h
    exact (Option.some.inj h).symm

-- ---------------------------------------------------------------------------
-- What elimination asks
-- ---------------------------------------------------------------------------

/-- The search for a pivot compares magnitudes exactly. -/
theorem exceeds_iff (hx : x.rational? = some r) (hy : y.rational? = some q) :
    Pivoting.exceeds x y = true ↔ |q| < |r| := by
  obtain ⟨f, s, k, rfl, hf, -, rfl⟩ := bits_of_rational? hx
  obtain ⟨g, s', k', rfl, hg, -, rfl⟩ := bits_of_rational? hy
  obtain ⟨f', hf', hf⟩ := hf.abs
  obtain ⟨g', hg', hg⟩ := hg.abs
  have hrank : ∀ {z : Float} {j : Nat}, Bits z .positive j → rank (number z) = j := by
    intro z j hz
    rw [hz.rank_eq]
    exact Int.sub_zero _
  show (compareTotal (Binary64.abs _) (Binary64.abs _) == .gt) = true ↔ _
  rw [hf', hg', beq_iff_eq, compareTotal, Int.compare_eq_gt, hrank hf, hrank hg, Int.ofNat_lt,
    abs_ofTicks_lt_iff]

/-- The threshold as it is stored. -/
theorem parts_threshold : singularityThreshold.parts = .finite false 4951760157141521 (-92) := by
  decide +kernel

theorem exists_threshold : ∃ t, singularityThreshold.rational? = some t ∧ 0 < t := by
  rw [rational?, parts_threshold]
  exact ⟨_, rfl, by norm_num⟩

/-- So does the check for a pivot that is too small. -/
theorem negligible_iff {t : ℚ} (ht : singularityThreshold.rational? = some t) (hpos : 0 < t)
    (hx : x.rational? = some r) : Pivoting.negligible x = true ↔ |r| < t := by
  obtain ⟨f, s, k, rfl, hf, hk, rfl⟩ := bits_of_rational? hx
  obtain ⟨g, s', k', hg', hg, hk', rfl⟩ := bits_of_rational? ht
  obtain ⟨f', hf', hf⟩ := hf.abs
  cases s' with
  | negative =>
    have hneg : ofTicks .negative k' ≤ 0 := by
      rw [ofTicks, signed_negative]
      simp
    exact absurd hpos hneg.not_gt
  | positive =>
    have hticks : k < k' ↔ |ofTicks s k| < |ofTicks .positive k'| := abs_ofTicks_lt_iff.symm
    show below (Binary64.abs _) singularityThreshold = true ↔ _
    rw [hf', hg', below, decide_eq_true_iff]
    show f' < g ↔ _
    rw [hf.lt_iff hg hk hk', signed_positive, signed_positive, Int.ofNat_lt, hticks,
      abs_of_pos hpos]

theorem isZero_iff (hx : x.rational? = some r) : Pivoting.isZero x = true ↔ r = 0 := by
  obtain ⟨f, s, k, rfl, hf, -, rfl⟩ := bits_of_rational? hx
  have hbits := hf.toNat_eq
  have hle := hf.le
  have hsigns : signBits s = 0 ∨ signBits s = 2 ^ 63 := by cases s <;> decide
  have hplus : (0.0 : Float).toBits.toNat = 0 := by decide +kernel
  have hminus : (-0.0 : Float).toBits.toNat = 2 ^ 63 := by decide +kernel
  unfold infinityBits at hle
  show equals (number f) 0.0 = true ↔ _
  rw [equals_iff, ofTicks_eq_zero_iff]
  constructor
  · intro hsame
    have hzero : number f = number 0.0 ∨ number f = number (-0.0) := by
      cases hsame with
      | refl => exact .inl rfl
      | zeros hf _ => exact hf
    rcases hzero with hzero | hzero
    · rw [number.inj hzero] at hbits
      omega
    · rw [number.inj hzero] at hbits
      omega
  · rintro rfl
    have hzero : f = 0.0 ∨ f = -0.0 := by
      rcases hsigns with hsign | hsign
      · exact .inl (toBits_injective (UInt64.toNat_inj.mp (by omega)))
      · exact .inr (toBits_injective (UInt64.toNat_inj.mp (by omega)))
    exact .zeros (hzero.imp (congrArg number) (congrArg number)) (.inl rfl)

end

end Binary64

end SeqScript
