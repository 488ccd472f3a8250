import Mathlib
import SeqScript.Proofs.Signs

/-!
# Naturals rounded to numbers

A natural that is turned into a floating-point number is cut to fifty-three bits and rounded,
from half-way to the even neighbour. This module follows it through the stages of the
encoding and gives the bit pattern that comes out, as a function on naturals:

* `nearestEven` — the division by a power of two that a shift with rounding comes to
  (`roundedMantissa_shiftRight`);
* `roundedBits` — the pattern of the nearest number. Exponent and significand are added up
  in it, so that a carry out of the one goes into the other by itself. It is monotone
  (`roundedBits_mono`), and one to one up to `2 ^ 53` (`lt_of_roundedBits_eq`);
* `toBits_ofNat`, `toBits_ofScientific` — integers of the machine and decimals of any length
  are given this pattern.
-/

namespace SeqScript

namespace Binary64

open Float.Model (Format UnpackedFloat totalExponent)
open Float.Model.UnpackedFloat

-- ---------------------------------------------------------------------------
-- Division with rounding
-- ---------------------------------------------------------------------------

/-- `m / 2 ^ k` rounded to the nearest natural, from half-way to the even one. -/
def nearestEven (m k : Nat) : Nat :=
  if 2 * (m % 2 ^ k) < 2 ^ k then m / 2 ^ k
  else if 2 * (m % 2 ^ k) = 2 ^ k then m / 2 ^ k + m / 2 ^ k % 2
  else m / 2 ^ k + 1

theorem nearestEven_bounds (m k : Nat) :
    m / 2 ^ k ≤ nearestEven m k ∧ nearestEven m k ≤ m / 2 ^ k + 1 := by
  unfold nearestEven
  split
  · omega
  split <;> omega

theorem nearestEven_mono {m n : Nat} (h : m ≤ n) (k : Nat) :
    nearestEven m k ≤ nearestEven n k := by
  have hdiv : m / 2 ^ k ≤ n / 2 ^ k := Nat.div_le_div_right h
  rcases Nat.lt_or_eq_of_le hdiv with hlt | heq
  · have hm := (nearestEven_bounds m k).2
    have hn := (nearestEven_bounds n k).1
    omega
  · have hmod : m % 2 ^ k ≤ n % 2 ^ k := by
      have hm := Nat.div_add_mod m (2 ^ k)
      have hn := Nat.div_add_mod n (2 ^ k)
      rw [heq] at hm
      omega
    unfold nearestEven
    rw [heq]
    split_ifs <;> omega

theorem nearestEven_mul_pow (m k j : Nat) : nearestEven (m * 2 ^ j) (k + j) = nearestEven m k := by
  have hpos : 0 < 2 ^ j := Nat.two_pow_pos j
  have hmod : m * 2 ^ j % 2 ^ (k + j) = m % 2 ^ k * 2 ^ j := by
    rw [Nat.pow_add, Nat.mul_mod_mul_right]
  have hdiv : m * 2 ^ j / 2 ^ (k + j) = m / 2 ^ k := by
    rw [Nat.pow_add, Nat.mul_div_mul_right _ _ hpos]
  have hlt : 2 * (m % 2 ^ k * 2 ^ j) < 2 ^ (k + j) ↔ 2 * (m % 2 ^ k) < 2 ^ k := by
    rw [Nat.pow_add, ← Nat.mul_assoc, Nat.mul_lt_mul_right hpos]
  have heq : 2 * (m % 2 ^ k * 2 ^ j) = 2 ^ (k + j) ↔ 2 * (m % 2 ^ k) = 2 ^ k := by
    rw [Nat.pow_add, ← Nat.mul_assoc, Nat.mul_left_inj hpos.ne']
  simp only [nearestEven, hmod, hdiv, hlt, heq]

theorem nearestEven_zero (m : Nat) : nearestEven m 0 = m := by
  simp [nearestEven, Nat.mod_one]

/-- What is left of a significand after a shift: the bits above the cut, the first bit below
it, and whether any bit further down is set. -/
theorem shiftRight_exact (m k : Nat) :
    (ExtendedMantissa.mk m false false >>> k).mantissa = m / 2 ^ k ∧
    ((ExtendedMantissa.mk m false false >>> k).roundBit = true ↔ 2 ^ k ≤ 2 * (m % 2 ^ k)) ∧
    ((ExtendedMantissa.mk m false false >>> k).stickyBit = true ↔
      2 * (m % 2 ^ k) % 2 ^ k ≠ 0) := by
  induction k with
  | zero => simp [HShiftRight.hShiftRight, Nat.repeat, Nat.mod_one]
  | succ k ih =>
    obtain ⟨hmantissa, hround, hsticky⟩ := ih
    have hstep : ExtendedMantissa.mk m false false >>> (k + 1) =
      (ExtendedMantissa.mk m false false >>> k).shiftRightOne := rfl
    have hpos : 0 < 2 ^ k := Nat.two_pow_pos k
    have hrest : m % 2 ^ k < 2 ^ k := Nat.mod_lt _ hpos
    have hsplit : m % 2 ^ (k + 1) = m % 2 ^ k + 2 ^ k * (m / 2 ^ k % 2) := by
      rw [Nat.pow_succ, Nat.mod_mul]
    have hbit : m / 2 ^ k % 2 = 0 ∨ m / 2 ^ k % 2 = 1 := by omega
    rw [hstep]
    simp only [ExtendedMantissa.shiftRightOne, hmantissa]
    refine ⟨?_, ?_, ?_⟩
    · rw [Nat.pow_succ, Nat.div_div_eq_div_mul]
    · rw [hsplit, Nat.pow_succ]
      rcases hbit with hb | hb <;> simp [hb] <;> omega
    · rw [Bool.or_eq_true, hround, hsticky, hsplit, Nat.pow_succ]
      -- the bit just above drops out of the remainder
      have hdrop : 2 * (m % 2 ^ k + 2 ^ k * (m / 2 ^ k % 2)) % (2 ^ k * 2) = 2 * (m % 2 ^ k) := by
        rcases hbit with hb | hb <;> rw [hb]
        · rw [Nat.mod_eq_of_lt] <;> omega
        · rw [show 2 * (m % 2 ^ k + 2 ^ k * 1) = 2 * (m % 2 ^ k) + 2 ^ k * 2 by ring,
            Nat.add_mod_right, Nat.mod_eq_of_lt (by omega)]
      rw [hdrop]
      constructor
      · rintro (h | h) hzero
        · omega
        · exact h (by rw [hzero, Nat.zero_mod])
      · intro h
        rcases Nat.lt_or_ge (2 * (m % 2 ^ k)) (2 ^ k) with hlt | hge
        · exact Or.inr (by rwa [Nat.mod_eq_of_lt hlt])
        · exact Or.inl hge

/-- A shift followed by rounding is a division rounded to the nearest natural. -/
theorem roundedMantissa_shiftRight (m k : Nat) :
    (ExtendedMantissa.mk m false false >>> k).roundedMantissa = nearestEven m k := by
  obtain ⟨hmantissa, hround, hsticky⟩ := shiftRight_exact m k
  have hpos : 0 < 2 ^ k := Nat.two_pow_pos k
  have hrest : m % 2 ^ k < 2 ^ k := Nat.mod_lt _ hpos
  generalize ExtendedMantissa.mk m false false >>> k = em at *
  obtain ⟨mantissa, round, sticky⟩ := em
  simp only at hmantissa hround hsticky
  subst hmantissa
  unfold nearestEven
  cases round <;> cases sticky <;>
    simp only [ExtendedMantissa.roundedMantissa, ExtendedMantissa.accuracy,
      Accuracy.roundToNearestEven] <;>
    simp only [Bool.false_eq_true, false_iff, true_iff, Nat.not_le, ne_eq, Decidable.not_not] at *
  · rw [if_pos hround]
  · rw [if_pos hround]
  · have htwice : 2 * (m % 2 ^ k) = 2 ^ k := by
      have := Nat.div_add_mod (2 * (m % 2 ^ k)) (2 ^ k)
      have hq : 2 * (m % 2 ^ k) / 2 ^ k = 1 := by
        rw [Nat.div_eq_iff hpos]
        omega
      rw [hq, hsticky] at this
      omega
    rw [if_neg (by omega), if_pos htwice]
  · rw [if_neg (by omega), if_neg]
    intro htwice
    exact hsticky (by rw [htwice, Nat.mod_self])


-- ---------------------------------------------------------------------------
-- The pattern of the nearest number
-- ---------------------------------------------------------------------------

/-- A natural other than zero as a significand: moved so that it has fifty-three bits, and
rounded. It may have been rounded up to `2 ^ 53`. -/
def significand (n : Nat) : Nat := nearestEven (n * 2 ^ 53) (n.log2 + 1)

/-- The bit pattern of the number nearest to a natural, if exponents had no end. The hidden bit
and a significand that was rounded up to `2 ^ 53` both carry into the exponent. -/
def roundedBits (n : Nat) : Nat := if n = 0 then 0 else (n.log2 + 1022) * 2 ^ 52 + significand n

/-- The bit pattern of infinity. -/
def infinityBits : Nat := 2047 * 2 ^ 52

theorem significand_eq {n j : Nat} (hj : j ≤ 53) (hn : 52 ≤ n.log2 + j) :
    significand n = nearestEven (n * 2 ^ j) (n.log2 + j - 52) := by
  have hshift : n.log2 + 1 = n.log2 + j - 52 + (53 - j) := by omega
  have hmoved : n * 2 ^ 53 = n * 2 ^ j * 2 ^ (53 - j) := by
    rw [Nat.mul_assoc, ← Nat.pow_add, Nat.add_sub_cancel' hj]
  rw [significand, hshift, hmoved, nearestEven_mul_pow]

/-- A natural of at most fifty-three bits is its own significand, moved up. -/
theorem significand_of_small {n : Nat} (hn : n.log2 ≤ 52) :
    significand n = n * 2 ^ (52 - n.log2) := by
  rw [significand_eq (j := 52 - n.log2) (by omega) (by omega),
    show n.log2 + (52 - n.log2) - 52 = 0 by omega, nearestEven_zero]

theorem significand_bounds {n : Nat} (hn : n ≠ 0) :
    2 ^ 52 ≤ significand n ∧ significand n ≤ 2 ^ 53 := by
  have hlow : 2 ^ n.log2 ≤ n := Nat.log2_self_le hn
  have hhigh : n < 2 ^ (n.log2 + 1) := Nat.lt_log2_self
  have hpow : 2 ^ (n.log2 + 1) = 2 ^ n.log2 * 2 := Nat.pow_succ ..
  have hbounds := nearestEven_bounds (n * 2 ^ 53) (n.log2 + 1)
  have hge : 2 ^ 52 ≤ n * 2 ^ 53 / 2 ^ (n.log2 + 1) := by
    rw [Nat.le_div_iff_mul_le (Nat.two_pow_pos _)]
    omega
  have hlt : n * 2 ^ 53 / 2 ^ (n.log2 + 1) < 2 ^ 53 := by
    rw [Nat.div_lt_iff_lt_mul (Nat.two_pow_pos _), Nat.mul_comm]
    omega
  unfold significand
  omega

theorem log2_le_log2 {m n : Nat} (h : m ≤ n) : m.log2 ≤ n.log2 := by
  rw [Nat.log2_eq_log_two, Nat.log2_eq_log_two]
  exact Nat.log_mono_right h

/-- Where the bits of a larger natural begin higher up, its pattern is no less. -/
theorem roundedBits_mono {m n : Nat} (h : m ≤ n) : roundedBits m ≤ roundedBits n := by
  unfold roundedBits
  by_cases hm : m = 0
  · simp [hm]
  have hn : n ≠ 0 := by omega
  rw [if_neg hm, if_neg hn]
  rcases Nat.lt_or_eq_of_le (log2_le_log2 h) with hlt | heq
  · have hmbound := (significand_bounds hm).2
    have hnbound := (significand_bounds hn).1
    omega
  · have hle : significand m ≤ significand n := by
      rw [significand, significand, heq]
      exact nearestEven_mono (Nat.mul_le_mul_right _ h) _
    omega

/-- **Two naturals that are rounded to one number are not both at most `2 ^ 53`.** -/
theorem lt_of_roundedBits_eq {m n : Nat} (h : m < n) (heq : roundedBits m = roundedBits n) :
    2 ^ 53 < n := by
  by_contra hsmall
  have hn : n ≠ 0 := by omega
  have hnbound := (significand_bounds hn).1
  unfold roundedBits at heq
  rw [if_neg hn] at heq
  by_cases hm : m = 0
  · rw [if_pos hm] at heq
    omega
  rw [if_neg hm] at heq
  have hmlog : m.log2 < 53 := (Nat.log2_lt hm).mpr (by omega)
  have hmexact := significand_of_small (n := m) (by omega)
  rcases Nat.lt_or_eq_of_le (log2_le_log2 h.le) with hlt | hsame
  · have hmlt : m * 2 ^ (52 - m.log2) < 2 ^ 53 := by
      calc m * 2 ^ (52 - m.log2) < 2 ^ (m.log2 + 1) * 2 ^ (52 - m.log2) :=
            Nat.mul_lt_mul_of_pos_right Nat.lt_log2_self (Nat.two_pow_pos _)
        _ = 2 ^ 53 := by rw [← Nat.pow_add]; congr 1; omega
    omega
  · have hnexact := significand_of_small (n := n) (by omega)
    have hlt : m * 2 ^ (52 - m.log2) < n * 2 ^ (52 - m.log2) :=
      Nat.mul_lt_mul_of_pos_right h (Nat.two_pow_pos _)
    rw [hmexact, hnexact, hsame] at heq
    rw [hsame] at hlt
    omega

-- ---------------------------------------------------------------------------
-- Rounding and packing
-- ---------------------------------------------------------------------------

/-- The sign as it stands in a bit pattern. -/
def signBits (s : Sign) : Nat := s.toBitVec.toNat * 2 ^ 63

theorem toNat_packComponents (s : Sign) (e : BitVec 11) (f : BitVec 52) :
    (packComponents Format.binary64 s e f).toNat = signBits s + e.toNat * 2 ^ 52 + f.toNat := by
  have he : e.toNat < 2 ^ 11 := e.isLt
  have hf : f.toNat < 2 ^ 52 := f.isLt
  show (s.toBitVec ++ e ++ f).toNat = _
  rw [BitVec.toNat_append, BitVec.toNat_append, ← Nat.shiftLeft_add_eq_or_of_lt hf,
    ← Nat.shiftLeft_add_eq_or_of_lt he]
  simp only [Nat.shiftLeft_eq, signBits]
  ring

theorem Fields.toNat_toBits {x : Float} {s : Sign} {e : BitVec Format.binary64.exponentBits}
    {f : BitVec Format.binary64.mantissaBitsWithoutImplicit} (h : Fields x s e f) :
    x.toBits.toNat = signBits s + e.toNat * 2 ^ 52 + f.toNat :=
  (congrArg BitVec.toNat h).trans (toNat_packComponents s e f)

theorem log2_mul_two_pow {n : Nat} (hn : n ≠ 0) (j : Nat) : (n * 2 ^ j).log2 = n.log2 + j := by
  rw [Nat.log2_eq_iff (Nat.mul_ne_zero hn (Nat.two_pow_pos j).ne')]
  have hlow : 2 ^ n.log2 ≤ n := Nat.log2_self_le hn
  have hhigh : n < 2 ^ (n.log2 + 1) := Nat.lt_log2_self
  rw [show n.log2 + j + 1 = n.log2 + 1 + j by omega, Nat.pow_add, Nat.pow_add 2 (n.log2 + 1)]
  exact ⟨Nat.mul_le_mul_right _ hlow, Nat.mul_lt_mul_of_pos_right hhigh (Nat.two_pow_pos j)⟩

/-- The exponent of the significand. -/
theorem targetExponent_of_normal {m : Nat} {e : Int} (h : -1021 ≤ m.log2 + e) :
    Format.binary64.targetExponent (totalExponent m e) = m.log2 + e - 52 := by
  simp only [Format.targetExponent, totalExponent, Format.mantissaBits, Format.minExponent]
  norm_num
  omega

theorem shiftToTargetExponent_of_normal {m : Nat} {e : Int} (hlow : -1021 ≤ m.log2 + e) (k : Nat)
    (hk : (m.log2 + e - 52 - e).toNat = k) :
    shiftToTargetExponent Format.binary64 m e .exact =
      (ExtendedMantissa.mk m false false >>> k, e + k) := by
  simp only [shiftToTargetExponent, shiftToExponent, targetExponent_of_normal hlow, hk,
    ExtendedMantissa.ofMantissaAndAccuracy]

/-- The pattern of a significand of full width with its exponent. -/
theorem toNat_pack_finite {m : Nat} {hm : 0 < m} (hlow : 2 ^ 52 ≤ m) (hhigh : m < 2 ^ 53)
    {x : Int} (above : Nat) (hx : x + 1074 = above) :
    (pack Format.binary64 (.finite .positive m x hm)).toNat =
      min (above * 2 ^ 52 + m) infinityBits := by
  unfold infinityBits
  by_cases hfits : above + 1 + 1 < 2048
  · have hlog : m.log2 + 1 = 53 := by
      rw [(Nat.log2_eq_iff hm.ne').mpr ⟨hlow, hhigh⟩]
    rw [pack_finite (above + 1) (by omega) hfits, if_pos hlog, toNat_packComponents,
      BitVec.toNat_ofNat, BitVec.toNat_ofNat]
    show 0 * 2 ^ 63 + (above + 1) % 2 ^ 11 * 2 ^ 52 + m % 2 ^ 52 = _
    omega
  · have hinfinite : pack Format.binary64 (.finite .positive m x hm) =
        packedInfinity Format.binary64 .positive := by
      simp only [pack]
      rw [if_pos]
      show 2 ^ 11 ≤ (x + (1023 : Nat) + (52 : Nat)).toNat + 1
      omega
    rw [hinfinite]
    show 2047 * 2 ^ 52 = _
    omega

/-- Rounding shifts twice: once to the significand, and once more after a carry. -/
theorem roundWithAccuracy_eq {s : Sign} {m r : Nat} {e e₁ e₂ : Int}
    {first second : ExtendedMantissa}
    (hfirst : shiftToTargetExponent Format.binary64 m e .exact = (first, e₁))
    (hround : first.roundedMantissa = r)
    (hsecond : shiftToTargetExponent Format.binary64 r e₁ .exact = (second, e₂))
    (hpos : 0 < second.mantissa) :
    roundWithAccuracy Format.binary64 s m e .exact = .finite s second.mantissa e₂ hpos := by
  simp only [roundWithAccuracy, hfirst, hround, hsecond]
  rw [dif_neg hpos.ne']

/-- **Rounding a natural gives the pattern of the nearest number**, or that of infinity if there
is no exponent for it. The natural comes with `j` zeros behind it, which do not count. -/
theorem toNat_pack_round {n j : Nat} (hn : n ≠ 0) (hj : j ≤ 53) (hbits : 52 ≤ n.log2 + j) :
    (pack Format.binary64
      (roundWithAccuracy Format.binary64 .positive (n * 2 ^ j) (-j) .exact)).toNat =
      min (roundedBits n) infinityBits := by
  have hlog := log2_mul_two_pow hn j
  have hfirst := shiftToTargetExponent_of_normal (m := n * 2 ^ j) (e := -j) (by omega)
    (n.log2 + j - 52) (by omega)
  have hround := roundedMantissa_shiftRight (n * 2 ^ j) (n.log2 + j - 52)
  rw [← significand_eq hj hbits] at hround
  obtain ⟨hlow, hhigh⟩ := significand_bounds hn
  rw [roundedBits, if_neg hn]
  rcases Nat.lt_or_eq_of_le hhigh with hlt | heq
  · have hwidth : (significand n).log2 = 52 :=
      (Nat.log2_eq_iff (by omega)).mpr ⟨hlow, hlt⟩
    have hsecond := shiftToTargetExponent_of_normal (m := significand n)
      (e := -j + (n.log2 + j - 52 : Nat)) (by omega) 0 (by omega)
    rw [roundWithAccuracy_eq hfirst hround hsecond (show 0 < significand n by omega)]
    exact toNat_pack_finite hlow hlt (n.log2 + 1022) (by omega)
  · -- the carry: half the significand, and the exponent one higher
    have hwidth : (significand n).log2 = 53 := by rw [heq, Nat.log2_two_pow]
    have hsecond := shiftToTargetExponent_of_normal (m := significand n)
      (e := -j + (n.log2 + j - 52 : Nat)) (by omega) 1 (by omega)
    rw [roundWithAccuracy_eq hfirst hround hsecond (show 0 < significand n / 2 by omega)]
    show (pack Format.binary64 (.finite .positive (significand n / 2) _ _)).toNat = _
    rw [toNat_pack_finite (by omega) (by omega) (n.log2 + 1023) (by omega)]
    omega

-- ---------------------------------------------------------------------------
-- Naturals as numbers
-- ---------------------------------------------------------------------------

theorem roundedBits_lt {n : Nat} (hn : n < 2 ^ 64) : roundedBits n < infinityBits := by
  unfold roundedBits infinityBits
  split
  · omega
  · next hne =>
    have hlog : n.log2 < 64 := (Nat.log2_lt hne).mpr hn
    have hbound := (significand_bounds hne).2
    omega

/-- The nearest number to a natural of the machine. -/
theorem toBits_ofNat {n : Nat} (hn : n < 2 ^ 64) :
    (UInt64.ofNat n).toFloat.toBits.toNat = roundedBits n := by
  have hcast : (UInt64.ofNat n).toNat = n := UInt64.toNat_ofNat_of_lt' hn
  show (pack Format.binary64 (ofInt Format.binary64 ((UInt64.ofNat n).toNat : Int))).toNat = _
  rw [hcast]
  by_cases hzero : n = 0
  · subst hzero
    rfl
  have hsign : compare (n : Int) 0 = .gt := Int.compare_eq_gt.mpr (by omega)
  have hmove : decreaseExponent n 0 (Format.binary64.targetExponent (totalExponent n 0)) =
      (n * 2 ^ (52 - n.log2), -((52 - n.log2 : Nat) : Int)) := by
    rw [targetExponent_of_normal (by omega)]
    have hamount : (-(n.log2 + 0 - 52 : Int)).toNat = 52 - n.log2 := by omega
    simp only [decreaseExponent, Int.zero_sub, hamount, Nat.shiftLeft_eq]
  simp only [ofInt, UnpackedFloat.normalize, hsign, UnpackedFloat.round, Int.toNat_natCast, hmove]
  rw [toNat_pack_round hzero (by omega) (by omega)]
  have hlt := roundedBits_lt hn
  omega

/-- The nearest number to a decimal without a fraction. -/
theorem toBits_ofScientific {n : Nat} (hn : 2 ^ 53 ≤ n) :
    (Float.ofScientific n false 0).toBits.toNat = min (roundedBits n) infinityBits := by
  have hzero : n ≠ 0 := by omega
  unfold Float.ofScientific
  rw [dif_neg (by omega)]
  show (pack Format.binary64 (ofScientific Format.binary64 n 0)).toNat = _
  have hround := toNat_pack_round hzero (j := 53) (by omega) (by omega)
  rw [← hround]
  congr 2
  unfold ofScientific
  rw [dif_neg hzero, if_neg (by decide), if_neg (by norm_num), if_pos (by decide)]
  have hwidth : Format.binary64.mantissaBits = 53 := rfl
  have hsign : Sign.positive * Sign.positive = Sign.positive := rfl
  simp only [UnpackedFloat.mul, hwidth, hsign, Nat.shiftLeft_eq, Int.toNat_zero, Nat.pow_zero,
    Nat.mul_one, Int.add_zero]

end Binary64

end SeqScript
