import Mathlib
import SeqScript.Binary64.Basic

/-!
# Numbers and their signs

Negation changes the sign of a number and nothing else, so that it undoes itself
(`Binary64.neg_neg`). For this a number is taken apart into a sign, an exponent
and a fraction, and `pack_neg_unpack` follows negation through the encoding.
-/

namespace SeqScript

namespace Binary64

open Float.Model (Format)
open Float.Model.UnpackedFloat

variable {s : Sign} {e : BitVec Format.binary64.exponentBits}
  {f : BitVec Format.binary64.mantissaBitsWithoutImplicit}

theorem toBitVec_ofBitVec (b : BitVec 1) : (Sign.ofBitVec b).toBitVec = b := by
  revert b
  decide

/-- The sign that is put in front is read back. -/
theorem unpackSign_packComponents {spec : Format} {e : BitVec spec.exponentBits}
    {f : BitVec spec.mantissaBitsWithoutImplicit} :
    Sign.ofBitVec (unpackSign (packComponents spec s e f)) = s := by
  -- the sign is the top bit, above the exponent and the fraction
  have htop : unpackSign (packComponents spec s e f) = s.toBitVec := by
    simp only [unpackSign, packComponents, BitVec.extractLsb]
    ext i hi
    grind
  cases s <;> exact congrArg Sign.ofBitVec htop

/-- A number is put together from its parts. -/
theorem packComponents_unpack (b : BitVec Format.binary64.numBits) :
    packComponents Format.binary64 (Sign.ofBitVec (unpackSign b)) (unpackExponent b)
      (unpackMantissa b) = b := by
  simp only [packComponents, toBitVec_ofBitVec, unpackSign, unpackExponent, unpackMantissa,
    BitVec.extractLsb]
  ext i hi
  grind

/-- The encoding of a finite number whose exponent is in range: nothing is rounded. -/
theorem pack_finite {m : Nat} {x : Int} {hm : 0 < m} (biased : Nat)
    (hx : x + 1023 + 52 = biased) (hfits : biased + 1 < 2048) :
    pack Format.binary64 (.finite s m x hm) = packComponents Format.binary64 s
      (if m.log2 + 1 = 53 then BitVec.ofNat _ biased else 0#_) (BitVec.ofNat _ m) := by
  have hbiased : (x + Format.binary64.exponentBias +
      Format.binary64.mantissaBitsWithoutImplicit).toNat = biased := by
    show (x + 1023 + 52).toNat = biased
    omega
  simp only [pack, hbiased]
  rw [if_neg (by show ¬ 2048 ≤ biased + 1; omega)]
  show (if m.log2 + 1 = 53 then _ else _) = _
  split <;> rfl

/-- Negation through the encoding: the other sign, and the same exponent and
fraction. -/
theorem pack_neg_unpack (h : e ≠ -1#_ ∨ f = 0#_) :
    pack Format.binary64 (unpack Format.binary64 (packComponents Format.binary64 s e f)).neg =
      packComponents Format.binary64 (-s) e f := by
  have hf : f.toNat < 2 ^ 52 := f.isLt
  have he : e.toNat < 2048 := e.isLt
  unfold unpack
  simp only [unpackMantissa_packComponents, unpackExponent_packComponents,
    unpackSign_packComponents]
  split
  · next hall =>
    obtain rfl : f = 0#_ := h.resolve_left (absurd hall)
    rw [if_pos rfl, hall]
    rfl
  split
  · next hzero =>
    subst hzero
    split
    · next hnone =>
      rw [hnone]
      rfl
    · next hsome =>
      -- below the normal numbers the exponent counts as one
      have hpos : f.toNat ≠ 0 := fun hnone => hsome (BitVec.eq_of_toNat_eq hnone)
      have hlog : ¬ f.toNat.log2 + 1 = 53 := by
        have hlt := (Nat.log2_lt hpos).2 hf
        omega
      show pack Format.binary64 (.finite (-s) f.toNat (-1074) _) = _
      rw [pack_finite 1 (by decide) (by decide), if_neg hlog, BitVec.ofNat_toNat,
        BitVec.setWidth_eq]
  · next hall hzero =>
    have hall' : e.toNat ≠ 2047 := fun heq => hall (BitVec.eq_of_toNat_eq heq)
    have hone : (1#1 ++ f).toNat = 2 ^ 52 + f.toNat :=
      (BitVec.toNat_append 1#1 f).trans (Nat.two_pow_add_eq_or_of_lt hf 1).symm
    have hlog : (1#1 ++ f).toNat.log2 + 1 = 53 := by
      have hge : 52 ≤ (1#1 ++ f).toNat.log2 := (Nat.le_log2 (by omega)).2 (by omega)
      have hlt : (1#1 ++ f).toNat.log2 < 53 := (Nat.log2_lt (by omega)).2 (by omega)
      omega
    show pack Format.binary64 (.finite (-s) (1#1 ++ f).toNat (e.toNat - (1023 + 52)) _) = _
    rw [pack_finite e.toNat (by omega) (by omega), if_pos hlog, BitVec.ofNat_toNat,
      BitVec.setWidth_eq]
    congr 1
    apply BitVec.eq_of_toNat_eq
    rw [BitVec.toNat_ofNat, hone]
    show (2 ^ 52 + f.toNat) % 2 ^ 52 = _
    omega

/-- Not a number is what has the greatest exponent and a fraction. -/
theorem isNaN_unpack :
    (unpack Format.binary64 (packComponents Format.binary64 s e f)).isNaN =
      decide (e = -1#_ ∧ f ≠ 0#_) := by
  unfold unpack
  simp only [unpackMantissa_packComponents, unpackExponent_packComponents]
  split
  · split <;> simp_all [Float.Model.UnpackedFloat.isNaN]
  · split <;> (try split) <;> simp_all [Float.Model.UnpackedFloat.isNaN]

-- ---------------------------------------------------------------------------
-- Numbers
-- ---------------------------------------------------------------------------

/-- The bits of a number, in parts. -/
def Fields (x : Float) (s : Sign) (e : BitVec Format.binary64.exponentBits)
    (f : BitVec Format.binary64.mantissaBitsWithoutImplicit) : Prop :=
  x.toModel.toBits.toBitVec = packComponents Format.binary64 s e f

/-- Every number has a sign, an exponent and a fraction. -/
theorem exists_fields (x : Float) : ∃ s e f, Fields x s e f :=
  ⟨_, _, _, (packComponents_unpack x.toModel.toBits.toBitVec).symm⟩

namespace Fields

variable {x y : Float}

theorem isNaN (h : Fields x s e f) : x.isNaN = decide (e = -1#_ ∧ f ≠ 0#_) := by
  rw [← isNaN_unpack, ← h]
  rfl

/-- Negation changes the sign and leaves the rest. -/
theorem neg (h : Fields x s e f) (hx : x.isNaN = false) : Fields (-x) (-s) e f := by
  rw [h.isNaN, decide_eq_false_iff_not, Classical.not_and_iff_not_or_not, ne_eq,
    Classical.not_not] at hx
  show pack Format.binary64 (unpack Format.binary64 x.toModel.toBits.toBitVec).neg = _
  rw [h, pack_neg_unpack hx]

/-- The three parts are the whole number. -/
theorem unique (h : Fields x s e f) (h' : Fields y s e f) : x = y := by
  obtain ⟨⟨⟨b⟩, _⟩⟩ := x
  obtain ⟨⟨⟨b'⟩, _⟩⟩ := y
  obtain rfl : b = b' := h.trans h'.symm
  rfl

end Fields

/-- There is only one encoding of what is not a number. -/
theorem eq_nan_of_isNaN {x : Float} (hx : x.isNaN = true) :
    x = Float.ofBits 0x7FF8000000000000 := by
  obtain ⟨s, e, f, h⟩ := exists_fields x
  have hparts := h.isNaN ▸ hx
  rw [decide_eq_true_iff] at hparts
  have hexponent : @unpackExponent Format.binary64 x.toModel.toBits.toBitVec = e := by
    rw [h, unpackExponent_packComponents]
  have hfraction : @unpackMantissa Format.binary64 x.toModel.toBits.toBitVec = f := by
    rw [h, unpackMantissa_packComponents]
  have hbits : Fields x .positive _ _ :=
    x.toModel.valid.eq_packedNaN (hexponent.trans hparts.1) (hfraction ▸ hparts.2)
  exact hbits.unique rfl

/-- **Negation undoes itself,** on numbers and on what is not a number. -/
theorem neg_neg (x : Binary64) : -(-x) = x := by
  cases x with
  | number x =>
    show neg (if x.isNaN then negativeNaN else number (-x)) = number x
    cases hx : x.isNaN with
    | true =>
      rw [eq_nan_of_isNaN hx]
      rfl
    | false =>
      obtain ⟨s, e, f, h⟩ := exists_fields x
      have hneg : (-x).isNaN = false := by rw [(h.neg hx).isNaN, ← h.isNaN, hx]
      have hsign : - -s = s := by cases s <;> rfl
      have hback : -(-x) = x := ((h.neg hx).neg hneg).unique (hsign.symm ▸ h)
      show (if (-x).isNaN then negativeNaN else number (-(-x))) = number x
      rw [hneg, hback]
      rfl
  | negativeNaN => rfl

end Binary64

end SeqScript
