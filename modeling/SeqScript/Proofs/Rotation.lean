import Mathlib
import SeqScript.Sequence.Transform

/-!
# Rotations and shifts

Where the elements of a row come to lie (`Turned`, `Displaced`), and that the machine gets there:
`rotateWords` and `shiftWords` are the two operations on words, with the remainders, differences
and slices that they take, each of which could fail. For rows of fewer than `2 ^ 63` elements none
does, whatever the amount (`rotateWords_eq`, `shiftWords_eq`).

The places alone determine a rotated row (`turned_unique`), and amounts add up (`Turned.trans`), so
rotations by congruent amounts are the same, and each is undone by another. The main result is
`rotations_and_shifts`.
-/

namespace SeqScript

namespace Sequence

-- ---------------------------------------------------------------------------
-- Rotations
-- ---------------------------------------------------------------------------

section

variable {α : Type} {xs ys : List α} {k : Int}

/-- A row has the elements of another `k` places further around. -/
structure Turned (xs : List α) (k : Int) (ys : List α) : Prop where
  length : ys.length = xs.length
  element : ∀ i < xs.length, ys[i]? = xs[((i - k) % xs.length).toNat]?

/-- Remainders of congruent numbers, one of them natural. -/
theorem mod_eq_toNat_emod {m n : Nat} {z : Int} (h : m ≡ z [ZMOD n]) : m % n = (z % n).toNat := by
  rw [← h, ← Int.natCast_mod, Int.toNat_natCast]

theorem turned_unique {zs : List α} (hy : Turned xs k ys) (hz : Turned xs k zs) : ys = zs := by
  apply List.ext_getElem?
  intro i
  by_cases hi : i < xs.length
  · rw [hy.element i hi, hz.element i hi]
  · rw [List.getElem?_eq_none (by have := hy.length; omega),
      List.getElem?_eq_none (by have := hz.length; omega)]

theorem turned_rotate (hxs : xs ≠ []) (k : Int64) : Turned xs k.toInt (rotate xs k) := by
  have hpos : 0 < (xs.length : Int) := Int.natCast_pos.mpr (List.length_pos_iff.mpr hxs)
  have hlow := Int.emod_nonneg k.toInt hpos.ne'
  have hhigh := Int.emod_lt_of_pos k.toInt hpos
  let split := xs.length - (k.toInt % xs.length).toNat
  have hrotate : rotate xs k = xs.rotate split :=
    (List.rotate_eq_drop_append_take (Nat.sub_le _ _)).symm
  have hsplit : (split : Int) = xs.length - k.toInt % xs.length := by
    show ((xs.length - (k.toInt % xs.length).toNat : Nat) : Int) = _
    omega
  constructor
  · rw [hrotate, List.length_rotate]
  · intro i hi
    have hplace : ((i + split : Nat) : Int) ≡ i - k.toInt [ZMOD xs.length] := by
      have hwhole : (xs.length : Int) ≡ 0 [ZMOD xs.length] := Int.emod_self
      have hmoved := (hwhole.sub (Int.mod_modEq k.toInt xs.length)).add_left i
      rw [Int.natCast_add, hsplit]
      simpa [sub_eq_add_neg] using hmoved
    rw [hrotate, List.getElem?_rotate hi, mod_eq_toNat_emod hplace]

theorem Turned.trans {zs : List α} {l : Int} (hxs : xs ≠ []) (hy : Turned xs k ys)
    (hz : Turned ys l zs) : Turned xs (k + l) zs := by
  have hpos : 0 < (xs.length : Int) := Int.natCast_pos.mpr (List.length_pos_iff.mpr hxs)
  constructor
  · rw [hz.length, hy.length]
  · intro i hi
    have hlow := Int.emod_nonneg (i - l) hpos.ne'
    have hhigh := Int.emod_lt_of_pos (i - l) hpos
    have hplace : (((i - l) % xs.length).toNat - k) % (xs.length : Int) =
        (i - (k + l)) % xs.length := by
      rw [Int.toNat_of_nonneg hlow, Int.emod_sub_emod]
      congr 1
      ring
    rw [hz.element i (by rw [hy.length]; exact hi), hy.length, hy.element _ (by omega), hplace]

theorem Turned.congr {l : Int} (hy : Turned xs k ys) (h : l ≡ k [ZMOD xs.length]) :
    Turned xs l ys where
  length := hy.length
  element i hi := by rw [hy.element i hi, (h.symm.sub_left i).eq]

theorem turned_self (xs : List α) : Turned xs 0 xs where
  length := rfl
  element i hi := by
    rw [Int.sub_zero, Int.emod_eq_of_lt (Int.natCast_nonneg i) (Int.ofNat_lt.mpr hi),
      Int.toNat_natCast]

theorem rotate_ne_nil (hxs : xs ≠ []) (k : Int64) : rotate xs k ≠ [] := by
  rw [← List.length_pos_iff, (turned_rotate hxs k).length]
  exact List.length_pos_iff.mpr hxs

/-- Rotations one after another add up. -/
theorem turned_rotate_rotate (hxs : xs ≠ []) (a b : Int64) :
    Turned xs (a.toInt + b.toInt) (rotate (rotate xs a) b) :=
  (turned_rotate hxs a).trans hxs (turned_rotate (rotate_ne_nil hxs a) b)

theorem rotate_rotate_eq (hxs : xs ≠ []) {a b c : Int64}
    (h : c.toInt ≡ a.toInt + b.toInt [ZMOD xs.length]) :
    rotate (rotate xs a) b = rotate xs c :=
  turned_unique (turned_rotate_rotate hxs a b) ((turned_rotate hxs c).congr h.symm)

/-- A rotation is undone by another. -/
theorem exists_rotate_back (hxs : xs ≠ []) (hlength : xs.length < 2 ^ 63) (a : Int64) :
    ∃ b, rotate (rotate xs a) b = xs ∧ rotate (rotate xs b) a = xs := by
  have hpos : 0 < (xs.length : Int) := Int.natCast_pos.mpr (List.length_pos_iff.mpr hxs)
  have hlow := Int.emod_nonneg (-a.toInt) hpos.ne'
  have hhigh := Int.emod_lt_of_pos (-a.toInt) hpos
  have hb : (Int64.ofInt (-a.toInt % xs.length)).toInt = -a.toInt % xs.length :=
    Int64.toInt_ofInt_of_le (by omega) (by omega)
  have hback : 0 ≡ a.toInt + -a.toInt % xs.length [ZMOD xs.length] := by
    have hsum := (Int.mod_modEq (-a.toInt) xs.length).add_left a.toInt
    rw [add_neg_cancel] at hsum
    exact hsum.symm
  rw [← hb] at hback
  refine ⟨Int64.ofInt (-a.toInt % xs.length), ?_, ?_⟩
  · exact turned_unique ((turned_rotate_rotate hxs _ _).congr hback) (turned_self xs)
  · rw [add_comm] at hback
    exact turned_unique ((turned_rotate_rotate hxs _ _).congr hback) (turned_self xs)

end

-- ---------------------------------------------------------------------------
-- Shifts
-- ---------------------------------------------------------------------------

/-- A row has the elements of another `k` places further on, with a fill in the places that are
left, and without those that fall off. -/
structure Displaced (xs : List Value) (k : Int) (ys : List Value) : Prop where
  length : ys.length = xs.length
  forward : 0 ≤ k → ∀ i < xs.length, ys[i]? =
    if i < k.natAbs % xs.length then some (fill xs) else xs[i - k.natAbs % xs.length]?
  backward : k < 0 → ∀ i < xs.length, ys[i]? =
    if i < xs.length - k.natAbs % xs.length then xs[i + k.natAbs % xs.length]? else some (fill xs)

theorem shift_of_nonneg {xs : List Value} (hxs : xs ≠ []) {k : Int64} (hk : 0 ≤ k.toInt) :
    shift xs k = List.replicate (k.toInt.natAbs % xs.length) (fill xs) ++
      xs.take (xs.length - k.toInt.natAbs % xs.length) := by
  simp only [shift, List.isEmpty_eq_false_iff.mpr hxs, Bool.false_eq_true, if_false, if_pos hk]

theorem shift_of_neg {xs : List Value} (hxs : xs ≠ []) {k : Int64} (hk : k.toInt < 0) :
    shift xs k = xs.drop (k.toInt.natAbs % xs.length) ++
      List.replicate (k.toInt.natAbs % xs.length) (fill xs) := by
  simp only [shift, List.isEmpty_eq_false_iff.mpr hxs, Bool.false_eq_true, if_false,
    if_neg (Int.not_le.mpr hk)]

theorem displaced_shift {xs : List Value} (hxs : xs ≠ []) (k : Int64) :
    Displaced xs k.toInt (shift xs k) := by
  have hless : k.toInt.natAbs % xs.length < xs.length :=
    Nat.mod_lt _ (List.length_pos_iff.mpr hxs)
  constructor
  · rcases lt_or_ge k.toInt 0 with hk | hk
    · rw [shift_of_neg hxs hk, List.length_append, List.length_drop, List.length_replicate]
      omega
    · rw [shift_of_nonneg hxs hk, List.length_append, List.length_take, List.length_replicate]
      omega
  · intro hk i hi
    rw [shift_of_nonneg hxs hk]
    split
    · next hfill =>
      rw [List.getElem?_append_left (by simpa using hfill), List.getElem?_replicate_of_lt hfill]
    · next hkept =>
      rw [List.getElem?_append_right (by simpa using hkept), List.length_replicate,
        List.getElem?_take_of_lt (by omega)]
  · intro hk i hi
    rw [shift_of_neg hxs hk]
    split
    · next hkept =>
      rw [List.getElem?_append_left (by simpa using hkept), List.getElem?_drop, Nat.add_comm]
    · next hfill =>
      rw [List.getElem?_append_right (by simpa using hfill), List.length_drop,
        List.getElem?_replicate_of_lt (by omega)]

theorem any_isFloat_iff {xs : List Value} :
    xs.any Value.isFloat = true ↔ ∃ x, Value.float x ∈ xs := by
  rw [List.any_eq_true]
  constructor
  · rintro ⟨v, hv, hfloat⟩
    cases v with
    | float x => exact ⟨x, hv⟩
    | _ => cases hfloat
  · rintro ⟨x, hx⟩
    exact ⟨_, hx, rfl⟩

/-- The fill is a floating-point zero exactly if the row has a floating-point number. -/
theorem fill_iff (xs : List Value) : (fill xs = .float 0.0 ↔ ∃ x, Value.float x ∈ xs) ∧
    (fill xs = .int 0 ↔ ¬ ∃ x, Value.float x ∈ xs) := by
  rw [← any_isFloat_iff, fill]
  split
  · next hany => simp [hany]
  · next hnone => simp [hnone]

-- ---------------------------------------------------------------------------
-- On words
-- ---------------------------------------------------------------------------

/-- How an operation on words and slices can fail. -/
inductive Trap where
  /-- A result is no word, or there is none. -/
  | overflow
  /-- A slice goes beyond the row. -/
  | outside

/-- The remainder of words that is not negative, from the one that has the sign of the dividend. -/
def remainder (k n : Int64) : Except Trap Int64 :=
  if n = 0 ∨ k = Int64.minValue ∧ n = -1 then .error .overflow
  else .ok (if k % n < 0 then k % n + n.abs else k % n)

/-- The remainder of words without a sign. -/
def unsignedRemainder (k n : UInt64) : Except Trap UInt64 :=
  if n = 0 then .error .overflow else .ok (k % n)

/-- The difference of lengths. -/
def difference (m n : Nat) : Except Trap Nat := if n ≤ m then .ok (m - n) else .error .overflow

section

variable {α : Type} (xs : List α)

/-- The elements from place `i` on. -/
def sliceFrom (i : Nat) : Except Trap (List α) :=
  if i ≤ xs.length then .ok (xs.drop i) else .error .outside

/-- The elements before place `i`. -/
def sliceTo (i : Nat) : Except Trap (List α) :=
  if i ≤ xs.length then .ok (xs.take i) else .error .outside

/-- Rotation on words. -/
def rotateWords (k : Int64) : Except Trap (List α) :=
  if xs.isEmpty then .ok []
  else do
    let k ← remainder k (Int64.ofNat xs.length)
    let split ← difference xs.length k.toUInt64.toNat
    let back ← sliceFrom xs split
    let front ← sliceTo xs split
    return back ++ front

end

/-- Shifting on words. -/
def shiftWords (xs : List Value) (k : Int64) : Except Trap (List Value) :=
  if xs.isEmpty then .ok []
  else do
    let m ← unsignedRemainder k.abs.toUInt64 (UInt64.ofNat xs.length)
    let zeros := List.replicate m.toNat (fill xs)
    if 0 ≤ k then
      let split ← difference xs.length m.toNat
      let kept ← sliceTo xs split
      return zeros ++ kept
    else
      let kept ← sliceFrom xs m.toNat
      return kept ++ zeros

/-- What a word stands for, by its pattern. -/
theorem toInt_eq (k : Int64) : k.toInt =
    if k.toBitVec.msb = true then (k.toUInt64.toNat : Int) - 2 ^ 64 else (k.toUInt64.toNat : Int) :=
  BitVec.toInt_eq_msb_cond k.toBitVec

theorem toNat_toUInt64 {k : Int64} (hk : 0 ≤ k.toInt) : k.toUInt64.toNat = k.toInt.toNat := by
  have hvalue := toInt_eq k
  have hlt := k.toUInt64.toNat_lt
  split at hvalue <;> omega

/-- The magnitude of a word as one without a sign, the least word included. -/
theorem toNat_abs (k : Int64) : k.abs.toUInt64.toNat = k.toInt.natAbs := by
  have hvalue := toInt_eq k
  have hlt := k.toUInt64.toNat_lt
  have habs : k.abs.toUInt64.toNat =
      if k.toBitVec.msb = true then 2 ^ 64 - k.toUInt64.toNat else k.toUInt64.toNat :=
    BitVec.toNat_abs
  split at hvalue
  · next hneg =>
    rw [habs, if_pos hneg]
    omega
  · next hpos =>
    rw [habs, if_neg hpos]
    omega

theorem abs_of_nonneg {k : Int64} (hk : 0 ≤ k.toInt) : k.abs = k := by
  have hpattern : k.abs.toUInt64.toNat = k.toUInt64.toNat := by
    rw [toNat_abs, toNat_toUInt64 hk]
    omega
  exact congrArg Int64.ofUInt64 (UInt64.toNat_inj.mp hpattern)

/-- Adding the divisor to a negative remainder gives the one that is not negative. -/
theorem tmod_add_eq_emod (k : Int) {n : Int} (hn : 0 < n) :
    (if k.tmod n < 0 then k.tmod n + n else k.tmod n) = k % n := by
  have hlow := Int.emod_nonneg k hn.ne'
  have hhigh := Int.emod_lt_of_pos k hn
  rw [Int.tmod_eq_emod]
  split_ifs <;> omega

theorem remainder_eq (k : Int64) {n : Int64} (hn : 0 < n.toInt) :
    ∃ r, remainder k n = .ok r ∧ r.toInt = k.toInt % n.toInt := by
  have hproper : ¬ (n = 0 ∨ k = Int64.minValue ∧ n = -1) := by
    rintro (rfl | ⟨-, rfl⟩)
    · exact absurd hn (by decide)
    · exact absurd hn (by decide)
  have hrange := n.toInt_lt
  have hlow := Int.emod_nonneg k.toInt hn.ne'
  have hhigh := Int.emod_lt_of_pos k.toInt hn
  have hsum := tmod_add_eq_emod k.toInt hn
  have hsign : k % n < 0 ↔ k.toInt.tmod n.toInt < 0 := by
    rw [Int64.lt_iff_toInt_lt, Int64.toInt_mod]
    rfl
  refine ⟨_, if_neg hproper, ?_⟩
  rw [abs_of_nonneg hn.le]
  by_cases hneg : k % n < 0
  · rw [if_pos (hsign.mp hneg)] at hsum
    rw [if_pos hneg, Int64.toInt_add, Int64.toInt_mod, hsum]
    exact Int.bmod_eq_of_le (by omega) (by omega)
  · rw [if_neg (mt hsign.mpr hneg)] at hsum
    rw [if_neg hneg, Int64.toInt_mod, hsum]

/-- **Rotating on words does not fail.** -/
theorem rotateWords_eq {α : Type} {xs : List α} (hxs : xs ≠ []) (hlength : xs.length < 2 ^ 63)
    (k : Int64) : rotateWords xs k = .ok (rotate xs k) := by
  have hpos : 0 < (xs.length : Int) := Int.natCast_pos.mpr (List.length_pos_iff.mpr hxs)
  have hword : (Int64.ofNat xs.length).toInt = xs.length := Int64.toInt_ofNat_of_lt hlength
  obtain ⟨r, hr, hvalue⟩ := remainder_eq k (hword.symm ▸ hpos)
  rw [hword] at hvalue
  have hlow := Int.emod_nonneg k.toInt hpos.ne'
  have hhigh := Int.emod_lt_of_pos k.toInt hpos
  have hcut : r.toUInt64.toNat = (k.toInt % xs.length).toNat := by
    rw [toNat_toUInt64 (by omega), hvalue]
  have hdifference : difference xs.length r.toUInt64.toNat =
      .ok (xs.length - (k.toInt % xs.length).toNat) := by
    rw [hcut]
    exact if_pos (by omega)
  have hfrom : sliceFrom xs (xs.length - (k.toInt % xs.length).toNat) = .ok _ :=
    if_pos (Nat.sub_le _ _)
  have hto : sliceTo xs (xs.length - (k.toInt % xs.length).toNat) = .ok _ :=
    if_pos (Nat.sub_le _ _)
  rw [rotateWords, if_neg (by simpa using hxs)]
  simp only [hr, hdifference, hfrom, hto, bind, Except.bind]
  rfl

/-- **Shifting on words does not fail.** -/
theorem shiftWords_eq {xs : List Value} (hxs : xs ≠ []) (hlength : xs.length < 2 ^ 63)
    (k : Int64) : shiftWords xs k = .ok (shift xs k) := by
  have hpos : 0 < xs.length := List.length_pos_iff.mpr hxs
  have hrange : xs.length < 2 ^ 64 := by omega
  have hword : (UInt64.ofNat xs.length).toNat = xs.length := UInt64.toNat_ofNat_of_lt' hrange
  have hne : UInt64.ofNat xs.length ≠ 0 := by
    intro hzero
    rw [hzero] at hword
    exact hpos.ne hword
  have hless : k.toInt.natAbs % xs.length < xs.length := Nat.mod_lt _ hpos
  have hm : (k.abs.toUInt64 % UInt64.ofNat xs.length).toNat = k.toInt.natAbs % xs.length := by
    rw [UInt64.toNat_mod, toNat_abs, hword]
  have hremainder : unsignedRemainder k.abs.toUInt64 (UInt64.ofNat xs.length) = .ok _ := if_neg hne
  have hdifference : difference xs.length (k.toInt.natAbs % xs.length) = .ok _ := if_pos hless.le
  have hto : sliceTo xs (xs.length - k.toInt.natAbs % xs.length) = .ok _ := if_pos (Nat.sub_le _ _)
  have hfrom : sliceFrom xs (k.toInt.natAbs % xs.length) = .ok _ := if_pos hless.le
  rw [shiftWords, if_neg (by simpa using hxs)]
  simp only [hremainder, hm, hdifference, hfrom, hto, bind, Except.bind]
  have hsign : 0 ≤ k ↔ 0 ≤ k.toInt := Int64.le_iff_toInt_le
  by_cases hk : 0 ≤ k
  · rw [if_pos hk, shift_of_nonneg hxs (hsign.mp hk)]
    rfl
  · rw [if_neg hk, shift_of_neg hxs (not_le.mp (mt hsign.mpr hk))]
    rfl

end Sequence

open Sequence

/-- **Rotations and shifts.** Of a row that is not empty and has fewer than `2 ^ 63` elements, for
every amount:
* a rotation has element `i` of the row `k` places further around, and on words it does not fail;
* rotations one after another are one by any amount congruent to the sum, and each is undone by
  another;
* a shift has the elements as many places further on as the magnitude leaves modulo the length,
  with a fill where there are none, and on words it does not fail;
* the fill is a floating-point zero exactly if the row has a floating-point number, and an integer
  zero otherwise. -/
theorem rotations_and_shifts :
    (∀ {α : Type} (xs : List α), xs ≠ [] → xs.length < 2 ^ 63 →
      (∀ k : Int64, Turned xs k.toInt (rotate xs k) ∧ rotateWords xs k = .ok (rotate xs k)) ∧
      (∀ a b c : Int64, c.toInt ≡ a.toInt + b.toInt [ZMOD xs.length] →
        rotate (rotate xs a) b = rotate xs c) ∧
      ∀ a, ∃ b, rotate (rotate xs a) b = xs ∧ rotate (rotate xs b) a = xs) ∧
    ∀ xs : List Value, xs ≠ [] → xs.length < 2 ^ 63 →
      (∀ k : Int64, Displaced xs k.toInt (shift xs k) ∧ shiftWords xs k = .ok (shift xs k)) ∧
      (fill xs = .float 0.0 ↔ ∃ x, Value.float x ∈ xs) ∧
      (fill xs = .int 0 ↔ ¬ ∃ x, Value.float x ∈ xs) := by
  constructor
  · intro α xs hxs hlength
    refine ⟨?_, fun a b c => rotate_rotate_eq hxs, exists_rotate_back hxs hlength⟩
    intro k
    exact ⟨turned_rotate hxs k, rotateWords_eq hxs hlength k⟩
  · intro xs hxs hlength
    refine ⟨?_, fill_iff xs⟩
    intro k
    exact ⟨displaced_shift hxs k, shiftWords_eq hxs hlength k⟩

/-- Three elements, one of them a floating-point number, moved by the least word, which has no
positive counterpart. -/
theorem rotations_and_shifts_least :
    let xs : List Value := [.int 1, .float 2.5, .int 3]
    xs ≠ [] ∧ xs.length < 2 ^ 63 ∧
      rotateWords xs Int64.minValue = .ok (rotate xs Int64.minValue) ∧
      rotate xs Int64.minValue = [.int 3, .int 1, .float 2.5] ∧
      shiftWords xs Int64.minValue = .ok (shift xs Int64.minValue) ∧
      shift xs Int64.minValue = [.int 3, .float 0.0, .float 0.0] := by
  intro xs
  have hlength : xs.length < 2 ^ 63 := by decide
  have hrotate := (rotations_and_shifts.1 xs (List.cons_ne_nil _ _) hlength).1 Int64.minValue
  have hshift := (rotations_and_shifts.2 xs (List.cons_ne_nil _ _) hlength).1 Int64.minValue
  have hmoved : shift xs Int64.minValue = [.int 3, .float 0.0, .float 0.0] :=
    (shift_of_neg (List.cons_ne_nil _ _) (by decide)).trans rfl
  have hturned : rotate xs Int64.minValue = [.int 3, .int 1, .float 2.5] := by
    have hcut : (Int64.minValue.toInt % xs.length).toNat = 1 := by decide
    rw [rotate, hcut]
    rfl
  exact ⟨List.cons_ne_nil _ _, hlength, hrotate.2, hturned, hshift.2, hmoved⟩

end SeqScript
