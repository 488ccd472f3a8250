import Mathlib
import SeqScript.Proofs.ExactIntegers
import SeqScript.Proofs.Rounding.Order
import SeqScript.Value.Cast

/-!
# Texts that denote integers

`Int(s)` reads a text as an integer and, if that fails, as a floating-point number whose
fraction is cut off. A numeral, an optional sign followed by decimal digits, is an integer
in any case. So the second reading comes into play only where the integer is none of the
machine's, and then the number that is tested is not the integer but what it is rounded to.

* `Numeral` — what a numeral is and which integer it denotes, by the places of its digits.
* `ofDecimal_of_large` — an integer beyond the machine's is rounded to a number at least
  `2 ^ 63`, and to that very number up to `2 ^ 63 + 1024`.
* `truncate?_of_large` — such a number is an integer of the machine only as `-2 ^ 63`.
* `numeral_intText` — the text that an integer is cast to is a numeral for it.

There are two main results. `numerals_cast_exactly`: a numeral is cast to the integer it denotes
or refused, but for the 1024 numerals below the least integer. `scalars_written_and_read`: an
integer or a truth value that is cast to a text can be cast back.
-/

namespace SeqScript

namespace Text

-- ---------------------------------------------------------------------------
-- Numerals
-- ---------------------------------------------------------------------------

/-- One decimal digit or more. -/
structure Digits (ds : List Char) : Prop where
  ne_nil : ds ≠ []
  isDigit : ∀ c ∈ ds, isDigit c = true

instance (ds : List Char) : Decidable (Digits ds) :=
  decidable_of_iff (ds ≠ [] ∧ ds.all isDigit = true)
    ⟨fun h => ⟨h.1, List.all_eq_true.mp h.2⟩, fun h => ⟨h.ne_nil, List.all_eq_true.mpr h.isDigit⟩⟩

/-- The number that digits denote by their places, the last one standing for units. -/
def placeValue (ds : List Char) : Nat :=
  Nat.ofDigits 10 (ds.map fun c => c.toNat - '0'.toNat).reverse

/-- A text that is an optional sign and digits, and the integer it denotes. -/
inductive Numeral : List Char → Int → Prop
  | unsigned {ds : List Char} (h : Digits ds) : Numeral ds (placeValue ds)
  | plus {ds : List Char} (h : Digits ds) : Numeral ('+' :: ds) (placeValue ds)
  | minus {ds : List Char} (h : Digits ds) : Numeral ('-' :: ds) (-placeValue ds)

theorem toNat_of_isDigit {c : Char} (hc : isDigit c = true) : 48 ≤ c.toNat ∧ c.toNat ≤ 57 := by
  rw [isDigit, Bool.and_eq_true, decide_eq_true_iff, decide_eq_true_iff] at hc
  exact hc

theorem digitsValue_eq (ds : List Char) : digitsValue ds = placeValue ds := by
  induction ds using List.reverseRecOn with
  | nil => rfl
  | append_singleton ds c ih =>
    have hstep : digitsValue (ds ++ [c]) = 10 * digitsValue ds + (c.toNat - '0'.toNat) := by
      simp only [digitsValue, List.foldl_append, List.foldl_cons, List.foldl_nil]
    rw [hstep, ih, placeValue, placeValue, List.map_append, List.reverse_append]
    simp only [List.map_cons, List.map_nil, List.reverse_cons, List.reverse_nil, List.nil_append,
      List.singleton_append, Nat.ofDigits_cons]
    omega

/-- A word that begins with a letter is not what a text in front of the letters becomes in
lower case. -/
theorem toLower_ne_word {c d : Char} {rest ds : List Char} (hc : c.toNat < 'A'.toNat)
    (hd : 'A'.toNat ≤ d.toNat) :
    String.ofList ((c :: rest).map Char.toLower) ≠ String.ofList (d :: ds) := by
  have hlower : c.toLower = c := by
    unfold Char.toLower
    rw [dif_neg]
    rintro ⟨hlow, -⟩
    exact absurd (show 65 ≤ c.toNat from hlow) (Nat.not_le_of_lt hc)
  intro heq
  rw [String.ofList_inj, List.map_cons, hlower] at heq
  rw [(List.cons.inj heq).1] at hc
  omega

namespace Digits

variable {ds : List Char}

theorem splitSign (h : Digits ds) : splitSign ds = (false, ds) := by
  cases ds with
  | nil => exact absurd rfl h.ne_nil
  | cons c rest =>
    have hc := h.isDigit c List.mem_cons_self
    unfold Text.splitSign
    split
    · next heq => cases heq; cases hc
    · next heq => cases heq; cases hc
    · rfl

theorem exists_cons (h : Digits ds) : ∃ c rest, ds = c :: rest ∧ c.toNat < 'A'.toNat := by
  cases ds with
  | nil => exact absurd rfl h.ne_nil
  | cons c rest =>
    have hnine := (toNat_of_isDigit (h.isDigit c List.mem_cons_self)).2
    exact ⟨c, rest, rfl, Nat.lt_of_le_of_lt hnine (by decide)⟩

/-- Read as a floating-point number, digits are a decimal without a fraction. -/
theorem readUnsigned? (h : Digits ds) :
    Binary64.readUnsigned? ds = some (Binary64.ofDecimal (digitsValue ds) 0) := by
  obtain ⟨c, rest, rfl, hc⟩ := h.exists_cons
  have htake : (c :: rest).takeWhile Text.isDigit = c :: rest :=
    List.takeWhile_eq_self_iff.mpr h.isDigit
  have hdrop : (c :: rest).dropWhile Text.isDigit = [] := List.dropWhile_eq_nil_iff.mpr h.isDigit
  unfold Binary64.readUnsigned?
  rw [if_neg, if_neg]
  · simp only [Binary64.splitDigits, htake, hdrop, Binary64.splitFraction, Binary64.readExponent?]
    simp
  · exact toLower_ne_word hc (by decide)
  · rintro (heq | heq)
    · exact toLower_ne_word hc (by decide) heq
    · exact toLower_ne_word hc (by decide) heq

end Digits

namespace Numeral

variable {cs : List Char} {n : Int}

/-- A numeral is split into its sign and its digits. -/
theorem splitSign (h : Numeral cs n) :
    ∃ negative ds, splitSign cs = (negative, ds) ∧ Digits ds ∧
      n = if negative then -(digitsValue ds : Int) else digitsValue ds := by
  cases h with
  | unsigned h => exact ⟨false, cs, h.splitSign, h, by rw [digitsValue_eq]; rfl⟩
  | plus h => exact ⟨false, _, rfl, h, by rw [digitsValue_eq]; rfl⟩
  | minus h => exact ⟨true, _, rfl, h, by rw [digitsValue_eq]; rfl⟩

theorem readInt? (h : Numeral cs n) : readInt? cs = some n := by
  obtain ⟨negative, ds, hsplit, hds, rfl⟩ := h.splitSign
  have hall : ds.all isDigit = true := List.all_eq_true.mpr hds.isDigit
  have hempty : ds.isEmpty = false := List.isEmpty_eq_false_iff.mpr hds.ne_nil
  simp only [Text.readInt?, hsplit, hempty, hall]
  rfl

/-- No numeral is the word for a truth value. -/
theorem readBool? (h : Numeral cs n) : readBool? cs = none := by
  obtain ⟨c, rest, rfl, hc⟩ : ∃ c rest, cs = c :: rest ∧ c.toNat < 'A'.toNat := by
    cases h with
    | unsigned h => exact h.exists_cons
    | plus h => exact ⟨'+', _, rfl, by decide⟩
    | minus h => exact ⟨'-', _, rfl, by decide⟩
  unfold Text.readBool?
  rw [if_neg, if_neg]
  · exact toLower_ne_word hc (by decide)
  · exact toLower_ne_word hc (by decide)

end Numeral

end Text

-- ---------------------------------------------------------------------------
-- Integers that are none of the machine's
-- ---------------------------------------------------------------------------

namespace Binary64

open Float.Model (UnpackedFloat)

/-- The pattern of `2 ^ 63`. -/
def boundBits : Nat := 1086 * 2 ^ 52

theorem roundedBits_of_large {d : Nat} (hd : 2 ^ 63 ≤ d) :
    boundBits ≤ roundedBits d ∧ (roundedBits d = boundBits ↔ d ≤ 2 ^ 63 + 1024) := by
  have hbound : roundedBits (2 ^ 63) = boundBits := by decide +kernel
  have hlast : roundedBits (2 ^ 63 + 1024) = boundBits := by decide +kernel
  have hnext : roundedBits (2 ^ 63 + 1025) = boundBits + 1 := by decide +kernel
  have hle := roundedBits_mono hd
  refine ⟨by omega, ?_, ?_⟩
  · intro heq
    by_contra hmore
    have hstep := roundedBits_mono (show 2 ^ 63 + 1025 ≤ d by omega)
    omega
  · intro hless
    have hstep := roundedBits_mono hless
    omega

/-- A decimal that denotes an integer of at least `2 ^ 63` is rounded to a number of at least
that, and to more than that if it is greater by more than 1024. -/
theorem ofDecimal_of_large {d : Nat} (hd : 2 ^ 63 ≤ d) :
    ∃ x k, ofDecimal d 0 = number x ∧ Bits x .positive k ∧ boundBits ≤ k ∧
      (k = boundBits ↔ d ≤ 2 ^ 63 + 1024) := by
  obtain ⟨hle, heq⟩ := roundedBits_of_large hd
  have hbound : boundBits < infinityBits := by decide
  unfold ofDecimal
  rw [if_neg (by omega)]
  dsimp only
  split
  · -- so many digits that the power of ten need not be written out
    next hlong =>
    refine ⟨_, infinityBits, rfl, ⟨rfl, le_rfl⟩, hbound.le, ?_⟩
    have hmore : ¬ d ≤ 2 ^ 63 + 1024 := by
      intro hless
      have hlength : (Nat.toDigits 10 d).length ≤ 20 :=
        (Nat.length_toDigits_le_iff (by decide) (by decide)).mpr (by omega)
      have htext : (Text.natText d).length = (Nat.toDigits 10 d).length := rfl
      omega
    omega
  · rw [if_neg (by omega)]
    refine ⟨_, min (roundedBits d) infinityBits, rfl, ⟨?_, min_le_right ..⟩, by omega, by omega⟩
    rw [show signBits .positive = 0 from rfl, Nat.zero_add]
    exact toBits_ofScientific (by omega)

/-- `m · 2 ^ q` for a significand of full width and an exponent of at least eleven. -/
theorem scaledFloor_of_large (above : Nat) {m : Nat} (hm : 2 ^ 52 ≤ m) :
    2 ^ 63 ≤ scaledFloor m (above + 11) ∧
      (scaledFloor m (above + 11) = 2 ^ 63 ↔ above = 0 ∧ m = 2 ^ 52) := by
  have hfloor : scaledFloor m (above + 11) = m * 2 ^ above * 2 ^ 11 := by
    rw [scaledFloor, if_pos (by omega), show ((above : Int) + 11).toNat = above + 11 by omega]
    show m * 2 ^ (above + 11) = _
    rw [Nat.pow_add, Nat.mul_assoc]
  rw [hfloor]
  cases above with
  | zero => omega
  | succ above =>
    have htwice : m * 2 ≤ m * 2 ^ (above + 1) :=
      Nat.mul_le_mul_left m (Nat.le_self_pow (by omega) 2)
    omega

/-- The parts of a number that is at least `2 ^ 63` in magnitude. -/
theorem parts_of_large {x : Float} {s : UnpackedFloat.Sign} {k : Nat} (h : Bits x s k)
    (hk : boundBits ≤ k) :
    parts (number x) = if k = infinityBits then .infinite (s == .negative) else
      .finite (s == .negative) (hiddenBit + k % 2 ^ 52) ((k / 2 ^ 52 : Nat) - 1075) := by
  unfold boundBits at hk
  rw [h.parts_eq, if_neg (show ¬ k / 2 ^ 52 = 0 by omega)]

/-- The integer left of the point of a number that is at least `2 ^ 63` in magnitude. -/
theorem truncate?_of_large {x : Float} {s : UnpackedFloat.Sign} {k : Nat} (h : Bits x s k)
    (hk : boundBits ≤ k) :
    truncate? (number x) = none ∧ k ≠ boundBits ∨
      ∃ t : Nat, truncate? (number x) = some (signed s t) ∧ 2 ^ 63 ≤ t ∧
        (t = 2 ^ 63 ↔ k = boundBits) := by
  have hparts := parts_of_large h hk
  unfold boundBits at hk ⊢
  unfold truncate?
  by_cases hinfinite : k = infinityBits
  · rw [hparts, if_pos hinfinite]
    unfold infinityBits at hinfinite
    exact Or.inl ⟨rfl, by omega⟩
  · rw [hparts, if_neg hinfinite]
    have hexponent : ((k / 2 ^ 52 : Nat) : Int) - 1075 = (k / 2 ^ 52 - 1086 : Nat) + 11 := by omega
    have hwidth : 2 ^ 52 ≤ hiddenBit + k % 2 ^ 52 := by
      unfold hiddenBit
      omega
    obtain ⟨hlarge, hleast⟩ := scaledFloor_of_large (k / 2 ^ 52 - 1086) hwidth
    rw [← hexponent] at hlarge hleast
    refine Or.inr ⟨_, ?_, hlarge, ?_⟩
    · cases s <;> rfl
    · rw [hleast]
      unfold hiddenBit
      omega

end Binary64

-- ---------------------------------------------------------------------------
-- Casts
-- ---------------------------------------------------------------------------

namespace Word

open Binary64

/-- No number of at least `2 ^ 63` is an integer of the machine with its fraction cut off. -/
theorem truncated?_of_large {x : Float} {k : Nat} (h : Bits x .positive k) (hk : boundBits ≤ k) :
    truncated? (number x) = none := by
  rcases truncate?_of_large h hk with ⟨hnone, -⟩ | ⟨t, hsome, hlarge, -⟩
  · rw [truncated?, hnone]
    rfl
  · rw [truncated?, hsome, Option.bind_some, signed_positive]
    exact ofInt?_of_not_fits (by omega)

/-- Of the numbers of at most `-2 ^ 63` only that one is an integer of the machine. -/
theorem truncated?_neg_of_large {x : Float} {k : Nat} (h : Bits x .negative k)
    (hk : boundBits ≤ k) :
    truncated? (number x) = if k = boundBits then some Int64.minValue else none := by
  rcases truncate?_of_large h hk with ⟨hnone, hne⟩ | ⟨t, hsome, hlarge, hleast⟩
  · rw [truncated?, hnone, if_neg hne]
    rfl
  · rw [truncated?, hsome, Option.bind_some, signed_negative]
    by_cases hbound : k = boundBits
    · rw [if_pos hbound, hleast.mpr hbound]
      rfl
    · have hmore : t ≠ 2 ^ 63 := fun heq => hbound (hleast.mp heq)
      rw [if_neg hbound]
      exact ofInt?_of_not_fits (by omega)

/-- A numeral for an integer that is none of the machine's, read as a floating-point number and
cut off. -/
theorem truncated?_of_numeral {cs : List Char} {n : Int} (h : Text.Numeral cs n)
    (hn : n < -2 ^ 63 ∨ 2 ^ 63 ≤ n) :
    (Binary64.read? (String.ofList cs)).bind truncated? =
      if -2 ^ 63 - 1024 ≤ n ∧ n < 0 then some Int64.minValue else none := by
  obtain ⟨negative, ds, hsplit, hds, hvalue⟩ := h.splitSign
  rw [Binary64.read?, String.toList_ofList, hsplit]
  simp only [hds.readUnsigned?, Option.map_some, Option.bind_some]
  cases negative with
  | false =>
    replace hvalue : n = Text.digitsValue ds := hvalue
    obtain ⟨x, k, hnumber, hbits, hk, -⟩ := ofDecimal_of_large (d := Text.digitsValue ds) (by omega)
    rw [hnumber, if_neg (by decide), if_neg (by omega)]
    exact truncated?_of_large hbits hk
  | true =>
    replace hvalue : n = -(Text.digitsValue ds : Int) := hvalue
    obtain ⟨x, k, hnumber, hbits, hk, hbound⟩ :=
      ofDecimal_of_large (d := Text.digitsValue ds) (by omega)
    have hneg : -number x = number (-x) := if_neg (by rw [hbits.isNaN]; decide)
    rw [hnumber, if_pos rfl, hneg, truncated?_neg_of_large hbits.neg hk]
    exact if_congr (by omega) rfl rfl

/-- What a numeral is read as. -/
theorem ofText?_of_numeral {cs : List Char} {n : Int} (h : Text.Numeral cs n) :
    ofText? cs =
      if -2 ^ 63 - 1024 ≤ n ∧ n < 2 ^ 63 then some (Int64.ofInt (max n (-2 ^ 63))) else none := by
  unfold ofText?
  rw [h.readInt?, Option.bind_some]
  by_cases hfits : -2 ^ 63 ≤ n ∧ n < 2 ^ 63
  · rw [ofInt?_of_fits hfits.1 hfits.2, if_pos (by omega), max_eq_left hfits.1]
  · rw [ofInt?_of_not_fits (by omega)]
    show (Binary64.read? (String.ofList cs)).bind truncated? = _
    rw [truncated?_of_numeral h (by omega)]
    by_cases hnear : -2 ^ 63 - 1024 ≤ n ∧ n < 0
    · rw [if_pos hnear, if_pos (by omega), max_eq_right (by omega)]
      rfl
    · rw [if_neg hnear, if_neg (by omega)]

end Word

namespace Value

/-- A text that is a numeral between blanks is cast to the integer that the numeral is read as. -/
theorem cast_int_of_numeral (h : Heap) {s : String} {n : Int}
    (hs : Text.Numeral (Text.trim s.toList) n) :
    cast h .int (.str s) =
      if -2 ^ 63 - 1024 ≤ n ∧ n < 2 ^ 63 then .ok (.int (Int64.ofInt (max n (-2 ^ 63))))
      else .error (.badCast .string (h.text (.str s)) .int) := by
  have hread : toInt? (.str s) = Word.ofText? (Text.trim s.toList) := by
    simp only [toInt?, hs.readBool?]
  rw [cast, cast?, hread, Word.ofText?_of_numeral hs]
  by_cases hnear : -2 ^ 63 - 1024 ≤ n ∧ n < 2 ^ 63
  · rw [if_pos hnear, if_pos hnear]
    rfl
  · rw [if_neg hnear, if_neg hnear]
    rfl

end Value

-- ---------------------------------------------------------------------------
-- Main result
-- ---------------------------------------------------------------------------

/-- A text that is a numeral between blanks is cast to the very integer it denotes if that is
one of the machine's, and refused with a type error if it is not; but for the 1024 integers
below the least one of the machine, which are cast to that one. -/
theorem numerals_cast_exactly (h : Heap) {s : String} {n : Int}
    (hs : Text.Numeral (Text.trim s.toList) n) :
    (-2 ^ 63 ≤ n → n < 2 ^ 63 →
      ∃ w : Int64, w.toInt = n ∧ Value.cast h .int (.str s) = .ok (.int w)) ∧
    (n < -2 ^ 63 - 1024 ∨ 2 ^ 63 ≤ n →
      ∃ cause, Value.cast h .int (.str s) = .error cause ∧
        cause = .badCast .string (h.text (.str s)) .int ∧ cause.faultClass = .type) ∧
    (-2 ^ 63 - 1024 ≤ n → n < -2 ^ 63 →
      Value.cast h .int (.str s) = .ok (.int Int64.minValue)) := by
  rw [Value.cast_int_of_numeral h hs]
  refine ⟨?_, ?_, ?_⟩
  · intro hlow hhigh
    rw [if_pos (by omega), max_eq_left hlow]
    exact ⟨Int64.ofInt n, Int64.toInt_ofInt_of_le hlow hhigh, rfl⟩
  · intro hfar
    rw [if_neg (by omega)]
    exact ⟨_, rfl, rfl, rfl⟩
  · intro hnear hbelow
    rw [if_pos (by omega), max_eq_right hbelow.le]
    rfl

/-- The least integer of the machine is cast to itself; the one above its greatest is refused. -/
theorem numerals_cast_exactly_bounds :
    Text.Numeral (Text.trim " -09223372036854775808 ".toList) (-2 ^ 63) ∧
      Text.Numeral (Text.trim "+9223372036854775808".toList) (2 ^ 63) ∧
      (∃ w : Int64, w.toInt = -2 ^ 63 ∧
        Value.cast .empty .int (.str " -09223372036854775808 ") = .ok (.int w)) ∧
      ∃ cause, Value.cast .empty .int (.str "+9223372036854775808") = .error cause ∧
        cause = .badCast .string "+9223372036854775808" .int ∧ cause.faultClass = .type := by
  have hleast : Text.Numeral (Text.trim " -09223372036854775808 ".toList) (-2 ^ 63) :=
    .minus (show Text.Digits "09223372036854775808".toList by decide +kernel)
  have habove : Text.Numeral (Text.trim "+9223372036854775808".toList) (2 ^ 63) :=
    .plus (show Text.Digits "9223372036854775808".toList by decide +kernel)
  exact ⟨hleast, habove, (numerals_cast_exactly .empty hleast).1 (by omega) (by omega),
    (numerals_cast_exactly .empty habove).2.1 (by omega)⟩

/-- The integer below the machine's least is cast to that one. -/
theorem numeral_cast_to_another :
    Text.Numeral (Text.trim "-9223372036854775809".toList) (-2 ^ 63 - 1) ∧
      Value.cast .empty .int (.str "-9223372036854775809") = .ok (.int Int64.minValue) ∧
      Int64.minValue.toInt ≠ -2 ^ 63 - 1 := by
  have hbelow : Text.Numeral (Text.trim "-9223372036854775809".toList) (-2 ^ 63 - 1) :=
    .minus (show Text.Digits "9223372036854775809".toList by decide +kernel)
  refine ⟨hbelow, ?_, by decide⟩
  rw [Value.cast_int_of_numeral .empty hbelow, if_pos (by omega)]
  rfl

-- ---------------------------------------------------------------------------
-- Written out and read back
-- ---------------------------------------------------------------------------

namespace Text

theorem isDigit_of_char_isDigit {c : Char} (hc : c.isDigit = true) : isDigit c = true := by
  simpa [isDigit, Char.isDigit, Char.le_def] using hc

theorem digits_natText (n : Nat) : Digits (natText n) where
  ne_nil := Nat.toDigits_ne_nil
  isDigit c hc :=
    isDigit_of_char_isDigit (Nat.isDigit_of_mem_toDigits (by decide) (by decide) hc)

theorem placeValue_natText (n : Nat) : placeValue (natText n) = n := by
  rw [← digitsValue_eq]
  exact Nat.ofDigitChars_ten_toDigits

/-- An integer is written as a numeral that denotes it. -/
theorem numeral_intText (n : Int) : Numeral (intText n).toList n := by
  have hvalue := placeValue_natText n.natAbs
  rw [intText, String.toList_ofList]
  split
  · next hneg =>
    have hnumeral := Numeral.minus (digits_natText n.natAbs)
    rwa [hvalue, show -(n.natAbs : Int) = n by omega] at hnumeral
  · next hnonneg =>
    have hnumeral := Numeral.unsigned (digits_natText n.natAbs)
    rwa [hvalue, show (n.natAbs : Int) = n by omega] at hnumeral

/-- A text without blanks has none at its ends. -/
theorem trim_eq_self {cs : List Char} (h : ∀ c ∈ cs, isBlank c = false) : trim cs = cs := by
  have hdrop : ∀ ds : List Char, (∀ c ∈ ds, isBlank c = false) → ds.dropWhile isBlank = ds := by
    intro ds hds
    cases ds with
    | nil => rfl
    | cons c rest => simp [hds c List.mem_cons_self]
  rw [trim, hdrop cs h, hdrop _ fun c hc => h c (List.mem_reverse.mp hc), List.reverse_reverse]

theorem Digits.isBlank {ds : List Char} (h : Digits ds) : ∀ c ∈ ds, isBlank c = false := by
  intro c hc
  obtain ⟨hlow, hhigh⟩ := toNat_of_isDigit (h.isDigit c hc)
  simp [Text.isBlank]
  omega

/-- There is no blank in a numeral. -/
theorem Numeral.trim {cs : List Char} {n : Int} (h : Numeral cs n) : trim cs = cs := by
  refine trim_eq_self ?_
  cases h with
  | unsigned h => exact h.isBlank
  | plus h => exact List.forall_mem_cons.mpr ⟨rfl, h.isBlank⟩
  | minus h => exact List.forall_mem_cons.mpr ⟨rfl, h.isBlank⟩

end Text

/-- **Integers and truth values survive being written out.** Whatever is on the heap:
* every integer, the least one too, is cast to a text that is a numeral for it, and that text
  back to the integer;
* either truth value is cast to a text, that text back to the truth value, and to the integer
  that the truth value itself is cast to, `1` or `0`. -/
theorem scalars_written_and_read (h : Heap) :
    (∀ n : Int64, ∃ s, Value.cast h .string (.int n) = .ok (.str s) ∧
      Text.Numeral s.toList n.toInt ∧ Value.cast h .int (.str s) = .ok (.int n)) ∧
    ∀ b : Bool, ∃ s, Value.cast h .string (.bool b) = .ok (.str s) ∧
      Value.cast h .bool (.str s) = .ok (.bool b) ∧
      Value.cast h .int (.str s) = Value.cast h .int (.bool b) ∧
      Value.cast h .int (.bool b) = .ok (.int (if b then 1 else 0)) := by
  constructor
  · intro n
    have hnumeral := Text.numeral_intText n.toInt
    have htrimmed : Text.Numeral (Text.trim (Text.intText n.toInt).toList) n.toInt := by
      rwa [hnumeral.trim]
    refine ⟨Text.intText n.toInt, rfl, hnumeral, ?_⟩
    rw [Value.cast_int_of_numeral h htrimmed, if_pos ⟨by have := n.le_toInt; omega, n.toInt_lt⟩,
      max_eq_left n.le_toInt, Int64.ofInt_toInt]
  · intro b
    refine ⟨Text.boolText b, rfl, ?_, ?_, rfl⟩
    · cases b <;> rfl
    · cases b <;> rfl

end SeqScript
