import Mathlib.Data.List.Forall2
import SeqScript.Proofs.Acyclic

/-!
# What fits a declared type, and what becomes of it

Making a value fit a declared type follows the type. What the type says about the
value is defined here once more, without the function that does it:

* `Ty.Fits` — the value may be stored under the type;
* `Ty.Widens` — somewhere in it, below arrays only, an integer stands under `float`;
* `Ty.Widened` — a value is what becomes of another. Integers under `float` have
  become floating-point numbers, arrays have the same number of elements in the same
  order, and an array in which there was nothing to widen is still the same store.

Copies are made while other values wait to be looked at, so a value is looked at in
a heap that may have grown since. The statements therefore speak of the heap `h₀` in
which the value was given and a later one `h` in which it is looked at (`Fitted`,
`FittedAll`). The main result is `assignable_fits_and_widens`.
-/

namespace SeqScript

-- ---------------------------------------------------------------------------
-- What a type says about a value
-- ---------------------------------------------------------------------------

namespace Ty

/-- A value may be stored under a type. Of the elements of a list nothing is asked;
a matrix stands in for an array of arrays of numbers. -/
def Fits (h : Heap) : Ty → Value → Prop
  | .int, .int _ | .float, .float _ | .float, .int _ | .bool, .bool _ | .string, .str _ => True
  | .func, .func _ | .func, .builtin _ | .func, .unit => True
  | .list _, .seq .list _ => True
  | .array t, .seq .array id => ∀ v ∈ (h.read id).toList, t.Fits h v
  | .array t, .matrix _ => t = .array .float
  | _, _ => False

/-- An integer stands under `float`, at any depth of arrays. -/
def Widens (h : Heap) : Ty → Value → Prop
  | .float, .int _ => True
  | .array t, .seq .array id => ∃ v ∈ (h.read id).toList, t.Widens h v
  | _, _ => False

/-- `w`, in the heap `h'`, is what becomes of `v` under a type. -/
def Widened (h h' : Heap) : Ty → Value → Value → Prop
  | .float, .int n, w => w = .float (Binary64.ofWord n)
  | .array t, .seq .array id, w =>
    ∃ id', w = .seq .array id' ∧ (id' = id ↔ ¬ ∃ v ∈ (h.read id).toList, t.Widens h v) ∧
      List.Forall₂ (t.Widened h h') (h.read id).toList (h'.read id').toList
  | _, v, w => w = v

end Ty

-- ---------------------------------------------------------------------------
-- Rows side by side
-- ---------------------------------------------------------------------------

section

variable {α β : Type} {R S : α → β → Prop} {l : List α} {u : List β}

theorem forall₂_imp_mem (h : List.Forall₂ R l u)
    (himp : ∀ a ∈ l, ∀ b ∈ u, R a b → S a b) : List.Forall₂ S l u := by
  rw [List.forall₂_iff_zip] at h ⊢
  refine ⟨h.1, ?_⟩
  intro a b hab
  obtain ⟨ha, hb⟩ := List.of_mem_zip hab
  exact himp a ha b hb (h.2 hab)

theorem forall₂_mem_right (h : List.Forall₂ R l u) {b : β} (hb : b ∈ u) :
    ∃ a ∈ l, R a b := by
  induction h with
  | nil => simp at hb
  | @cons a c l u hac _ ih =>
    rcases List.mem_cons.mp hb with rfl | hb
    · exact ⟨a, List.mem_cons_self .., hac⟩
    · obtain ⟨x, hx, hR⟩ := ih hb
      exact ⟨x, List.mem_cons_of_mem _ hx, hR⟩

end

-- ---------------------------------------------------------------------------
-- What has become of a value
-- ---------------------------------------------------------------------------

namespace Ty

/-- A value in which a type has nothing to look for: it becomes nothing else, and
whether it fits does not depend on any store. -/
structure Inert (t : Ty) (v : Value) : Prop where
  widens : ∀ h, ¬ t.Widens h v
  widened : ∀ h h' w, t.Widened h h' v w ↔ w = v
  fits : ∀ h h', t.Fits h v → t.Fits h' v

/-- The two pairs of a type and a value that are not inert. -/
theorem int_or_array_or_inert (t : Ty) (v : Value) :
    (∃ n, t = .float ∧ v = .int n) ∨ (∃ u id, t = .array u ∧ v = .seq .array id) ∨ t.Inert v := by
  by_cases hint : ∃ n, t = .float ∧ v = .int n
  · exact Or.inl hint
  by_cases harray : ∃ u id, t = .array u ∧ v = .seq .array id
  · exact Or.inr (Or.inl harray)
  -- of the clauses of the three definitions only those that ask nothing of a store are left
  refine Or.inr (Or.inr ⟨?_, ?_, ?_⟩)
  · intro h
    unfold Widens
    split
    · exact absurd ⟨_, rfl, rfl⟩ hint
    · exact absurd ⟨_, _, rfl, rfl⟩ harray
    · exact id
  · intro h h' w
    unfold Widened
    split
    · exact absurd ⟨_, rfl, rfl⟩ hint
    · exact absurd ⟨_, _, rfl, rfl⟩ harray
    · exact .rfl
  · intro h h' hfits
    unfold Fits at hfits ⊢
    split at hfits
    case h_10 => exact absurd ⟨_, _, rfl, rfl⟩ harray
    case h_12 => exact hfits.elim
    all_goals exact hfits

variable {h h' h'' : Heap} {t : Ty} {v w : Value}

theorem inert_of_ne (hfloat : t ≠ .float) (harray : ∀ u, t ≠ .array u) : t.Inert v := by
  rcases int_or_array_or_inert t v with ⟨n, hty, -⟩ | ⟨u, id, hty, -⟩ | hinert
  · exact absurd hty hfloat
  · exact absurd hty (harray u)
  · exact hinert

/-- What has become of a value stays so while stores are added. -/
theorem Widened.later (hs : h'.Sound) (hgrows : h'.Grows h'') (hw : h'.Known w)
    (hwidened : t.Widened h h' v w) : t.Widened h h'' v w := by
  induction t generalizing v w with
  | array t ih =>
    rcases int_or_array_or_inert (.array t) v with ⟨_, hty, -⟩ | ⟨u, id, hty, rfl⟩ | hinert
    · cases hty
    · obtain rfl := Ty.array.inj hty
      obtain ⟨id', rfl, hsame, hall⟩ := hwidened
      refine ⟨id', rfl, hsame, ?_⟩
      rw [hgrows.read id' (hw id' rfl)]
      refine forall₂_imp_mem hall ?_
      intro a _ b hb hab
      exact ih (hs.known id' b (Array.mem_toList_iff.mp hb)) hab
    · rw [hinert.widened] at hwidened ⊢
      exact hwidened
  | _ => cases v <;> exact hwidened

/-- It also stays so when a store that does not occur in it is given other elements. -/
theorem Widened.modify {id : SeqId} {f : Array Value → Array Value} (hw : ¬ h'.Occurs id w)
    (hwidened : t.Widened h h' v w) : t.Widened h (h'.modify id f) v w := by
  induction t generalizing v w with
  | array t ih =>
    rcases int_or_array_or_inert (.array t) v with ⟨_, hty, -⟩ | ⟨u, a, hty, rfl⟩ | hinert
    · cases hty
    · obtain rfl := Ty.array.inj hty
      obtain ⟨a', rfl, hsame, hall⟩ := hwidened
      rw [Heap.occurs_seq_iff, not_or] at hw
      obtain ⟨hne, helems⟩ := hw
      refine ⟨a', rfl, hsame, ?_⟩
      rw [Heap.read_modify, if_neg fun hc => hne hc.1.symm]
      refine forall₂_imp_mem hall ?_
      intro x _ y hy hxy
      exact ih (fun hocc => helems ⟨y, Array.mem_toList_iff.mp hy, hocc⟩) hxy
    · rw [hinert.widened] at hwidened ⊢
      exact hwidened
  | _ => cases v <;> exact hwidened

/-- It is the value itself exactly if there was nothing to widen in it. -/
theorem Widened.eq_iff (hwidened : t.Widened h h' v w) : w = v ↔ ¬ t.Widens h v := by
  rcases int_or_array_or_inert t v with ⟨n, rfl, rfl⟩ | ⟨u, id, rfl, rfl⟩ | hinert
  · have hfloat : w = .float (Binary64.ofWord n) := hwidened
    simp [hfloat, Widens]
  · obtain ⟨id', rfl, hsame, -⟩ := hwidened
    rw [Value.seq.injEq, eq_self, true_and]
    exact hsame
  · exact ⟨fun _ => hinert.widens h, fun _ => (hinert.widened h h' w).mp hwidened⟩

theorem Inert.fits_of_widened (hinert : t.Inert v) (hfits : t.Fits h v)
    (hwidened : t.Widened h h' v w) : t.Fits h' w ∧ ¬ t.Widens h' w := by
  obtain rfl : w = v := (hinert.widened h h' w).mp hwidened
  exact ⟨hinert.fits h h' hfits, hinert.widens h'⟩

/-- It fits the type, and there is nothing left to widen in it. -/
theorem Widened.fits (hfits : t.Fits h v) (hwidened : t.Widened h h' v w) :
    t.Fits h' w ∧ ¬ t.Widens h' w := by
  induction t generalizing v w with
  | float =>
    rcases int_or_array_or_inert .float v with ⟨n, -, rfl⟩ | ⟨_, _, hty, -⟩ | hinert
    · have hfloat : w = .float (Binary64.ofWord n) := hwidened
      rw [hfloat]
      exact ⟨trivial, id⟩
    · cases hty
    · exact hinert.fits_of_widened hfits hwidened
  | array t ih =>
    rcases int_or_array_or_inert (.array t) v with ⟨_, hty, -⟩ | ⟨u, id, hty, rfl⟩ | hinert
    · cases hty
    · obtain rfl := Ty.array.inj hty
      obtain ⟨id', rfl, -, hall⟩ := hwidened
      have helems : ∀ y ∈ (h'.read id').toList, t.Fits h' y ∧ ¬ t.Widens h' y := by
        intro y hy
        obtain ⟨x, hx, hxy⟩ := forall₂_mem_right hall hy
        exact ih (hfits x hx) hxy
      refine ⟨fun y hy => (helems y hy).1, ?_⟩
      rintro ⟨y, hy, hwidens⟩
      exact (helems y hy).2 hwidens
    · exact hinert.fits_of_widened hfits hwidened
  | _ => exact Inert.fits_of_widened (inert_of_ne (by simp) (by simp)) hfits hwidened

end Ty

-- ---------------------------------------------------------------------------
-- What is made to fit
-- ---------------------------------------------------------------------------

/-- What there is to say of a value that was given in `h₀` and has been made to fit a
type in `h`. -/
structure Fitted (h₀ h : Heap) (ty : Ty) (v : Value) (c : Conformed Value) : Prop where
  fits : ty.Fits h₀ v
  widened : ty.Widened h₀ c.heap v c.value
  changed_iff : c.changed = true ↔ ty.Widens h₀ v
  kept : c.changed = false → c.value = v ∧ c.heap = h

/-- The same of a row of values, looked at one after another. -/
structure FittedAll (h₀ h : Heap) (ty : Ty) (vs : List Value) (c : Conformed (List Value)) :
    Prop where
  fits : ∀ v ∈ vs, ty.Fits h₀ v
  widened : List.Forall₂ (ty.Widened h₀ c.heap) vs c.value
  changed_iff : c.changed = true ↔ ∃ v ∈ vs, ty.Widens h₀ v
  kept : c.changed = false → c.value = vs ∧ c.heap = h

variable {h₀ h : Heap} {ty : Ty} {v : Value} {c : Conformed Value}

/-- All that is not an array under an array type is looked at by itself. -/
theorem conform_fitted_of_ne (hne : ∀ t id, ty = .array t → v ≠ .seq .array id)
    (hc : conform ty v h = some c) : Fitted h₀ h ty v c := by
  unfold conform at hc
  split at hc
  case h_10 => exact absurd rfl (hne _ _ rfl)
  case h_11 =>
    obtain rfl := Option.some.inj hc
    exact ⟨rfl, rfl, by simp [Ty.Widens], by simp⟩
  case h_12 => simp at hc
  all_goals
    obtain rfl := Option.some.inj hc
    exact ⟨trivial, rfl, by simp [Ty.Widens], by simp⟩

theorem conformAll_fitted {t : Ty}
    (hconform : ∀ v h c, h₀.Grows h → h.Sound → h₀.Known v → conform t v h = some c →
      Fitted h₀ h t v c)
    {vs : List Value} {c : Conformed (List Value)} (hgrows : h₀.Grows h) (hs : h.Sound)
    (hvs : ∀ v ∈ vs, h₀.Known v) (hc : conformAll (conform t) vs h = some c) :
    FittedAll h₀ h t vs c := by
  induction vs generalizing h c with
  | nil =>
    obtain rfl := Option.some.inj hc
    exact ⟨by simp, .nil, by simp, by simp⟩
  | cons v vs ih =>
    rw [conformAll] at hc
    split at hc
    · simp at hc
    next first hfirst =>
    split at hc
    · simp at hc
    next rest hrest =>
    obtain rfl := Option.some.inj hc
    obtain ⟨hv, hvs⟩ := List.forall_mem_cons.mp hvs
    have hhere : Fitted h₀ h t v first := hconform v h first hgrows hs hv hfirst
    have hstands := conform_standsIn hs (hv.mono hgrows.size_le) hfirst
    have hthere : FittedAll h₀ first.heap t vs rest :=
      ih (hgrows.trans (conform_grows hfirst)) hstands.sound hvs hrest
    have hlater : first.heap.Grows rest.heap := conformAll_grows (fun _ _ _ => conform_grows) hrest
    refine ⟨?_, ?_, ?_, ?_⟩
    · exact List.forall_mem_cons.mpr ⟨hhere.fits, hthere.fits⟩
    · exact .cons (hhere.widened.later hstands.sound hlater hstands.known) hthere.widened
    · rw [Bool.or_eq_true, hhere.changed_iff, hthere.changed_iff, List.exists_mem_cons_iff]
    · intro hsame
      obtain ⟨hfirst', hrest'⟩ := Bool.or_eq_false_iff.mp hsame
      obtain ⟨hvalue, hheap⟩ := hhere.kept hfirst'
      obtain ⟨hvalues, hheap'⟩ := hthere.kept hrest'
      exact ⟨by rw [hvalue, hvalues], by rw [hheap', hheap]⟩

private theorem fitted_arrayOf {t : Ty} {id : SeqId} {items : Conformed (List Value)}
    (hid : id < h₀.size) (hread : h.read id = h₀.read id) (hgrows : h₀.Grows items.heap)
    (hs : items.heap.Sound) (hknown : ∀ w ∈ items.value, items.heap.Known w)
    (hitems : FittedAll h₀ h t (h₀.read id).toList items) :
    Fitted h₀ h (.array t) (.seq .array id) (arrayOf id items) := by
  unfold arrayOf
  cases hchanged : items.changed with
  | false =>
    -- no element has changed, so the array is the one that was given
    obtain ⟨hvalue, hheap⟩ := hitems.kept hchanged
    have hnone : ¬ ∃ v ∈ (h₀.read id).toList, t.Widens h₀ v := by
      rw [← hitems.changed_iff, hchanged]
      simp
    have hrows := hitems.widened
    rw [hvalue, hheap] at hrows
    refine ⟨hitems.fits, ⟨id, rfl, by simpa using hnone, ?_⟩, ?_, fun _ => ⟨rfl, hheap⟩⟩
    · show List.Forall₂ (t.Widened h₀ items.heap) _ (items.heap.read id).toList
      rw [hheap, hread]
      exact hrows
    · simpa [Ty.Widens] using hnone
  | true =>
    have hsome : ∃ v ∈ (h₀.read id).toList, t.Widens h₀ v := hitems.changed_iff.mp hchanged
    have hnew : items.heap.size ≠ id := Nat.ne_of_gt (Nat.lt_of_lt_of_le hid hgrows.size_le)
    refine ⟨hitems.fits, ⟨items.heap.size, rfl, by simpa [hnew] using hsome, ?_⟩, ?_, by simp⟩
    · show List.Forall₂ (t.Widened h₀ (items.heap.newSeq .array items.value).2) _
        ((items.heap.newSeq .array items.value).2.read items.heap.size).toList
      rw [Heap.read_newSeq, if_pos rfl]
      refine forall₂_imp_mem hitems.widened ?_
      intro v _ w hw hvw
      exact hvw.later hs (.newSeq items.heap .array items.value) (hknown w hw)
    · simpa [Ty.Widens] using hsome

/-- **What is made to fit fits, and has become what it should.** -/
theorem conform_fitted (hs₀ : h₀.Sound) (hgrows : h₀.Grows h) (hs : h.Sound) (hv : h₀.Known v)
    (hc : conform ty v h = some c) : Fitted h₀ h ty v c := by
  induction ty generalizing v h c with
  | array t ih =>
    by_cases harray : ∃ id, v = .seq .array id
    · obtain ⟨id, rfl⟩ := harray
      have hread : h.read id = h₀.read id := hgrows.read id (hv id rfl)
      rw [conform_array, hread] at hc
      obtain ⟨items, hitems, rfl⟩ := Option.map_eq_some_iff.mp hc
      have helems : ∀ x ∈ (h₀.read id).toList, h₀.Known x :=
        fun x hx => hs₀.known id x (Array.mem_toList_iff.mp hx)
      have hfitted : FittedAll h₀ h t (h₀.read id).toList items :=
        conformAll_fitted (fun v h c hgrows hs hv => ih hgrows hs hv) hgrows hs helems hitems
      obtain ⟨hsound, hstands⟩ := conformAll_standsIn (fun _ _ _ => conform_grows)
        (fun _ _ _ hs hv => conform_standsIn hs hv) hs
        (fun x hx => (helems x hx).mono hgrows.size_le) hitems
      have hlater : h₀.Grows items.heap :=
        hgrows.trans (conformAll_grows (fun _ _ _ => conform_grows) hitems)
      refine fitted_arrayOf (hv id rfl) hread hlater hsound ?_ hfitted
      intro w hw
      obtain ⟨x, -, hst⟩ := hstands w hw
      exact hst.known
    · refine conform_fitted_of_ne ?_ hc
      rintro u id - rfl
      exact harray ⟨id, rfl⟩
  | _ => exact conform_fitted_of_ne (by simp) hc

theorem conformAll_of_fits {t : Ty}
    (hconform : ∀ v h, h₀.Grows h → h₀.Known v → t.Fits h₀ v → ∃ c, conform t v h = some c)
    {vs : List Value} (hgrows : h₀.Grows h) (hvs : ∀ v ∈ vs, h₀.Known v)
    (hfits : ∀ v ∈ vs, t.Fits h₀ v) : ∃ c, conformAll (conform t) vs h = some c := by
  induction vs generalizing h with
  | nil => exact ⟨_, rfl⟩
  | cons v vs ih =>
    obtain ⟨hv, hvs⟩ := List.forall_mem_cons.mp hvs
    obtain ⟨hfit, hfits⟩ := List.forall_mem_cons.mp hfits
    obtain ⟨first, hfirst⟩ := hconform v h hgrows hv hfit
    obtain ⟨rest, hrest⟩ := ih (hgrows.trans (conform_grows hfirst)) hvs hfits
    refine ⟨⟨first.value :: rest.value, first.changed || rest.changed, rest.heap⟩, ?_⟩
    simp only [conformAll, hfirst, hrest]

theorem conform_of_fits_of_ne (hne : ∀ t id, ty = .array t → v ≠ .seq .array id)
    (hfits : ty.Fits h₀ v) : ∃ c, conform ty v h = some c := by
  unfold Ty.Fits at hfits
  split at hfits
  case h_10 => exact absurd rfl (hne _ _ rfl)
  case h_11 =>
    subst hfits
    exact ⟨_, rfl⟩
  case h_12 => exact hfits.elim
  all_goals exact ⟨_, rfl⟩

/-- What fits is made to fit. -/
theorem conform_of_fits (hs₀ : h₀.Sound) (hgrows : h₀.Grows h) (hv : h₀.Known v)
    (hfits : ty.Fits h₀ v) : ∃ c, conform ty v h = some c := by
  induction ty generalizing v h with
  | array t ih =>
    by_cases harray : ∃ id, v = .seq .array id
    · obtain ⟨id, rfl⟩ := harray
      have helems : ∀ x ∈ (h₀.read id).toList, h₀.Known x :=
        fun x hx => hs₀.known id x (Array.mem_toList_iff.mp hx)
      obtain ⟨items, hitems⟩ := conformAll_of_fits (fun v h hgrows hv => ih hgrows hv) hgrows
        helems hfits
      rw [conform_array, hgrows.read id (hv id rfl), hitems]
      exact ⟨_, rfl⟩
    · refine conform_of_fits_of_ne ?_ hfits
      rintro u id - rfl
      exact harray ⟨id, rfl⟩
  | _ => exact conform_of_fits_of_ne (by simp) hfits

-- ---------------------------------------------------------------------------
-- Main result
-- ---------------------------------------------------------------------------

theorem assignable_of_conform (hc : conform ty v h = some c) :
    assignable h ty v = .ok (c.value, c.heap) := by
  simp only [assignable, hc]

/-- **A value may be stored exactly if it fits the type, with its integers widened.**
Take a heap in which no sequence is nested in itself, and a value in it.
* The value is accepted exactly if it fits the declared type, and what does not fit is
  refused with a type error.
* What is stored is the value with every integer under `float` replaced by its
  floating-point number; all else is kept, the order and number of elements included.
* It is the value itself, with the same store, exactly if there is no such integer at
  any depth of arrays. No sequence that was there is changed.
* What is stored is accepted under the type again, as it is. -/
theorem assignable_fits_and_widens {h : Heap} (hs : h.Sound) (ty : Ty) {v : Value}
    (hv : h.Known v) :
    ((∃ w h', assignable h ty v = .ok (w, h')) ↔ ty.Fits h v) ∧
    (¬ ty.Fits h v → ∃ cause, assignable h ty v = .error cause ∧ cause.faultClass = .type) ∧
    (∀ w h', assignable h ty v = .ok (w, h') →
      ty.Widened h h' v w ∧ (w = v ↔ ¬ ty.Widens h v) ∧ h.Grows h' ∧
        assignable h' ty w = .ok (w, h')) := by
  have hrefl : h.Grows h := .refl h
  have hiff : (∃ w h', assignable h ty v = .ok (w, h')) ↔ ty.Fits h v := by
    constructor
    · rintro ⟨w, h', hok⟩
      obtain ⟨c, hc, -⟩ := conform_of_assignable hok
      exact (conform_fitted hs hrefl hs hv hc).fits
    · intro hfits
      obtain ⟨c, hc⟩ := conform_of_fits hs hrefl hv hfits
      exact ⟨c.value, c.heap, assignable_of_conform hc⟩
  refine ⟨hiff, ?_, ?_⟩
  · intro hmisfit
    cases hc : conform ty v h with
    | some c => exact absurd (hiff.mp ⟨c.value, c.heap, assignable_of_conform hc⟩) hmisfit
    | none => exact ⟨.mismatch ty v.kind (h.text v), by simp only [assignable, hc], rfl⟩
  · rintro w h' hok
    obtain ⟨c, hc, rfl, rfl⟩ := conform_of_assignable hok
    have hfitted : Fitted h h ty v c := conform_fitted hs hrefl hs hv hc
    have hstands : h.StandsIn v c.heap c.value := conform_standsIn hs hv hc
    obtain ⟨hfits, hdone⟩ := hfitted.widened.fits hfitted.fits
    refine ⟨hfitted.widened, hfitted.widened.eq_iff, conform_grows hc, ?_⟩
    -- looked at again, it fits and nothing in it is changed
    obtain ⟨again, hagain⟩ := conform_of_fits hstands.sound (.refl c.heap) hstands.known hfits
    have hfitted' : Fitted c.heap c.heap ty c.value again :=
      conform_fitted hstands.sound (.refl c.heap) hstands.sound hstands.known hagain
    have hsame : again.changed = false := by
      rw [Bool.eq_false_iff, ne_eq, hfitted'.changed_iff]
      exact hdone
    obtain ⟨hvalue, hheap⟩ := hfitted'.kept hsame
    rw [assignable_of_conform hagain, hvalue, hheap]

/-- `[[1.0], [2]]` under `array<array<float>>` is copied, because of the `2`; the
store of `[1.0]` is kept. -/
theorem assignable_fits_and_widens_nested :
    let inner := (Heap.empty.newSeq .array [.float 1.0]).2
    let h := ((inner.newSeq .array [.int 2]).2.newSeq .array [.seq .array 0, .seq .array 1]).2
    let copy := (h.newSeq .array [.float (Binary64.ofWord 2)]).2
    let h' := (copy.newSeq .array [.seq .array 0, .seq .array 3]).2
    let ty := Ty.array (.array .float)
    h.Sound ∧ h.Known (.seq .array 2) ∧ ty.Fits h (.seq .array 2) ∧
      assignable h ty (.seq .array 2) = .ok (.seq .array 4, h') ∧
      ty.Widened h h' (.seq .array 2) (.seq .array 4) ∧ ty.Widens h (.seq .array 2) ∧
      h.Grows h' ∧ assignable h' ty (.seq .array 4) = .ok (.seq .array 4, h') := by
  intro inner h copy h' ty
  have hinner : inner.Sound := Heap.sound_empty.newSeq (by simp [Heap.Known, Value.store?])
  have hs : h.Sound :=
    (hinner.newSeq (by simp [Heap.Known, Value.store?])).newSeq
      (by simp [Heap.Known, Value.store?, inner, Heap.size, Heap.newSeq, Heap.alloc, Heap.empty])
  have hv : h.Known (.seq .array 2) := by
    rintro _ ⟨⟩
    decide
  have hok : assignable h ty (.seq .array 2) = .ok (.seq .array 4, h') := rfl
  obtain ⟨hiff, -, hstored⟩ := assignable_fits_and_widens hs ty hv
  obtain ⟨hwidened, heq, hgrows, hagain⟩ := hstored _ _ hok
  have hwidens : ty.Widens h (.seq .array 2) := by
    by_contra hnone
    exact absurd (heq.mpr hnone) (by simp)
  exact ⟨hs, hv, hiff.mp ⟨_, _, hok⟩, hok, hwidened, hwidens, hgrows, hagain⟩

end SeqScript
