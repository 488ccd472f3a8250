import Mathlib.Data.Set.Basic
import Mathlib.Order.Basic
import SeqScript.Scopes

/-!
# Names, types and bindings under the operations on scopes

What a frame says about a name has two parts: how the name is declared there
(`typeIn?`), and its value. The lemmas here say what making a frame, binding a
name and assigning to a name do to either part.

* `typeIn?_define`, `typeIn?_assign` — only binding a name can change what is
  declared; an assignment to a bound name changes nothing declared anywhere.
* `Every` — a property of all bindings of all frames, and what keeps it.
* `Extends` — one state of the scopes follows another in which only the current
  frame has been given new names, taken from a given set. Then a name that was
  bound is still bound (`Extends.lookup?_eq_none`), and if the new names have no
  types, a declared type found now was found before (`Extends.declared?_eq`).
-/

namespace SeqScript

-- ---------------------------------------------------------------------------
-- One frame
-- ---------------------------------------------------------------------------

namespace Frame

private theorem lookup_cons (name other : String) (b : Binding) (rows : List (String × Binding)) :
    ((name, b) :: rows).lookup other = if other = name then some b else rows.lookup other := by
  rw [List.lookup_cons]
  by_cases h : other = name
  · simp [h]
  · rw [beq_false_of_ne h, if_neg h]

/-- A row that is put replaces the one of its name, and no other. -/
theorem lookup_put (name : String) (b : Binding) (rows : List (String × Binding)) (other : String) :
    (put name b rows).lookup other = if other = name then some b else rows.lookup other := by
  induction rows with
  | nil =>
    rw [put, lookup_cons]
  | cons row rest ih =>
    obtain ⟨key, old⟩ := row
    by_cases hkey : key = name
    · subst hkey
      rw [put, if_pos rfl, lookup_cons, lookup_cons]
      split <;> rfl
    · rw [put, if_neg hkey, lookup_cons, lookup_cons, ih]
      by_cases h : other = key
      · subst h
        simp [hkey]
      · simp [h]

/-- The same of a frame. -/
theorem find?_set (f : Frame) (name : String) (b : Binding) (other : String) :
    (f.set name b).find? other = if other = name then some b else f.find? other :=
  lookup_put name b f.bindings other

/-- A row after setting one binding is that binding or stood there before. -/
theorem mem_put {name : String} {b : Binding} {rows : List (String × Binding)}
    {row : String × Binding} (h : row ∈ put name b rows) : row = (name, b) ∨ row ∈ rows := by
  induction rows with
  | nil => exact Or.inl (by simpa [put] using h)
  | cons first rest ih =>
    rw [put] at h
    split at h
    · rcases List.mem_cons.mp h with rfl | h
      · exact Or.inl rfl
      · exact Or.inr (List.mem_cons_of_mem _ h)
    · rcases List.mem_cons.mp h with rfl | h
      · exact Or.inr (List.mem_cons_self ..)
      · exact (ih h).imp_right (List.mem_cons_of_mem _)

/-- What is found is there. -/
theorem mem_of_lookup {name : String} {b : Binding} {rows : List (String × Binding)}
    (h : rows.lookup name = some b) : (name, b) ∈ rows := by
  induction rows with
  | nil => simp at h
  | cons first rest ih =>
    obtain ⟨key, old⟩ := first
    rw [lookup_cons] at h
    split at h
    · next heq =>
      rw [heq, Option.some.inj h]
      exact List.mem_cons_self ..
    · exact List.mem_cons_of_mem _ (ih h)

end Frame

namespace Scopes

-- ---------------------------------------------------------------------------
-- What is declared
-- ---------------------------------------------------------------------------

/-- How a frame declares a name: nothing if it does not bind it, else the
declared type, which a binding may lack. -/
def typeIn? (s : Scopes) (f : FrameId) (name : String) : Option (Option Ty) :=
  (s.local? f name).map Binding.ty

/-- Only frames that exist bind names. -/
theorem lt_size_of_local? {s : Scopes} {f : FrameId} {name : String} {b : Binding}
    (h : s.local? f name = some b) : f < s.size := by
  unfold local? at h
  by_contra hge
  rw [Array.getElem?_eq_none (by simpa [size] using hge)] at h
  simp at h

/-- A name is declared where it is bound. -/
theorem isSome_typeIn? (s : Scopes) (f : FrameId) (name : String) :
    (s.typeIn? f name).isSome = (s.local? f name).isSome := by
  simp [typeIn?]

-- ---------------------------------------------------------------------------
-- Making a frame
-- ---------------------------------------------------------------------------

@[simp] theorem size_child (s : Scopes) (p : FrameId) : (s.child p).2.size = s.size + 1 := by
  simp [child, push, size]

@[simp] theorem child_fst (s : Scopes) (p : FrameId) : (s.child p).1 = s.size := rfl

/-- Making a frame leaves those that are there. -/
theorem frames_child {s : Scopes} {p f : FrameId} (h : f < s.size) :
    (s.child p).2.frames[f]? = s.frames[f]? := by
  simp only [child, push, Array.getElem?_push]
  exact if_neg (Nat.ne_of_lt h)

/-- So their names are bound as before. -/
theorem local?_child {s : Scopes} {p f : FrameId} (h : f < s.size) (name : String) :
    (s.child p).2.local? f name = s.local? f name := by
  rw [local?, local?, frames_child h]

theorem parent?_child {s : Scopes} {p f : FrameId} (h : f < s.size) :
    (s.child p).2.parent? f = s.parent? f := by
  rw [parent?, parent?, frames_child h]

-- ---------------------------------------------------------------------------
-- Binding a name
-- ---------------------------------------------------------------------------

@[simp] theorem size_define (s : Scopes) (f : FrameId) (name : String) (v : Value)
    (ty : Option Ty) : (s.define f name v ty).size = s.size := by
  simp [define, size]

/-- Binding a name changes one name of one frame. -/
theorem local?_define (s : Scopes) (f g : FrameId) (name other : String) (v : Value)
    (ty : Option Ty) :
    (s.define f name v ty).local? g other =
      if g = f ∧ f < s.size ∧ other = name then some ⟨v, ty⟩ else s.local? g other := by
  simp only [local?, define, Array.getElem?_modify, size]
  by_cases hg : f = g
  · subst hg
    by_cases hf : f < s.frames.size
    · by_cases hn : other = name <;> simp [hf, hn, Frame.find?_set]
    · simp [hf]
  · simp [hg, Ne.symm hg]

/-- It moves no frame. -/
theorem parent?_define (s : Scopes) (f g : FrameId) (name : String) (v : Value)
    (ty : Option Ty) : (s.define f name v ty).parent? g = s.parent? g := by
  simp only [parent?, define, Array.getElem?_modify]
  by_cases hg : f = g
  · subst hg
    cases s.frames[f]? <;> simp [Frame.set]
  · simp [hg]

/-- It declares the name anew, with whatever type it is given. -/
theorem typeIn?_define (s : Scopes) (f g : FrameId) (name other : String) (v : Value)
    (ty : Option Ty) :
    (s.define f name v ty).typeIn? g other =
      if g = f ∧ f < s.size ∧ other = name then some ty else s.typeIn? g other := by
  rw [typeIn?, local?_define]
  split <;> rfl

-- ---------------------------------------------------------------------------
-- The walk outwards
-- ---------------------------------------------------------------------------

/-- The walk ends where the name is bound, -/
theorem owner?_of_local {s : Scopes} {f : FrameId} {name : String}
    (h : (s.local? f name).isSome) : s.owner? f name = some f := by
  rw [owner?, if_pos h]

/-- goes on outwards where it is not, -/
theorem owner?_of_parent {s : Scopes} {f p : FrameId} {name : String} {hp : p < f}
    (h : ¬ (s.local? f name).isSome) (hpar : s.parent? f = some ⟨p, hp⟩) :
    s.owner? f name = s.owner? p name := by
  rw [owner?, if_neg h, hpar]

/-- and finds nothing if there is no further frame. -/
theorem owner?_of_root {s : Scopes} {f : FrameId} {name : String}
    (h : ¬ (s.local? f name).isSome) (hpar : s.parent? f = none) :
    s.owner? f name = none := by
  rw [owner?, if_neg h, hpar]

/-- The owner of a name binds it. -/
theorem local?_of_owner? {s : Scopes} {f o : FrameId} {name : String}
    (h : s.owner? f name = some o) : ∃ b, s.local? o name = some b := by
  induction f using Nat.strong_induction_on with
  | _ f ih =>
    by_cases hl : (s.local? f name).isSome
    · rw [owner?_of_local hl] at h
      obtain rfl := Option.some.inj h
      exact Option.isSome_iff_exists.mp hl
    · cases hp : s.parent? f with
      | none =>
        rw [owner?_of_root hl hp] at h
        simp at h
      | some p =>
        rw [owner?_of_parent hl hp] at h
        exact ih p.1 p.2 h

/-- A name is found exactly if a frame on the way outwards owns it. -/
theorem lookup?_eq_none_iff {s : Scopes} {f : FrameId} {name : String} :
    s.lookup? f name = none ↔ s.owner? f name = none := by
  unfold lookup?
  cases ho : s.owner? f name with
  | none => simp
  | some o =>
    obtain ⟨b, hb⟩ := local?_of_owner? ho
    simp [hb]

-- ---------------------------------------------------------------------------
-- Assigning to a name
-- ---------------------------------------------------------------------------

@[simp] theorem size_assign (s : Scopes) (f : FrameId) (name : String) (v : Value) :
    (s.assign f name v).2.size = s.size := by
  unfold assign
  split <;> exact size_define ..

/-- An assignment moves no frame. -/
theorem parent?_assign (s : Scopes) (f g : FrameId) (name : String) (v : Value) :
    (s.assign f name v).2.parent? g = s.parent? g := by
  unfold assign
  split <;> exact parent?_define ..

/-- An assignment declares at most one name, in the frame it is made from,
without a type, and only if the name was not bound on the way outwards. -/
theorem typeIn?_assign (s : Scopes) (f g : FrameId) (name other : String) (v : Value) :
    (s.assign f name v).2.typeIn? g other = s.typeIn? g other ∨
      s.lookup? f name = none ∧ g = f ∧ other = name ∧
        (s.assign f name v).2.typeIn? g other = some none := by
  unfold assign
  cases ho : s.owner? f name with
  | some o =>
    -- the owner's binding is written again with the type it had
    obtain ⟨b, hb⟩ := local?_of_owner? ho
    left
    show (s.define o name v ((s.local? o name).bind Binding.ty)).typeIn? g other = _
    rw [typeIn?_define]
    split
    · next h =>
      obtain ⟨rfl, -, rfl⟩ := h
      simp [typeIn?, hb]
    · rfl
  | none =>
    show (s.define f name v none).typeIn? g other = _ ∨ _
    rw [typeIn?_define]
    split
    · next h =>
      obtain ⟨rfl, -, rfl⟩ := h
      exact Or.inr ⟨lookup?_eq_none_iff.mpr ho, rfl, rfl, rfl⟩
    · exact Or.inl rfl

-- ---------------------------------------------------------------------------
-- Properties of all bindings
-- ---------------------------------------------------------------------------

/-- Every binding of every frame has a property. -/
def Every (P : Binding → Prop) (s : Scopes) : Prop :=
  ∀ frame ∈ s.frames, ∀ row ∈ frame.bindings, P row.2

variable {P : Binding → Prop} {s : Scopes}

theorem Every.mono {Q : Binding → Prop} (h : s.Every P) (hPQ : ∀ b, P b → Q b) : s.Every Q :=
  fun frame hf row hr => hPQ _ (h frame hf row hr)

/-- A binding that is found has the property. -/
theorem Every.local? (h : s.Every P) {f : FrameId} {name : String} {b : Binding}
    (hb : s.local? f name = some b) : P b := by
  unfold Scopes.local? at hb
  obtain ⟨frame, hf, hfind⟩ := Option.bind_eq_some_iff.mp hb
  exact h frame (Array.mem_of_getElem? hf) (name, b) (Frame.mem_of_lookup hfind)

theorem every_empty : Scopes.empty.Every P := by
  intro frame hf
  simp [Scopes.empty] at hf

theorem Every.push (h : s.Every P) (p : Option FrameId) : (s.push p).2.Every P := by
  intro frame hf row hr
  rcases Array.mem_push.mp hf with hf | rfl
  · exact h frame hf row hr
  · simp at hr

/-- A new binding has to have it. -/
theorem Every.define (h : s.Every P) {v : Value} {ty : Option Ty} (hP : P ⟨v, ty⟩) (f : FrameId)
    (name : String) : (s.define f name v ty).Every P := by
  intro frame hf row hr
  obtain ⟨i, hi⟩ := Array.mem_iff_getElem?.mp hf
  rw [Scopes.define, Array.getElem?_modify] at hi
  split at hi
  · obtain ⟨old, hold, rfl⟩ := Option.map_eq_some_iff.mp hi
    rcases Frame.mem_put hr with rfl | hr
    · exact hP
    · exact h old (Array.mem_of_getElem? hold) row hr
  · exact h frame (Array.mem_of_getElem? hi) row hr

/-- An assignment keeps a property of all bindings if the new value has it with
the type that was declared for the name, or without a type if there is none. -/
theorem Every.assign (h : s.Every P) {f : FrameId} {name : String} {v : Value}
    (hP : P ⟨v, s.declared? f name⟩) : (s.assign f name v).2.Every P := by
  unfold Scopes.declared? Scopes.lookup? at hP
  unfold Scopes.assign
  cases ho : s.owner? f name with
  | some o =>
    rw [ho] at hP
    exact h.define hP o name
  | none =>
    rw [ho] at hP
    exact h.define hP f name

-- ---------------------------------------------------------------------------
-- New names in one frame only
-- ---------------------------------------------------------------------------

/-- Names to be bound, each with the type it is declared with. -/
abbrev Names := Set (String × Option Ty)

/-- Nothing declared has changed from `s` to `s'` but in frame `f`, where some
of the given names have been declared. Frames are never given up and stay where
they stand. -/
structure Extends (names : Names) (f : FrameId) (s s' : Scopes) : Prop where
  size_le : s.size ≤ s'.size
  parent : ∀ g < s.size, s'.parent? g = s.parent? g
  types : ∀ g < s.size, ∀ name, s'.typeIn? g name = s.typeIn? g name ∨
    g = f ∧ ∃ ty, (name, ty) ∈ names ∧ s'.typeIn? g name = some ty

namespace Extends

variable {names : Names} {f : FrameId} {s s₁ s₂ : Scopes}

/-- Nothing new follows itself. -/
theorem refl (names : Names) (f : FrameId) (s : Scopes) : Extends names f s s :=
  ⟨Nat.le_refl _, fun _ _ => rfl, fun _ _ _ => Or.inl rfl⟩

/-- New names of the one frame may come at either step. -/
theorem trans (h₁ : Extends names f s s₁) (h₂ : Extends names f s₁ s₂) :
    Extends names f s s₂ := by
  refine ⟨Nat.le_trans h₁.size_le h₂.size_le, ?_, ?_⟩
  · intro g hg
    rw [h₂.parent g (Nat.lt_of_lt_of_le hg h₁.size_le), h₁.parent g hg]
  · intro g hg name
    rcases h₂.types g (Nat.lt_of_lt_of_le hg h₁.size_le) name with h | h
    · rw [h]
      exact h₁.types g hg name
    · exact Or.inr h

theorem mono {names' : Names} (h : Extends names f s s₁) (hsub : names ⊆ names') :
    Extends names' f s s₁ :=
  ⟨h.size_le, h.parent, fun g hg name =>
    (h.types g hg name).imp_right fun ⟨hgf, ty, hty, ht⟩ => ⟨hgf, ty, hsub hty, ht⟩⟩

/-- A new frame gives the others no names. -/
theorem child (names : Names) (f p : FrameId) (s : Scopes) : Extends names f s (s.child p).2 := by
  refine ⟨by simp, fun g hg => parent?_child hg, ?_⟩
  intro g hg name
  left
  rw [typeIn?, typeIn?, local?_child hg]

/-- A name that is bound has to be in the set. -/
theorem define {name : String} {v : Value} {ty : Option Ty} (h : (name, ty) ∈ names) :
    Extends names f s (s.define f name v ty) := by
  refine ⟨by simp, fun g _ => parent?_define .., ?_⟩
  intro g _ other
  rw [typeIn?_define]
  split
  · next hc =>
    obtain ⟨rfl, -, rfl⟩ := hc
    exact Or.inr ⟨rfl, ty, h, rfl⟩
  · exact Or.inl rfl

/-- An assignment binds a new name only if there was none. -/
theorem assign {name : String} {v : Value} (h : s.lookup? f name = none → (name, none) ∈ names) :
    Extends names f s (s.assign f name v).2 := by
  refine ⟨by simp, fun g _ => parent?_assign .., ?_⟩
  intro g _ other
  rcases typeIn?_assign s f g name other v with hsame | ⟨hnone, rfl, rfl, hty⟩
  · exact Or.inl hsame
  · exact Or.inr ⟨rfl, none, h hnone, hty⟩

/-- What happens in frames made later leaves all earlier ones as they were. -/
theorem of_later {names' : Names} {g : FrameId} (h : Extends names' g s s₁) (hg : s.size ≤ g) :
    Extends names f s s₁ := by
  refine ⟨h.size_le, h.parent, ?_⟩
  intro e he name
  rcases h.types e he name with hsame | ⟨rfl, -⟩
  · exact Or.inl hsame
  · exact absurd he (Nat.not_lt.mpr hg)

/-- A frame that bound a name still binds it. -/
theorem isSome_local? (h : Extends names f s s₁) {g : FrameId} {name : String}
    (hb : (s.local? g name).isSome) : (s₁.local? g name).isSome := by
  obtain ⟨b, hb'⟩ := Option.isSome_iff_exists.mp hb
  rw [← isSome_typeIn?]
  rcases h.types g (lt_size_of_local? hb') name with ht | ⟨-, ty, -, ht⟩
  · rw [ht, isSome_typeIn?, hb]
  · rw [ht]
    rfl

/-- A name that is not bound now was not bound before. -/
theorem lookup?_eq_none (h : Extends names f s s₁) {g : FrameId} {name : String}
    (hnone : s₁.lookup? g name = none) : s.lookup? g name = none := by
  rw [lookup?_eq_none_iff] at hnone ⊢
  induction g using Nat.strong_induction_on with
  | _ g ih =>
    have hlocal : ¬ (s.local? g name).isSome := by
      intro hb
      rw [owner?_of_local (h.isSome_local? hb)] at hnone
      simp at hnone
    cases hp : s.parent? g with
    | none => exact owner?_of_root hlocal hp
    | some p =>
      rw [owner?_of_parent hlocal hp]
      refine ih p.1 p.2 ?_
      -- the frame has a parent, so it was there and stands where it stood
      have hg : g < s.size := by
        by_contra hge
        rw [parent?, Array.getElem?_eq_none (Nat.not_lt.mp hge)] at hp
        simp at hp
      by_cases hl : (s₁.local? g name).isSome
      · rw [owner?_of_local hl] at hnone
        simp at hnone
      · rwa [owner?_of_parent hl (by rw [h.parent g hg, hp])] at hnone

/-- If the names declared meanwhile have no types, a declared type that is found
now was found before. The walk goes outwards side by side in both states: up to
the frame that owns the name now, they bind it alike or not at all. -/
theorem declared?_eq (h : Extends names f s s₁) (hnames : ∀ p ∈ names, p.2 = none) {g : FrameId}
    (hg : g < s.size) {name : String} {ty : Ty} (hty : s₁.declared? g name = some ty) :
    s.declared? g name = some ty := by
  unfold declared? lookup? at hty ⊢
  induction g using Nat.strong_induction_on with
  | _ g ih =>
    have htypes := h.types g hg name
    by_cases hl : (s₁.local? g name).isSome
    · -- bound here: the binding has a type, so it is not one of the new ones
      obtain ⟨b, hb⟩ := Option.isSome_iff_exists.mp hl
      rw [owner?_of_local hl] at hty
      have hbty : b.ty = some ty := by simpa [hb] using hty
      have hold : s.typeIn? g name = some (some ty) := by
        rcases htypes with hsame | ⟨-, t, ht, hsome⟩
        · rw [← hsame, typeIn?, hb, Option.map_some, hbty]
        · rw [typeIn?, hb, Option.map_some, hbty, Option.some_inj] at hsome
          exact absurd (hnames _ ht) (by simp [← hsome])
      obtain ⟨b', hb', hty'⟩ := Option.map_eq_some_iff.mp hold
      rw [owner?_of_local (by simp [hb'])]
      simp [hb', hty']
    · -- not bound here, now or before
      have hl' : ¬ (s.local? g name).isSome := fun hb => hl (h.isSome_local? hb)
      cases hp : s.parent? g with
      | none =>
        rw [owner?_of_root hl (by rw [h.parent g hg, hp])] at hty
        simp at hty
      | some p =>
        rw [owner?_of_parent hl (by rw [h.parent g hg, hp])] at hty
        rw [owner?_of_parent hl' hp]
        exact ih p.1 p.2 (Nat.lt_trans p.2 hg) hty

end Extends

end Scopes

end SeqScript
