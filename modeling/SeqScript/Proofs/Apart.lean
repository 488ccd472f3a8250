import SeqScript.Proofs.Acyclic

/-!
# Stores that nothing refers to

A value that has just been computed and not yet stored may be made of stores that
nothing else refers to. Whatever runs before it is stored finds no way to them: it can
read and write only the stores of values that it has at hand, and those lead to no others.
So these stores are still as they were when the value is stored at last.

`Heap.Apart` says that some stores are as they were and that no other store refers to
them. It is kept by all writes, as long as what is written, and where, is apart from them
too. That makes it a discipline, `Discipline.apart`, and `standing_apart` says where it
begins to hold: when stores have been added in a machine that any session may come to.
-/

namespace SeqScript

/-- A value whose store is none of the given ones. -/
def Value.Apart (own : SeqId → Prop) (v : Value) : Prop := ∀ id, v.store? = some id → ¬ own id

theorem Value.apart_of_plain {own : SeqId → Prop} {v : Value} (hv : v.store? = none) :
    v.Apart own := by
  intro id hid
  rw [hv] at hid
  cases hid

namespace Heap

/-- The given stores are as they were in `h₀`, and no other store refers to them. -/
structure Apart (own : SeqId → Prop) (h h₀ : Heap) : Prop where
  size_le : h₀.size ≤ h.size
  kept : ∀ id, own id → h.read id = h₀.read id
  outside : ∀ id, ¬ own id → ∀ v ∈ h.read id, v.Apart own

namespace Apart

variable {own : SeqId → Prop} {h₀ h : Heap}

/-- A new store is none of the given ones. -/
theorem not_own_size (hown : ∀ id, own id → id < h₀.size) (ha : h.Apart own h₀) : ¬ own h.size :=
  fun hsize => Nat.not_le.mpr (hown _ hsize) ha.size_le

theorem newSeq (hown : ∀ id, own id → id < h₀.size) (ha : h.Apart own h₀) (kind : SeqKind)
    {items : List Value} (hitems : ∀ v ∈ items, v.Apart own) :
    (h.newSeq kind items).2.Apart own h₀ := by
  refine ⟨Nat.le_trans ha.size_le (Grows.newSeq h kind items).size_le, ?_, ?_⟩
  · intro id hid
    have hne : id ≠ h.size := by
      rintro rfl
      exact ha.not_own_size hown hid
    rw [read_newSeq, if_neg hne]
    exact ha.kept id hid
  · intro id hid v hv
    rw [read_newSeq] at hv
    split at hv
    · exact hitems v (List.mem_toArray.mp hv)
    · exact ha.outside id hid v hv

/-- A write into another store. -/
theorem modify (ha : h.Apart own h₀) {id : SeqId} (hid : ¬ own id) {f : Array Value → Array Value}
    (hf : ∀ v ∈ f (h.read id), v.Apart own) : (h.modify id f).Apart own h₀ := by
  refine ⟨by simpa using ha.size_le, ?_, ?_⟩
  · intro other hother
    rw [read_modify, if_neg]
    · exact ha.kept other hother
    · rintro ⟨rfl, -⟩
      exact hid hother
  · intro other hother v hv
    rw [read_modify] at hv
    split at hv
    · next heq =>
      obtain ⟨rfl, -⟩ := heq
      exact hf v hv
    · exact ha.outside other hother v hv

end Apart

end Heap

-- ---------------------------------------------------------------------------
-- Checks that copy
-- ---------------------------------------------------------------------------

section

variable {own : SeqId → Prop} {h₀ h h' : Heap} {v w : Value}

theorem conformAll_apart {f : Value → Heap → Option (Conformed Value)}
    (hf : ∀ v h c, h.Apart own h₀ → v.Apart own → f v h = some c →
      c.heap.Apart own h₀ ∧ c.value.Apart own)
    {vs : List Value} {c : Conformed (List Value)} (ha : h.Apart own h₀)
    (hvs : ∀ v ∈ vs, v.Apart own) (hc : conformAll f vs h = some c) :
    c.heap.Apart own h₀ ∧ ∀ w ∈ c.value, w.Apart own := by
  induction vs generalizing h c with
  | nil =>
    obtain rfl := Option.some.inj hc
    exact ⟨ha, by simp⟩
  | cons v vs ih =>
    rw [conformAll] at hc
    split at hc
    · simp at hc
    next first hfirst =>
    split at hc
    · simp at hc
    next rest hrest =>
    obtain rfl := Option.some.inj hc
    obtain ⟨hv, hvs⟩ := List.forall_mem_cons.mp hvs
    obtain ⟨ha₁, hv₁⟩ := hf v h first ha hv hfirst
    obtain ⟨ha₂, hvs₂⟩ := ih ha₁ hvs hrest
    exact ⟨ha₂, List.forall_mem_cons.mpr ⟨hv₁, hvs₂⟩⟩

theorem conform_apart (hown : ∀ id, own id → id < h₀.size) {ty : Ty} {c : Conformed Value}
    (ha : h.Apart own h₀) (hv : v.Apart own) (hc : conform ty v h = some c) :
    c.heap.Apart own h₀ ∧ c.value.Apart own := by
  induction ty generalizing v h c with
  | array t ih =>
    rcases conform_cases hc with ⟨-, hplain, hheap, -⟩ | ⟨_, _, hty, -⟩ |
      ⟨t', id, items, hty, rfl, hitems, hres⟩
    · rw [hheap]
      exact ⟨ha, Value.apart_of_plain hplain⟩
    · simp at hty
    · obtain rfl := Ty.array.inj hty
      have helems : ∀ x ∈ (h.read id).toList, x.Apart own :=
        fun x hx => ha.outside id (hv id rfl) x (Array.mem_toList_iff.mp hx)
      obtain ⟨ha₁, hvs₁⟩ := conformAll_apart (fun _ _ _ ha hv => ih ha hv) ha helems hitems
      rcases hres with rfl | rfl
      · exact ⟨ha₁, hv⟩
      · refine ⟨ha₁.newSeq hown .array hvs₁, ?_⟩
        rintro _ ⟨⟩
        exact ha₁.not_own_size hown
  | _ =>
    rcases conform_cases hc with ⟨-, hplain, hheap, -⟩ | ⟨_, _, _, _, rfl⟩ | ⟨_, _, _, hty, _⟩
    · rw [hheap]
      exact ⟨ha, Value.apart_of_plain hplain⟩
    · exact ⟨ha, hv⟩
    · simp at hty

theorem assignableElement_apart (hown : ∀ id, own id → id < h₀.size) {container : Option Ty}
    (ha : h.Apart own h₀) (hv : v.Apart own)
    (hok : assignableElement h container v = .ok (w, h')) : h'.Apart own h₀ ∧ w.Apart own := by
  rcases conform_of_assignableElement hok with ⟨rfl, rfl⟩ | ⟨t, c, hc, rfl, rfl⟩
  · exact ⟨ha, hv⟩
  · exact conform_apart hown ha hv hc

theorem insertable_apart (hown : ∀ id, own id → id < h₀.size) {store : SeqId}
    {declared : Option Ty} {vs ws : List Value} (ha : h.Apart own h₀)
    (hvs : ∀ v ∈ vs, v.Apart own) (hok : insertable store declared vs h = .ok (ws, h')) :
    h'.Apart own h₀ ∧ ∀ w ∈ ws, w.Apart own := by
  induction vs generalizing h ws with
  | nil =>
    obtain ⟨rfl, rfl⟩ := Prod.mk.inj (Except.ok.inj hok)
    exact ⟨ha, by simp⟩
  | cons v vs ih =>
    obtain ⟨w, h₁, rest, rfl, -, hw, hrest⟩ := insertable_cons hok
    obtain ⟨hv, hvs⟩ := List.forall_mem_cons.mp hvs
    obtain ⟨ha₁, hw₁⟩ := assignableElement_apart hown ha hv hw
    obtain ⟨ha₂, hrest₂⟩ := ih ha₁ hvs hrest
    exact ⟨ha₂, List.forall_mem_cons.mpr ⟨hw₁, hrest₂⟩⟩

end

-- ---------------------------------------------------------------------------
-- The discipline
-- ---------------------------------------------------------------------------

/-- Nothing at hand leads to the given stores, which are as they were in `h₀`. -/
def Discipline.apart (own : SeqId → Prop) (h₀ : Heap) (hown : ∀ id, own id → id < h₀.size) :
    Discipline where
  Holds h s _ := h.Apart own h₀ ∧ s.Every fun b => b.value.Apart own
  Val v _ := v.Apart own
  val_grow _ hv := hv
  val_plain := Value.apart_of_plain
  val_bound hs hb := hs.2.local? hb
  val_element hs hid hv := hs.1.outside _ (hid _ rfl) _ hv
  val_newSeq := by
    rintro h s f kind items hs _ ⟨⟩
    exact hs.1.not_own_size hown
  val_conform hs hv hc := (conform_apart hown hs.1 hv hc).2
  holds_newSeq hs hitems := ⟨hs.1.newSeq hown _ hitems, hs.2⟩
  holds_conform hs hv hc := ⟨(conform_apart hown hs.1 hv hc).1, hs.2⟩
  holds_part hs hid hitems := by
    refine ⟨hs.1.modify (hid _ rfl) ?_, hs.2⟩
    intro v hv
    exact hs.1.outside _ (hid _ rfl) v (hitems v (List.mem_toArray.mp hv))
  holds_append hs hid hv _ := by
    refine ⟨hs.1.modify (hid _ rfl) ?_, hs.2⟩
    intro x hx
    rcases Array.mem_push.mp hx with hx | rfl
    · exact hs.1.outside _ (hid _ rfl) x hx
    · exact hv
  holds_element hs hid hv hok := by
    obtain ⟨u, hu, hval, -⟩ := elementWrite_eq_ok hok
    have hu' : u.Apart own :=
      hu.elim (fun heq => heq ▸ hv) fun hdata =>
        Value.apart_of_plain (Value.store?_of_isData hdata)
    obtain ⟨ha, hw⟩ := assignableElement_apart hown hs.1 hu' hval
    refine ⟨ha.modify (hid _ rfl) ?_, hs.2⟩
    intro x hx
    rcases Array.mem_or_eq_of_mem_setIfInBounds hx with hx | rfl
    · exact ha.outside _ (hid _ rfl) x hx
    · exact hw
  holds_replace hs hid hitems hok := by
    obtain ⟨ha, hws⟩ := insertable_apart hown hs.1 hitems hok
    exact ⟨ha.modify (hid _ rfl) fun v hv => hws v (List.mem_toArray.mp hv), hs.2⟩
  holds_enter {_ _ _ p} hs := ⟨hs.1, hs.2.push (some p)⟩
  holds_leave _ _ hs' := hs'
  holds_define {_ _ f name _ _} hs hv _ := ⟨hs.1, hs.2.define hv f name⟩
  holds_assign _ hs hv _ := ⟨hs.1, hs.2.assign hv⟩

/-- The stores from number `first` on. -/
def Heap.since (first : Nat) (h : Heap) (id : SeqId) : Prop := first ≤ id ∧ id < h.size

theorem Heap.Known.apart {h h' : Heap} {v : Value} (hv : h.Known v) :
    v.Apart (h'.since h.size) :=
  fun id hid hsince => Nat.not_le.mpr (hv id hid) hsince.1

/-- **Stores that have just been added are apart**, in every machine that a session may come
to: what is there refers only to what was there before. -/
theorem standing_apart {m : Machine} {h : Heap} (hm : Discipline.nested.Standing m)
    (hgrows : m.heap.Grows h) :
    (Discipline.apart (h.since m.heap.size) h fun _ hid => hid.2).Standing
      { m with heap := h } := by
  refine ⟨⟨⟨Nat.le_refl _, fun _ _ => rfl, ?_⟩, ?_⟩, ?_⟩
  · intro id hid v hv
    by_cases hlt : id < m.heap.size
    · rw [hgrows.read id hlt] at hv
      exact (hm.holds.1.known id v hv).apart
    · -- a number that no store has
      have hge : h.size ≤ id := by
        by_contra hin
        exact hid ⟨Nat.le_of_not_lt hlt, Nat.lt_of_not_le hin⟩
      rw [Heap.read_eq, Array.getElem?_eq_none hge] at hv
      simp at hv
  · exact Scopes.Every.mono hm.holds.2 fun b hb => Heap.Known.apart hb
  · exact fun v hv => (hm.pending v hv).apart

end SeqScript
