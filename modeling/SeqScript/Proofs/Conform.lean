import Mathlib.Order.Basic
import SeqScript.Value.Insertion

/-!
# What a declared type makes of a value

A value that is stored under a declared type has the kind that the type asks
for (`conform_admits`), and the copies that are made on the way only add stores
to the heap. That second fact is the relation `Heap.Grows`: the later heap has
all stores of the earlier one, with the same elements.
-/

namespace SeqScript

-- ---------------------------------------------------------------------------
-- Heaps that only grow
-- ---------------------------------------------------------------------------

namespace Heap

/-- All stores of the first heap are in the second, with the same elements. -/
structure Grows (h h' : Heap) : Prop where
  size_le : h.size ≤ h'.size
  read : ∀ id < h.size, h'.read id = h.read id

namespace Grows

variable {h h₁ h₂ : Heap}

theorem refl (h : Heap) : Grows h h := ⟨Nat.le_refl _, fun _ _ => rfl⟩

/-- What was there stays as it was over several steps. -/
theorem trans (a : Grows h h₁) (b : Grows h₁ h₂) : Grows h h₂ := by
  refine ⟨Nat.le_trans a.size_le b.size_le, ?_⟩
  intro id hid
  rw [b.read id (Nat.lt_of_lt_of_le hid a.size_le), a.read id hid]

/-- A new store leaves the others as they are. -/
theorem newSeq (h : Heap) (kind : SeqKind) (items : List Value) :
    Grows h (h.newSeq kind items).2 := by
  refine ⟨by simp [Heap.newSeq], ?_⟩
  intro id hid
  show (h.alloc items.toArray).2.read id = h.read id
  rw [read_alloc, if_neg (Nat.ne_of_lt hid)]

end Grows

@[simp] theorem newSeq_fst (h : Heap) (kind : SeqKind) (items : List Value) :
    (h.newSeq kind items).1 = .seq kind h.size := rfl

@[simp] theorem size_newSeq (h : Heap) (kind : SeqKind) (items : List Value) :
    (h.newSeq kind items).2.size = h.size + 1 := by
  simp [newSeq]

/-- It holds what it was given. -/
theorem read_newSeq (h : Heap) (kind : SeqKind) (items : List Value) (other : SeqId) :
    (h.newSeq kind items).2.read other = if other = h.size then items.toArray else h.read other :=
  read_alloc ..

/-- Only stores that are there have elements. -/
theorem lt_size_of_read {h : Heap} {id : SeqId} (hid : 0 < (h.read id).size) : id < h.size := by
  by_contra hge
  rw [read_eq, Array.getElem?_eq_none (Nat.le_of_not_lt hge)] at hid
  cases hid

end Heap

-- ---------------------------------------------------------------------------
-- Conforming
-- ---------------------------------------------------------------------------

/-- The kinds of values that a variable of a declared type may hold. A matrix
stands in for an array of arrays of numbers. -/
def Ty.Admits : Ty → Value → Prop
  | .int, .int _ | .float, .float _ | .bool, .bool _ | .string, .str _ => True
  | .func, .func _ | .func, .builtin _ | .func, .unit => True
  | .list _, .seq .list _ | .array _, .seq .array _ | .array (.array .float), .matrix _ => True
  | _, _ => False

/-- A whole row of values, each made to fit by `conform`. -/
def conformAll (conform : Value → Heap → Option (Conformed Value)) :
    List Value → Heap → Option (Conformed (List Value))
  | [], h => some ⟨[], false, h⟩
  | v :: vs, h =>
    match conform v h with
    | none => none
    | some first =>
      match conformAll conform vs first.heap with
      | none => none
      | some rest => some ⟨first.value :: rest.value, first.changed || rest.changed, rest.heap⟩

/-- Where no element changes, the row is the row. -/
theorem conformAll_kept {f : Value → Heap → Option (Conformed Value)}
    (hf : ∀ v h c, f v h = some c → c.changed = false → c.value = v) {vs : List Value} {h : Heap}
    {c : Conformed (List Value)} (hc : conformAll f vs h = some c) (hsame : c.changed = false) :
    c.value = vs := by
  induction vs generalizing h c with
  | nil =>
    obtain rfl := Option.some.inj hc
    rfl
  | cons v vs ih =>
    rw [conformAll] at hc
    split at hc
    · simp at hc
    next first hfirst =>
    split at hc
    · simp at hc
    next rest hrest =>
    obtain rfl := Option.some.inj hc
    obtain ⟨hfirst', hrest'⟩ := Bool.or_eq_false_iff.mp hsame
    show first.value :: rest.value = v :: vs
    rw [hf v h first hfirst hfirst', ih hrest hrest']

/-- **The copy that is begun at the first element that changes is the whole row made to
fit.** Of an array whose first elements `done` have been looked at, `copy` holds these if one
of them has changed; the loop adds all the others to it. If none has changed before and none
changes now, there is no copy. -/
theorem conformFrom_eq {f : Value → Heap → Option (Conformed Value)}
    (hf : ∀ v h c, f v h = some c → c.changed = false → c.value = v) {items : Array Value}
    {done vs : List Value} (hitems : items.toList = done ++ vs) (copy : Option (Array Value))
    (h : Heap) :
    conformFrom f items vs done.length copy h =
      (conformAll f vs h).map fun all =>
        (if all.changed then some (copy.getD done.toArray ++ all.value.toArray)
          else copy.map (· ++ vs.toArray), all.heap) := by
  induction vs generalizing done copy h with
  | nil => cases copy <;> simp [conformFrom, conformAll]
  | cons v vs ih =>
    have hdone : items.extract 0 done.length = done.toArray := by
      rw [← Array.toList_inj, Array.toList_extract, hitems]
      simp
    have hnext := ih (show items.toList = done ++ [v] ++ vs by rw [hitems, List.append_assoc]; rfl)
    rw [List.length_append, List.length_singleton] at hnext
    rw [conformFrom, conformAll]
    cases hfirst : f v h with
    | none => rfl
    | some first =>
      dsimp only
      rw [hdone]
      cases hchanged : first.changed with
      | true =>
        rw [if_pos rfl, hnext]
        cases hrest : conformAll f vs first.heap with
        | none => rfl
        | some rest =>
          cases hsame : rest.changed with
          | true => simp [hsame]
          | false => simp [hsame, conformAll_kept hf hrest hsame]
      | false =>
        rw [if_neg Bool.false_ne_true, hnext]
        cases hrest : conformAll f vs first.heap with
        | none => rfl
        | some rest =>
          rw [← hf v h first hfirst hchanged]
          cases hsame : rest.changed <;> cases copy <;> simp [hsame]

/-- What has not changed is the value itself. -/
theorem conform_kept {ty : Ty} {v : Value} {h : Heap} {c : Conformed Value}
    (hc : conform ty v h = some c) (hsame : c.changed = false) : c.value = v := by
  unfold conform at hc
  split at hc
  case h_10 =>
    split at hc
    · simp at hc
    · obtain rfl := Option.some.inj hc
      rfl
    · obtain rfl := Option.some.inj hc
      cases hsame
  case h_3 =>
    obtain rfl := Option.some.inj hc
    cases hsame
  case h_12 => simp at hc
  all_goals
    obtain rfl := Option.some.inj hc
    rfl


/-- The array that is made of a row of elements which have been made to fit. -/
def arrayOf (id : SeqId) (items : Conformed (List Value)) : Conformed Value :=
  if items.changed then
    ⟨.seq .array items.heap.size, true, (items.heap.newSeq .array items.value).2⟩
  else ⟨.seq .array id, false, items.heap⟩

/-- An array is widened as its row of elements is, and copied only if one of them
changes. -/
theorem conform_array (t : Ty) (id : SeqId) (h : Heap) :
    conform (.array t) (.seq .array id) h =
      (conformAll (conform t) (h.read id).toList h).map (arrayOf id) := by
  have hloop := @conformFrom_eq (conform t) (fun _ _ _ => conform_kept) (h.read id) []
    (h.read id).toList rfl none h
  rw [List.length_nil] at hloop
  rw [conform, hloop]
  cases conformAll (conform t) (h.read id).toList h with
  | none => rfl
  | some items =>
    unfold arrayOf
    cases hchanged : items.changed with
    | false => simp [hchanged]
    | true =>
      simp only [Option.map_some, hchanged, if_true, Option.getD_none, List.append_toArray,
        List.nil_append]
      rfl

/-- The three ways to fit a type: without elements, as a list, whose elements
are not looked at, or as an array, whose elements all fit. -/
theorem conform_cases {ty : Ty} {v : Value} {h : Heap} {c : Conformed Value}
    (hc : conform ty v h = some c) :
    (v.store? = none ∧ c.value.store? = none ∧ c.heap = h ∧ ty.Admits c.value) ∨
    (∃ t id, ty = .list t ∧ v = .seq .list id ∧ c = ⟨v, false, h⟩) ∨
    (∃ t id items, ty = .array t ∧ v = .seq .array id ∧
      conformAll (conform t) (h.read id).toList h = some items ∧
      (c = ⟨v, false, items.heap⟩ ∨
        c = ⟨(items.heap.newSeq .array items.value).1, true,
          (items.heap.newSeq .array items.value).2⟩)) := by
  unfold conform at hc
  split at hc
  case h_9 =>
    obtain rfl := Option.some.inj hc
    exact Or.inr (Or.inl ⟨_, _, rfl, rfl, rfl⟩)
  case h_10 t id =>
    have hc : conform (.array t) (.seq .array id) h = some c := hc
    rw [conform_array] at hc
    obtain ⟨items, hitems, rfl⟩ := Option.map_eq_some_iff.mp hc
    refine Or.inr (Or.inr ⟨t, id, items, rfl, rfl, hitems, ?_⟩)
    unfold arrayOf
    split
    · exact Or.inr rfl
    · exact Or.inl rfl
  case h_12 => simp at hc
  all_goals
    obtain rfl := Option.some.inj hc
    exact Or.inl ⟨rfl, rfl, rfl, trivial⟩

/-- A value that is stored under a type is of a kind the type admits. -/
theorem conform_admits {ty : Ty} {v : Value} {h : Heap} {c : Conformed Value}
    (hc : conform ty v h = some c) : ty.Admits c.value := by
  rcases conform_cases hc with ⟨-, -, -, hadmits⟩ | ⟨t, id, rfl, rfl, rfl⟩ |
    ⟨t, id, items, rfl, rfl, -, rfl | rfl⟩
  · exact hadmits
  all_goals trivial

/-- The run lemma: each element leaves the stores that were there. -/
theorem conformAll_grows {f : Value → Heap → Option (Conformed Value)}
    (hf : ∀ v h c, f v h = some c → h.Grows c.heap) {vs : List Value} {h : Heap}
    {c : Conformed (List Value)} (hc : conformAll f vs h = some c) : h.Grows c.heap := by
  induction vs generalizing h c with
  | nil =>
    obtain rfl := Option.some.inj hc
    exact .refl h
  | cons v vs ih =>
    rw [conformAll] at hc
    split at hc
    · simp at hc
    · next first hfirst =>
      split at hc
      · simp at hc
      · next rest hrest =>
        obtain rfl := Option.some.inj hc
        exact (hf v h first hfirst).trans (ih (c := rest) hrest)

theorem conform_grows {ty : Ty} {v : Value} {h : Heap} {c : Conformed Value}
    (hc : conform ty v h = some c) : h.Grows c.heap := by
  induction ty generalizing v h c with
  | array t ih =>
    rcases conform_cases hc with ⟨-, -, hheap, -⟩ | ⟨_, _, hty, -⟩ |
      ⟨t', id, items, hty, -, hitems, hres⟩
    · rw [hheap]
      exact .refl h
    · simp at hty
    · obtain rfl := Ty.array.inj hty
      have hall := conformAll_grows (fun v h c => ih) hitems
      rcases hres with rfl | rfl
      · exact hall
      · exact hall.trans (.newSeq items.heap .array items.value)
  | _ =>
    rcases conform_cases hc with ⟨-, -, hheap, -⟩ | ⟨_, _, _, _, rfl⟩ | ⟨_, _, _, hty, _⟩
    · rw [hheap]
      exact .refl h
    · exact .refl h
    · simp at hty

-- ---------------------------------------------------------------------------
-- Checks on the way into a variable or a sequence
-- ---------------------------------------------------------------------------

/-- A chain of checks passes only if its first link does. -/
theorem bind_eq_ok {ε α β : Type} {x : Except ε α} {f : α → Except ε β} {b : β}
    (h : x >>= f = .ok b) : ∃ a, x = .ok a ∧ f a = .ok b := by
  cases x with
  | error e => simp [bind, Except.bind] at h
  | ok a => exact ⟨a, rfl, h⟩

/-- What may be assigned is what conforms. -/
theorem conform_of_assignable {h h' : Heap} {ty : Ty} {v w : Value}
    (hok : assignable h ty v = .ok (w, h')) :
    ∃ c, conform ty v h = some c ∧ c.value = w ∧ c.heap = h' := by
  unfold assignable at hok
  split at hok
  · next c hc =>
    obtain ⟨hw, hh⟩ := Prod.mk.inj (Except.ok.inj hok)
    exact ⟨c, hc, hw, hh⟩
  · simp at hok

/-- An element is stored as it is, or as the type of elements asks. -/
theorem conform_of_assignableElement {h h' : Heap} {container : Option Ty} {v w : Value}
    (hok : assignableElement h container v = .ok (w, h')) :
    (w = v ∧ h' = h) ∨ ∃ t c, conform t v h = some c ∧ c.value = w ∧ c.heap = h' := by
  unfold assignableElement at hok
  split at hok
  · obtain ⟨c, hc⟩ := conform_of_assignable hok
    exact Or.inr ⟨_, c, hc⟩
  · obtain ⟨rfl, rfl⟩ := Prod.mk.inj (Except.ok.inj hok)
    exact Or.inl ⟨rfl, rfl⟩

theorem assignableElement_grows {h h' : Heap} {container : Option Ty} {v w : Value}
    (hok : assignableElement h container v = .ok (w, h')) : h.Grows h' := by
  rcases conform_of_assignableElement hok with ⟨-, rfl⟩ | ⟨t, c, hc, -, rfl⟩
  · exact .refl _
  · exact conform_grows hc

/-- A value may go into a store that it does not hold. -/
theorem checkInsertion_eq_ok_iff {h : Heap} {store : SeqId} {v : Value} :
    checkInsertion h store v = .ok () ↔ h.mentions store v = false := by
  unfold checkInsertion
  cases h.mentions store v <;> simp

/-- Values are checked and copied one after another. -/
theorem insertable_cons {store : SeqId} {declared : Option Ty} {v : Value} {vs ws : List Value}
    {h h' : Heap} (hok : insertable store declared (v :: vs) h = .ok (ws, h')) :
    ∃ w h₁ rest, ws = w :: rest ∧ h.mentions store v = false ∧
      assignableElement h declared v = .ok (w, h₁) ∧
      insertable store declared vs h₁ = .ok (rest, h') := by
  rw [insertable] at hok
  obtain ⟨_, hcheck, hok⟩ := bind_eq_ok hok
  obtain ⟨⟨w, h₁⟩, hw, hok⟩ := bind_eq_ok hok
  obtain ⟨⟨rest, h₂⟩, hrest, hok⟩ := bind_eq_ok hok
  obtain ⟨rfl, rfl⟩ := Prod.mk.inj (Except.ok.inj hok)
  exact ⟨w, h₁, rest, rfl, checkInsertion_eq_ok_iff.mp hcheck, hw, hrest⟩

/-- Checking a row makes new stores only. -/
theorem insertable_grows {store : SeqId} {declared : Option Ty} {vs ws : List Value}
    {h h' : Heap} (hok : insertable store declared vs h = .ok (ws, h')) : h.Grows h' := by
  induction vs generalizing h ws with
  | nil =>
    obtain ⟨-, rfl⟩ := Prod.mk.inj (Except.ok.inj hok)
    exact .refl h
  | cons v vs ih =>
    obtain ⟨w, h₁, rest, -, -, hw, hrest⟩ := insertable_cons hok
    exact (assignableElement_grows hw).trans (ih hrest)

end SeqScript
