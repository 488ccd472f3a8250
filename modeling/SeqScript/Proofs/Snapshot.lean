import SeqScript.Proofs.Forms
import SeqScript.Proofs.Widening

/-!
# `map` and `filter` work on a snapshot

The functions that `map` and `filter` are given may do anything: write into the sequence that
is being gone through, fail, or call `map` on it once more. None of that changes on which
values they are called, and with `mutate: true` none of it is left in the subject.

* `Doer.Calls` — calls of a function with one value each, one after another, without the
  loops that make them.
* `CollectionOp.Completes` and `CollectionOp.Breaks` — how the calls of an operation may go on
  a row of values. The loops do one or the other (`mapItems_outcome`, `filterItems_outcome`).
* `Heap.Takes` and `ElementWidened` — what may be written into a store whose variable has a
  declared type, and what becomes of it on the way. The checks let through what the store
  takes (`insertable_of_takes`), and what they make of it is widened (`insertable_widens`).

The main result is `map_filter_on_snapshot`.
-/

namespace SeqScript

open Run

-- ---------------------------------------------------------------------------
-- Calls one after another
-- ---------------------------------------------------------------------------

/-- Calls of `f` that follow each other from the first machine to the second. Each is given as
the value that `f` is called with and the answer. -/
inductive Doer.Calls (self : Doer) (f : Value) (line : Nat) :
    Machine → List (Value × Value) → Machine → Prop
  | nil (m : Machine) : Calls self f line m [] m
  | cons {m n k : Machine} {v w : Value} {rest : List (Value × Value)} :
    self (.call f [v] line) m = .ok w n → Calls self f line n rest k →
    Calls self f line m ((v, w) :: rest) k

/-- What one call keeps, all calls keep. -/
theorem Doer.Calls.keeps {D : Discipline} {self : Doer} {f : Value} {line : Nat} {m n : Machine}
    {calls : List (Value × Value)} (hcalls : self.Calls f line m calls n) (hself : D.Obeyed self)
    (hm : D.Standing m) (hvals : ∀ c ∈ calls, D.Val c.1 m.heap) :
    D.Standing n ∧ m.heap.size ≤ n.heap.size ∧ ∀ c ∈ calls, D.Val c.2 n.heap := by
  induction hcalls with
  | nil m => exact ⟨hm, Nat.le_refl _, by simp⟩
  | @cons m n k v w rest hcall _ ih =>
    obtain ⟨hv, hrest⟩ := List.forall_mem_cons.mp hvals
    have hsafe : D.Safe ∅ false (self (.call f [v] line)) m D.Val :=
      hself.call hm (by simpa [Discipline.Vals] using hv)
    obtain ⟨hn, hw⟩ := hsafe.of_ok hcall
    have hsize : m.heap.size ≤ n.heap.size := by
      have hextends := hsafe.after.1
      rw [after_of_ok hcall] at hextends
      exact hextends.heap
    obtain ⟨hk, hsize', hanswers⟩ := ih hn fun c hc => D.val_grow hsize (hrest c hc)
    exact ⟨hk, Nat.le_trans hsize hsize',
      List.forall_mem_cons.mpr ⟨D.val_grow hsize' hw, hanswers⟩⟩

namespace CollectionOp

/-- The operation can go on with an answer: `filter` asks for a truth value. -/
def Accepts (op : CollectionOp) (answer : Value) : Prop := op = filter → ∃ b, answer = .bool b

/-- What the operation makes of its calls: `filter` keeps the values for which the answer was
yes, `map` keeps the answers. -/
def collected (op : CollectionOp) (calls : List (Value × Value)) : List Value :=
  if op = filter then
    (calls.filter fun c => match c.2 with | .bool b => b | _ => false).map Prod.fst
  else calls.map Prod.snd

/-- `f` is called with each of the values, in their order and once, and every call gives an
answer to go on with. -/
structure Completes (op : CollectionOp) (doer : Doer) (f : Value) (line : Nat)
    (items : List Value) (m : Machine) (calls : List (Value × Value)) (n : Machine) : Prop where
  run : doer.Calls f line m calls n
  subjects : calls.map Prod.fst = items
  accepted : ∀ c ∈ calls, op.Accepts c.2

/-- `f` is called with the values in their order up to one where the call fails, or gives an
answer that the operation cannot go on with. With those after it `f` is not called. -/
inductive Breaks (op : CollectionOp) (self : Doer) (f : Value) (line : Nat) :
    List Value → Machine → Stop → Machine → Prop
  | call {before rest : List Value} {v : Value} {calls : List (Value × Value)} {m k n : Machine}
      {e : Stop} : op.Completes self f line before m calls k →
    self (.call f [v] line) k = .error e n → Breaks op self f line (before ++ v :: rest) m e n
  | answer {before rest : List Value} {v w : Value} {calls : List (Value × Value)}
      {m k n : Machine} : op.Completes self f line before m calls k →
    self (.call f [v] line) k = .ok w n → ¬ op.Accepts w →
    Breaks op self f line (before ++ v :: rest) m (.fault ⟨line, .predicateNotBool w.kind⟩) n

variable {op : CollectionOp} {self : Doer} {f v w : Value} {line : Nat} {items : List Value}
  {calls : List (Value × Value)} {m n k : Machine} {e : Stop}

theorem completes_nil : op.Completes self f line [] m [] m := ⟨.nil m, rfl, by simp⟩

theorem Completes.cons (hcall : self (.call f [v] line) m = .ok w n) (hw : op.Accepts w)
    (hrest : op.Completes self f line items n calls k) :
    op.Completes self f line (v :: items) m ((v, w) :: calls) k where
  run := .cons hcall hrest.run
  subjects := by rw [List.map_cons, hrest.subjects]
  accepted := List.forall_mem_cons.mpr ⟨hw, hrest.accepted⟩

theorem Breaks.cons (hcall : self (.call f [v] line) m = .ok w n) (hw : op.Accepts w)
    (hrest : op.Breaks self f line items n e k) : op.Breaks self f line (v :: items) m e k := by
  cases hrest with
  | call hbefore hfails => exact .call (hbefore.cons hcall hw) hfails
  | answer hbefore hok hother => exact .answer (hbefore.cons hcall hw) hok hother

/-- What is collected from the calls stood in them. -/
theorem mem_of_mem_collected (hv : v ∈ op.collected calls) : ∃ c ∈ calls, v = c.1 ∨ v = c.2 := by
  unfold collected at hv
  split at hv
  · obtain ⟨c, hc, rfl⟩ := List.mem_map.mp hv
    exact ⟨c, (List.mem_filter.mp hc).1, .inl rfl⟩
  · obtain ⟨c, hc, rfl⟩ := List.mem_map.mp hv
    exact ⟨c, hc, .inr rfl⟩

end CollectionOp

-- ---------------------------------------------------------------------------
-- The loops
-- ---------------------------------------------------------------------------

namespace CollectionOp

/-- How a loop over a row of values ends: with what is collected from calls on all of them, or
where the calls break off. -/
inductive Outcome (op : CollectionOp) (self : Doer) (f : Value) (line : Nat) (items : List Value)
    (m : Machine) : EStateM.Result Stop Machine (List Value) → Prop
  | completes {calls : List (Value × Value)} {n : Machine} :
    op.Completes self f line items m calls n →
    Outcome op self f line items m (.ok (op.collected calls) n)
  | breaks {e : Stop} {n : Machine} : op.Breaks self f line items m e n →
    Outcome op self f line items m (.error e n)

variable {op : CollectionOp} {self : Doer} {f v w : Value} {line : Nat} {items : List Value}
  {m n : Machine}

theorem collected_cons (c : Value × Value) (calls : List (Value × Value)) :
    op.collected (c :: calls) = op.collected [c] ++ op.collected calls := by
  unfold collected
  split
  · rw [← List.map_append, ← List.filter_append, List.singleton_append]
  · rfl

/-- One call, and then the others. -/
theorem Outcome.cons (hcall : self (.call f [v] line) m = .ok w n) (hw : op.Accepts w)
    {loop : Run (List Value)} (hrest : op.Outcome self f line items n (loop n)) :
    op.Outcome self f line (v :: items) m
      ((loop >>= fun out => pure (op.collected [(v, w)] ++ out)) n) := by
  cases hloop : loop n with
  | ok out k =>
    rw [hloop] at hrest
    obtain hdone | _ := hrest
    rw [bind_of_ok hloop, ← collected_cons]
    exact .completes (hdone.cons hcall hw)
  | error e k =>
    rw [hloop] at hrest
    obtain _ | hbreaks := hrest
    rw [bind_of_error hloop]
    exact .breaks (hbreaks.cons hcall hw)

end CollectionOp

namespace Doer

open CollectionOp

variable (self : Doer) (f : Value) (line : Nat)

theorem mapItems_outcome (items : List Value) (m : Machine) :
    CollectionOp.map.Outcome self f line items m (self.mapItems f line items m) := by
  induction items generalizing m with
  | nil => exact .completes completes_nil
  | cons v vs ih =>
    rw [mapItems]
    cases hcall : self (.call f [v] line) m with
    | error e n =>
      rw [bind_of_error hcall]
      exact .breaks (.call completes_nil hcall)
    | ok w n =>
      rw [bind_of_ok hcall]
      have haccepts : CollectionOp.map.Accepts w := by
        intro hop
        cases hop
      exact (ih n).cons hcall haccepts

theorem filterItems_outcome (items : List Value) (m : Machine) :
    CollectionOp.filter.Outcome self f line items m (self.filterItems f line items m) := by
  induction items generalizing m with
  | nil => exact .completes completes_nil
  | cons v vs ih =>
    rw [filterItems]
    cases hcall : self (.call f [v] line) m with
    | error e n =>
      rw [bind_of_error hcall]
      exact .breaks (.call completes_nil hcall)
    | ok w n =>
      rw [bind_of_ok hcall]
      cases w with
      | bool stays =>
        have hcons := (ih n).cons hcall fun _ => ⟨stays, rfl⟩
        cases stays with
        | true => exact hcons
        | false =>
          -- nothing is put in front
          have hsame : (fun out => pure (CollectionOp.filter.collected [(v, .bool false)] ++ out) :
              List Value → Run (List Value)) = pure := rfl
          rwa [hsame, bind_pure] at hcons
      | _ =>
        refine .breaks (.answer completes_nil hcall ?_)
        intro haccepts
        obtain ⟨b, hb⟩ := haccepts rfl
        cases hb

end Doer

namespace CollectionOp

/-- The part of `map` and `filter` in which calls are made is on the elements that the subject
has at first. -/
theorem callbacks_outcome {op : CollectionOp} (hop : op ∈ [map, filter]) {f : Value}
    (hf : f.isCallable = true) (self : Doer) (kind : SeqKind) (id : SeqId) (line : Nat)
    (m : Machine) :
    op.Outcome self f line (m.heap.read id).toList m
      (op.callbacks self (.seq kind id) [f] line m) := by
  rcases List.mem_pair.mp hop with rfl | rfl
  · have hrun : map.callbacks self (.seq kind id) [f] line m =
        self.map f line (m.heap.read id).toList m := rfl
    rw [hrun, Doer.map, if_pos hf]
    exact self.mapItems_outcome f line _ m
  · have hrun : filter.callbacks self (.seq kind id) [f] line m =
        self.filter f line (m.heap.read id).toList m := rfl
    rw [hrun, Doer.filter, if_pos hf]
    exact self.filterItems_outcome f line _ m

/-- What follows the calls. -/
theorem apply_eq_conclude {op : CollectionOp} (hop : op ∈ [map, filter]) (self : Doer) (f : Value)
    (kind : SeqKind) (id : SeqId) (mutate : Bool) (declared : Option Ty) (line : Nat)
    (m : Machine) :
    op.apply self (.seq kind id) [f] mutate declared line m =
      (op.callbacks self (.seq kind id) [f] line >>=
        conclude line (.seq kind id) ⟨kind, id, (m.heap.read id).toList⟩ mutate declared) m := by
  rcases List.mem_pair.mp hop with rfl | rfl <;> rfl

end CollectionOp

-- ---------------------------------------------------------------------------
-- Elements under a declared type
-- ---------------------------------------------------------------------------

/-- The type that the elements of a sequence have to fit, if its variable is declared as an
array. -/
def elementTy? : Option Ty → Option Ty
  | some (.array t) => some t
  | _ => none

theorem assignableElement_eq (h : Heap) (declared : Option Ty) (v : Value) :
    assignableElement h declared v =
      match elementTy? declared with
      | some t => assignable h t v
      | none => .ok (v, h) := by
  cases declared with
  | none => rfl
  | some ty => cases ty <;> rfl

/-- A value fits among the elements of a sequence whose variable has a declared type. -/
def ElementFits (declared : Option Ty) (h : Heap) (v : Value) : Prop :=
  match elementTy? declared with
  | some t => t.Fits h v
  | none => True

/-- `w`, in the heap `h'`, is what becomes of `v` as an element of such a sequence. -/
def ElementWidened (declared : Option Ty) (h h' : Heap) (v w : Value) : Prop :=
  match elementTy? declared with
  | some t => t.Widened h h' v w
  | none => w = v

/-- A value may be written into a store: the store does not occur in it, and it fits. -/
def Heap.Takes (h : Heap) (store : SeqId) (declared : Option Ty) (v : Value) : Prop :=
  ¬ h.Occurs store v ∧ ElementFits declared h v

section

variable {declared : Option Ty} {h₀ h h' h'' : Heap} {store : SeqId} {v w : Value}
  {vs ws : List Value}

theorem ElementWidened.later (hs : h'.Sound) (hgrows : h'.Grows h'') (hw : h'.Known w)
    (hwidened : ElementWidened declared h h' v w) : ElementWidened declared h h'' v w := by
  unfold ElementWidened at hwidened ⊢
  split at hwidened
  · exact hwidened.later hs hgrows hw
  · exact hwidened

theorem ElementWidened.modify {f : Array Value → Array Value} (hw : ¬ h'.Occurs store w)
    (hwidened : ElementWidened declared h h' v w) :
    ElementWidened declared h (h'.modify store f) v w := by
  unfold ElementWidened at hwidened ⊢
  split at hwidened
  · exact hwidened.modify hw
  · exact hwidened

theorem assignableElement_of_fits (hs₀ : h₀.Sound) (hgrows : h₀.Grows h) (hv : h₀.Known v)
    (hfits : ElementFits declared h₀ v) : ∃ w h', assignableElement h declared v = .ok (w, h') := by
  unfold ElementFits at hfits
  rw [assignableElement_eq]
  cases helement : elementTy? declared with
  | none => exact ⟨v, h, rfl⟩
  | some t =>
    rw [helement] at hfits
    obtain ⟨c, hc⟩ := conform_of_fits hs₀ hgrows hv hfits
    exact ⟨c.value, c.heap, assignable_of_conform hc⟩

theorem assignableElement_widens (hs₀ : h₀.Sound) (hgrows : h₀.Grows h) (hs : h.Sound)
    (hv : h₀.Known v) (hok : assignableElement h declared v = .ok (w, h')) :
    ElementFits declared h₀ v ∧ ElementWidened declared h₀ h' v w := by
  rw [assignableElement_eq] at hok
  unfold ElementFits ElementWidened
  cases helement : elementTy? declared with
  | none =>
    rw [helement] at hok
    obtain ⟨rfl, rfl⟩ := Prod.mk.inj (Except.ok.inj hok)
    exact ⟨trivial, rfl⟩
  | some t =>
    rw [helement] at hok
    obtain ⟨c, hc, rfl, rfl⟩ := conform_of_assignable hok
    have hfitted := conform_fitted hs₀ hgrows hs hv hc
    exact ⟨hfitted.fits, hfitted.widened⟩

/-- Values that a store takes are let in, though copies are made while others wait. -/
theorem insertable_of_takes (hs₀ : h₀.Sound) (hgrows : h₀.Grows h) (hs : h.Sound)
    (hvs : ∀ v ∈ vs, h₀.Known v) (htakes : ∀ v ∈ vs, h₀.Takes store declared v) :
    ∃ ws h', insertable store declared vs h = .ok (ws, h') := by
  induction vs generalizing h with
  | nil => exact ⟨[], h, rfl⟩
  | cons v vs ih =>
    obtain ⟨hv, hvs⟩ := List.forall_mem_cons.mp hvs
    obtain ⟨⟨hfree, hfits⟩, htakes⟩ := List.forall_mem_cons.mp htakes
    have hcheck : checkInsertion h store v = .ok () := by
      rw [checkInsertion_eq_ok_iff, hs.mentions_eq_false_iff]
      exact fun hocc => hfree (hs₀.occurs_of_grows hgrows hv hocc)
    obtain ⟨w, h₁, hw⟩ := assignableElement_of_fits hs₀ hgrows hv hfits
    have hst := assignableElement_standsIn hs (hv.mono hgrows.size_le) hw
    obtain ⟨ws, h', hrest⟩ := ih (hgrows.trans (assignableElement_grows hw)) hst.sound hvs htakes
    refine ⟨w :: ws, h', ?_⟩
    simp only [insertable, hcheck, hw, hrest, bind, Except.bind]
    rfl

/-- Values that have been let in are such as the store takes, and have become what they
should. -/
theorem insertable_widens (hs₀ : h₀.Sound) (hgrows : h₀.Grows h) (hs : h.Sound)
    (hvs : ∀ v ∈ vs, h₀.Known v) (hok : insertable store declared vs h = .ok (ws, h')) :
    (∀ v ∈ vs, h₀.Takes store declared v) ∧
      List.Forall₂ (ElementWidened declared h₀ h') vs ws := by
  induction vs generalizing h ws with
  | nil =>
    obtain ⟨rfl, rfl⟩ := Prod.mk.inj (Except.ok.inj hok)
    exact ⟨by simp, .nil⟩
  | cons v vs ih =>
    obtain ⟨w, h₁, rest, rfl, hfree, hw, hrest⟩ := insertable_cons hok
    obtain ⟨hv, hvs⟩ := List.forall_mem_cons.mp hvs
    obtain ⟨hfits, hwidened⟩ := assignableElement_widens hs₀ hgrows hs hv hw
    have hst := assignableElement_standsIn hs (hv.mono hgrows.size_le) hw
    obtain ⟨htakes, hrests⟩ :=
      ih (hgrows.trans (assignableElement_grows hw)) hst.sound hvs hrest
    rw [hs.mentions_eq_false_iff] at hfree
    have htake : h₀.Takes store declared v := ⟨fun hocc => hfree (hocc.later hgrows), hfits⟩
    exact ⟨List.forall_mem_cons.mpr ⟨htake, htakes⟩,
      .cons (hwidened.later hst.sound (insertable_grows hrest) hst.known) hrests⟩

end

-- ---------------------------------------------------------------------------
-- What is done with the values collected
-- ---------------------------------------------------------------------------

namespace Machine

/-- From the machine `k` to `n`, nothing happens but that a sequence of a kind is made, with
these elements; `v` is that sequence. -/
structure MakesSequence (k : Machine) (kind : SeqKind) (items : List Value) (v : Value)
    (n : Machine) : Prop where
  value : v = .seq kind k.heap.size
  elements : n.heap.elements v = items
  grows : k.heap.Grows n.heap
  heap_only : n = { k with heap := n.heap }

/-- From the machine `k` to `n`, nothing happens to the sequences that are there but that a
store is written over. It holds these elements then, widened as its variable asks, and so does
every sequence that has this store. -/
structure Overwrites (k : Machine) (store : SeqId) (declared : Option Ty) (items : List Value)
    (n : Machine) : Prop where
  elements : ∀ v : Value, v.store? = some store →
    List.Forall₂ (ElementWidened declared k.heap n.heap) items (n.heap.elements v)
  others : ∀ id < k.heap.size, id ≠ store → n.heap.read id = k.heap.read id
  size_le : k.heap.size ≤ n.heap.size
  heap_only : n = { k with heap := n.heap }

end Machine

namespace CollectionOp

variable {kind : SeqKind} {id : SeqId} {before items : List Value} {declared : Option Ty}
  {line : Nat} {k : Machine}

theorem conclude_new :
    ∃ v n, conclude line (.seq kind id) ⟨kind, id, before⟩ false declared items k = .ok v n ∧
      k.MakesSequence kind items v n := by
  refine ⟨_, _, rfl, rfl, ?_, .newSeq k.heap kind items, rfl⟩
  show ((k.heap.newSeq kind items).2.read k.heap.size).toList = items
  rw [Heap.read_newSeq, if_pos rfl]

theorem conclude_mutate :
    conclude line (.seq kind id) ⟨kind, id, before⟩ true declared items k =
      (charge line (insertable id declared items k.heap) >>= fun r => do
        setHeap (r.2.write id r.1.toArray)
        return .seq kind id) k := by
  show (replaceItems line ⟨kind, id, before⟩ declared items >>= fun _ => pure _) k = _
  unfold replaceItems
  simp only [bind_assoc]
  rfl

theorem conclude_overwrites (hs : k.heap.Sound) (hid : id < k.heap.size)
    (hitems : ∀ v ∈ items, k.heap.Known v) (htakes : ∀ v ∈ items, k.heap.Takes id declared v) :
    ∃ n, conclude line (.seq kind id) ⟨kind, id, before⟩ true declared items k =
      .ok (.seq kind id) n ∧ k.Overwrites id declared items n := by
  obtain ⟨ws, h, hok⟩ := insertable_of_takes hs (.refl k.heap) hs hitems htakes
  have hgrows : k.heap.Grows h := insertable_grows hok
  obtain ⟨-, hfree⟩ := insertable_not_occurs hs hid hitems hok
  obtain ⟨-, hwidened⟩ := insertable_widens hs (.refl k.heap) hs hitems hok
  have hread : (h.write id ws.toArray).read id = ws.toArray := by
    rw [Heap.write, Heap.read_modify, if_pos ⟨rfl, Nat.lt_of_lt_of_le hid hgrows.size_le⟩]
  refine ⟨{ k with heap := h.write id ws.toArray }, ?_, ?_, ?_, ?_, rfl⟩
  · rw [conclude_mutate, hok]
    rfl
  · intro v hv
    have helements : (h.write id ws.toArray).elements v = ws := by
      simp only [Heap.elements, hv, hread]
    rw [helements]
    refine forall₂_imp_mem hwidened ?_
    intro x _ y hy hxy
    exact hxy.modify (hfree y hy).2
  · intro other hother hne
    show (h.write id ws.toArray).read other = _
    rw [Heap.write, Heap.read_modify, if_neg fun hc => hne hc.1.symm, hgrows.read other hother]
  · show k.heap.size ≤ (h.modify id _).size
    rw [Heap.size_modify]
    exact hgrows.size_le

theorem conclude_refused (hs : k.heap.Sound) (hitems : ∀ v ∈ items, k.heap.Known v)
    (hrefused : ∃ v ∈ items, ¬ k.heap.Takes id declared v) :
    ∃ cause, conclude line (.seq kind id) ⟨kind, id, before⟩ true declared items k =
      .error (.fault ⟨line, cause⟩) k := by
  cases hresult : insertable id declared items k.heap with
  | ok r =>
    obtain ⟨htakes, -⟩ := insertable_widens hs (.refl k.heap) hs hitems hresult
    obtain ⟨v, hv, hnot⟩ := hrefused
    exact absurd (htakes v hv) hnot
  | error cause =>
    refine ⟨cause, ?_⟩
    rw [conclude_mutate, hresult]
    rfl

end CollectionOp

-- ---------------------------------------------------------------------------
-- Main result
-- ---------------------------------------------------------------------------

namespace CollectionOp

variable {op : CollectionOp} {self : Doer} {f : Value} {line : Nat} {items : List Value}
  {calls : List (Value × Value)} {m k : Machine}

theorem length_collected_map (hdone : map.Completes self f line items m calls k) :
    (map.collected calls).length = items.length := by
  rw [← hdone.subjects, List.length_map]
  exact List.length_map ..

/-- When the calls are done the heap is still sound, and what has been collected is there. -/
theorem Completes.keeps {limit budget : Nat} {id : SeqId}
    (hdone : op.Completes (perform limit budget) f line (m.heap.read id).toList m calls k)
    (hm : Discipline.nested.Standing m) :
    k.heap.Sound ∧ m.heap.size ≤ k.heap.size ∧ ∀ v ∈ op.collected calls, k.heap.Known v := by
  have hsubjects : ∀ c ∈ calls, m.heap.Known c.1 := by
    intro c hc
    have hmem : c.1 ∈ (m.heap.read id).toList := hdone.subjects ▸ List.mem_map_of_mem hc
    exact hm.holds.1.known id c.1 (Array.mem_toList_iff.mp hmem)
  obtain ⟨hk, hsize, hanswers⟩ :=
    hdone.run.keeps (obeyed_perform Discipline.nested limit budget) hm hsubjects
  refine ⟨hk.holds.1, hsize, ?_⟩
  intro v hv
  obtain ⟨c, hc, rfl | rfl⟩ := mem_of_mem_collected hv
  · exact (hsubjects c hc).mono hsize
  · exact hanswers c hc

end CollectionOp

/-- **`map` and `filter` work on a snapshot of their subject.** Take a machine whose heap is
sound, a sequence in it and a function, which may do to the machine whatever it likes. Either
the function is called with each of the elements that the sequence has at first, in their order
and once, or the calls break off at the first that fails or, under `filter`, is not answered
with a truth value. Nothing else happens until then.
* If the calls break off, both forms of the operation end there, with that fault.
* If not, without `mutate` both forms make one new sequence of the subject's kind. It holds
  what has been collected: the answers, as many as there were elements, or those of the
  elements for which the answer was yes.
* With `mutate` the same values are written over the subject, whatever has been written into it
  by then, each widened as the subject's declared type asks; all sequences with this store
  hold them. The operation is refused, and nothing written, exactly if one of the values does
  not fit the type or holds the subject. -/
theorem map_filter_on_snapshot {op : CollectionOp} (hop : op ∈ [.map, .filter]) {b : Builtin}
    (hb : Builtin.ofName? op.name = some b) {f : Value} (hf : f.isCallable = true) {m : Machine}
    (hm : Discipline.nested.Standing m) {id : SeqId} (hid : id < m.heap.size) (kind : SeqKind)
    (declared : Option Ty) (limit budget line : Nat) :
    (∃ calls k, op.Completes (perform limit budget) f line (m.heap.read id).toList m calls k ∧
      (op = .map → (op.collected calls).length = (m.heap.read id).size) ∧
      (∃ v n, op.apply (perform limit budget) (.seq kind id) [f] false declared line m = .ok v n ∧
        b.call (perform limit budget) [.seq kind id, f] line m = .ok v n ∧
        k.MakesSequence kind (op.collected calls) v n) ∧
      ((∀ v ∈ op.collected calls, k.heap.Takes id declared v) →
        ∃ n, op.apply (perform limit budget) (.seq kind id) [f] true declared line m =
          .ok (.seq kind id) n ∧ k.Overwrites id declared (op.collected calls) n) ∧
      ((∃ v ∈ op.collected calls, ¬ k.heap.Takes id declared v) →
        ∃ cause, op.apply (perform limit budget) (.seq kind id) [f] true declared line m =
          .error (.fault ⟨line, cause⟩) k)) ∨
    ∃ e k, op.Breaks (perform limit budget) f line (m.heap.read id).toList m e k ∧
      (∀ mutate, op.apply (perform limit budget) (.seq kind id) [f] mutate declared line m =
        .error e k) ∧
      b.call (perform limit budget) [.seq kind id, f] line m = .error e k := by
  have hforms : op.apply (perform limit budget) (.seq kind id) [f] false declared line =
      b.call (perform limit budget) [.seq kind id, f] line := by
    refine CollectionOp.apply_eq_call _ declared line hb ?_ fun _ => ⟨kind, id, rfl⟩
    rcases List.mem_pair.mp hop with rfl | rfl <;> rfl
  have hrun := CollectionOp.apply_eq_conclude hop (perform limit budget) f kind id
  have houtcome := CollectionOp.callbacks_outcome hop hf (perform limit budget) kind id line m
  cases hcalls : op.callbacks (perform limit budget) (.seq kind id) [f] line m with
  | ok items k =>
    rw [hcalls] at houtcome
    cases houtcome with
    | @completes calls _ hdone =>
      obtain ⟨hs, hsize, hknown⟩ := hdone.keeps hm
      refine .inl ⟨calls, k, hdone, ?_, ?_, ?_, ?_⟩
      · rintro rfl
        exact CollectionOp.length_collected_map hdone
      · obtain ⟨v, n, hok, hmakes⟩ := CollectionOp.conclude_new
        refine ⟨v, n, ?_, ?_, hmakes⟩
        · rw [hrun, bind_of_ok hcalls, hok]
        · rw [← hforms, hrun, bind_of_ok hcalls, hok]
      · intro htakes
        rw [hrun, bind_of_ok hcalls]
        exact CollectionOp.conclude_overwrites hs (Nat.lt_of_lt_of_le hid hsize) hknown htakes
      · intro hrefused
        rw [hrun, bind_of_ok hcalls]
        exact CollectionOp.conclude_refused hs hknown hrefused
  | error e k =>
    rw [hcalls] at houtcome
    cases houtcome with
    | breaks hbreaks =>
      have hall (mutate : Bool) : op.apply (perform limit budget) (.seq kind id) [f] mutate declared
          line m = .error e k := by
        rw [hrun, bind_of_error hcalls]
      refine .inr ⟨e, k, hbreaks, hall, ?_⟩
      rw [← hforms, hall false]

/-- With `xs` an `array<float>` that holds `[2.0, 1.0]`, the first call of
`xs.map(x => len(xs.filter(y => y == x, mutate: true)), mutate: true)` leaves one element in `xs`
and the second none. Both are made all the same, and `xs` holds their answers in the end, as
floating-point numbers. -/
theorem map_filter_on_snapshot_emptied :
    let p : Place := ⟨1, 1⟩
    let ty := Ty.array .float
    let values := Expr.items [.literal (.float 2.0) p, .literal (.float 1.0) p] p
    let m := ((Session.start 5).evaluate 4 [.declare "xs" (some ty) (some values) p]).2.machine
    let same := Expr.lambda "y" (.binary .eq (.ident "y" p) (.ident "x" p) p) p
    let mutate := [("mutate", Expr.literal (.bool true) p)]
    let kept := Expr.collection .filter (.ident "xs" p) [same] mutate p
    let f : Value := .func ⟨0, .lambda "x" (.call "len" [kept] p), m.frame⟩
    let xs : Value := .seq .array 0
    let change := CollectionOp.map.apply (perform 5 12) xs [f] true (some ty) 1
    Discipline.nested.Standing m ∧ 0 < m.heap.size ∧ m.heap.text xs = "[2.0, 1.0]" ∧
      ((CollectionOp.map.callbacks (perform 5 12) xs [f] 1).after m).heap.text xs = "[]" ∧
      (∃ calls k n, CollectionOp.map.Completes (perform 5 12) f 1 (m.heap.read 0).toList m calls k ∧
        change m = .ok xs n ∧ k.Overwrites 0 (some ty) (CollectionOp.map.collected calls) n) ∧
      (change.after m).heap.text xs = "[1.0, 0.0]" := by
  intro p ty values m same mutate kept f xs change
  have hm : Discipline.nested.Standing m :=
    (Session.Moment.between (.evaluate 4 _ (.start 5))).standing nested_start
  have hsize : 0 < m.heap.size := by decide +kernel
  have hsucceeds : change.fails m = false := by decide +kernel
  refine ⟨hm, hsize, by decide +kernel, by decide +kernel, ?_, by decide +kernel⟩
  have hchange : ∀ {e k}, change m ≠ .error e k := by
    intro e k herror
    simp [fails_of_error herror] at hsucceeds
  have hop : CollectionOp.map ∈ [CollectionOp.map, .filter] := by simp
  have hf : f.isCallable = true := rfl
  rcases map_filter_on_snapshot hop rfl hf hm hsize .array (some ty) 5 12 1 with
    ⟨calls, k, hdone, -, -, hwritten, hrefused⟩ | ⟨e, k, -, hall, -⟩
  · by_cases htakes : ∀ v ∈ CollectionOp.map.collected calls, k.heap.Takes 0 (some ty) v
    · obtain ⟨n, hok, hover⟩ := hwritten htakes
      exact ⟨calls, k, n, hdone, hok, hover⟩
    · push Not at htakes
      obtain ⟨cause, herror⟩ := hrefused htakes
      exact absurd herror hchange
  · exact absurd (hall true) hchange

end SeqScript
