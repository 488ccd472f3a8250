import SeqScript.Proofs.Reachable

/-!
# Regimes

A regime says what code the functions of a program may have, and with which
stops a run may end. `Alike` compares two runs begun on one machine under a
regime: they end alike, and as the regime asks. So it is two statements in one.
For two different ways to do tasks it says that they cannot be told apart; for
one way compared with itself it says how runs end.

The number of calls that are under way is part of what is known of a machine
(`Regime.Kept`). A call goes on with one more of them, and everything else with
as many as before.

The rules of this module are about the operations of the machine. They say of
stores, bindings and the register of returns that all functions there have code
that is allowed; the only way to a new function is `Alike.newClosure`.
-/

namespace SeqScript

/-- What functions may be made, and how runs may end. -/
structure Regime where
  /-- The code that functions may have. -/
  Allowed : Code → Prop
  /-- The stops with which runs may end. -/
  Stops : Stop → Prop
  stops_fault : ∀ f, Stops (.fault f)
  stops_disorder : ∀ row, Sequence.sort row = .ok none → Stops (.disorder row)

namespace Regime

variable (R : Regime)

/-- If a value is a function, its code is allowed. -/
def Proper (v : Value) : Prop := ∀ f, v = .func f → R.Allowed f.code

/-- A row whose functions all have code that is allowed. -/
def AllProper (vs : List Value) : Prop := ∀ v ∈ vs, R.Proper v

/-- All that stands in the stores of a heap is proper. -/
def Stored (h : Heap) : Prop := ∀ id, ∀ v ∈ h.read id, R.Proper v

/-- A machine with so many calls under way on which all values are proper. -/
structure Kept (depth : Nat) (m : Machine) : Prop where
  heap : R.Stored m.heap
  scopes : m.scopes.Every fun b => R.Proper b.value
  pending : ∀ v, m.pending = some v → R.Proper v
  depth : m.depth = depth

/-- How a run may end: on such a machine, and with a value that is as asked or
with a stop that the regime knows. -/
def Ends {α : Type} (depth : Nat) (Q : α → Prop) : EStateM.Result Stop Machine α → Prop
  | .ok x n => R.Kept depth n ∧ Q x
  | .error e n => R.Kept depth n ∧ R.Stops e

/-- Two runs end alike, and as the regime asks. -/
def Alike {α : Type} (depth : Nat) (a b : Run α) (m : Machine) (Q : α → Prop) : Prop :=
  b m = a m ∧ R.Ends depth Q (a m)

variable {R} {α β : Type} {d : Nat} {m n : Machine} {h h' : Heap} {v w : Value}
  {vs ws : List Value}

-- ---------------------------------------------------------------------------
-- Values
-- ---------------------------------------------------------------------------

/-- What refers to nothing is no function. -/
theorem proper_data (hv : v.isData = true) : R.Proper v := by
  rintro f rfl
  cases hv

/-- A sequence is no function, whatever it holds. -/
theorem proper_seq (kind : SeqKind) (id : SeqId) : R.Proper (.seq kind id) := by
  rintro f ⟨⟩

theorem allProper_nil : R.AllProper [] := by simp [AllProper]

theorem allProper_cons : R.AllProper (v :: vs) ↔ R.Proper v ∧ R.AllProper vs := by
  simp [AllProper]

/-- What is one of some proper values, or refers to nothing, is proper. -/
theorem AllProper.of_mem_or (hvs : R.AllProper vs) (hv : v ∈ vs ∨ v.isData = true) :
    R.Proper v :=
  hv.elim (hvs v) proper_data

-- ---------------------------------------------------------------------------
-- Heaps
-- ---------------------------------------------------------------------------

namespace Stored

theorem read (hh : R.Stored h) (id : SeqId) : R.AllProper (h.read id).toList :=
  fun v hv => hh id v (Array.mem_toList_iff.mp hv)

theorem newSeq (hh : R.Stored h) (hvs : R.AllProper vs) (kind : SeqKind) :
    R.Stored (h.newSeq kind vs).2 := by
  intro id v hv
  rw [Heap.read_newSeq] at hv
  split at hv
  · exact hvs v (List.mem_toArray.mp hv)
  · exact hh id v hv

/-- A store that is changed holds what the change leaves in it. -/
theorem modify (hh : R.Stored h) {id : SeqId} {f : Array Value → Array Value}
    (hf : ∀ v ∈ f (h.read id), R.Proper v) : R.Stored (h.modify id f) := by
  intro other v hv
  rw [Heap.read_modify] at hv
  split at hv
  · next hid =>
    obtain ⟨rfl, -⟩ := hid
    exact hf v hv
  · exact hh other v hv

/-- The run lemma of widening a row: what each element leaves, the next one
starts from. -/
theorem conformAll {f : Value → Heap → Option (Conformed Value)}
    (hf : ∀ v h c, R.Stored h → R.Proper v → f v h = some c → R.Stored c.heap ∧ R.Proper c.value)
    {c : Conformed (List Value)} (hh : R.Stored h) (hvs : R.AllProper vs)
    (hc : conformAll f vs h = some c) : R.Stored c.heap ∧ R.AllProper c.value := by
  induction vs generalizing h c with
  | nil =>
    obtain rfl := Option.some.inj hc
    exact ⟨hh, allProper_nil⟩
  | cons v vs ih =>
    obtain ⟨hv, hvs⟩ := allProper_cons.mp hvs
    rw [SeqScript.conformAll] at hc
    split at hc
    · simp at hc
    · next first hfirst =>
      split at hc
      · simp at hc
      · next rest hrest =>
        obtain rfl := Option.some.inj hc
        obtain ⟨hheap, hvalue⟩ := hf v h first hh hv hfirst
        obtain ⟨hheap', hvalues⟩ := ih (c := rest) hheap hvs hrest
        exact ⟨hheap', allProper_cons.mpr ⟨hvalue, hvalues⟩⟩

/-- Fitting a type copies arrays, and changes no function on the way. -/
theorem conform {ty : Ty} {c : Conformed Value} (hh : R.Stored h) (hv : R.Proper v)
    (hc : conform ty v h = some c) : R.Stored c.heap ∧ R.Proper c.value := by
  refine ⟨?_, fun f hf => hv f (conform_eq_func hc hf)⟩
  induction ty generalizing v h c with
  | array t ih =>
    rcases conform_cases hc with ⟨-, -, hheap, -⟩ | ⟨_, _, hty, -⟩ |
      ⟨t', id, items, hty, -, hitems, hres⟩
    · exact hheap ▸ hh
    · cases hty
    · obtain rfl := Ty.array.inj hty
      have hcopy : ∀ v h c, R.Stored h → R.Proper v → SeqScript.conform t v h = some c →
          R.Stored c.heap ∧ R.Proper c.value :=
        fun v h c hh hv hc => ⟨ih hh hv hc, fun f hf => hv f (conform_eq_func hc hf)⟩
      obtain ⟨hheap, hvalues⟩ := conformAll hcopy hh (hh.read id) hitems
      rcases hres with rfl | rfl
      · exact hheap
      · exact hheap.newSeq hvalues .array
  | _ =>
    rcases conform_cases hc with ⟨-, -, hheap, -⟩ | ⟨_, _, _, _, rfl⟩ | ⟨_, _, _, hty, _⟩
    · exact hheap ▸ hh
    · exact hh
    · cases hty

theorem assignableElement {container : Option Ty} (hh : R.Stored h) (hv : R.Proper v)
    (hok : assignableElement h container v = .ok (w, h')) : R.Stored h' ∧ R.Proper w := by
  rcases conform_of_assignableElement hok with ⟨rfl, rfl⟩ | ⟨t, c, hc, rfl, rfl⟩
  · exact ⟨hh, hv⟩
  · exact hh.conform hv hc

/-- What may be put into a store was made to fit first. -/
theorem insertable {store : SeqId} {declared : Option Ty} (hh : R.Stored h)
    (hvs : R.AllProper vs) (hok : insertable store declared vs h = .ok (ws, h')) :
    R.Stored h' ∧ R.AllProper ws := by
  induction vs generalizing h ws with
  | nil =>
    obtain ⟨rfl, rfl⟩ := Prod.mk.inj (Except.ok.inj hok)
    exact ⟨hh, allProper_nil⟩
  | cons v vs ih =>
    obtain ⟨hv, hvs⟩ := allProper_cons.mp hvs
    obtain ⟨w, h₁, rest, rfl, -, hw, hrest⟩ := insertable_cons hok
    obtain ⟨hheap, hvalue⟩ := hh.assignableElement hv hw
    obtain ⟨hheap', hvalues⟩ := ih hheap hvs hrest
    exact ⟨hheap', allProper_cons.mpr ⟨hvalue, hvalues⟩⟩

/-- An element that is written is the value, or computed from it. -/
theorem elementWrite {id : SeqId} {declared : Option Ty} {op : AssignOp} {index : Value}
    {e : ElementWrite} (hh : R.Stored h) (hv : R.Proper v)
    (hok : elementWrite h id declared op index v = .ok e) :
    R.Stored (e.heap.modify id (·.setIfInBounds e.index e.value)) := by
  obtain ⟨u, hu, hassign, -⟩ := elementWrite_eq_ok hok
  have hproper : R.Proper u := hu.elim (fun heq => heq ▸ hv) proper_data
  obtain ⟨hheap, hvalue⟩ := hh.assignableElement hproper hassign
  refine hheap.modify ?_
  intro x hx
  rcases Array.mem_or_eq_of_mem_setIfInBounds hx with hx | rfl
  · exact hheap id x hx
  · exact hvalue

end Stored

-- ---------------------------------------------------------------------------
-- Runs one after another
-- ---------------------------------------------------------------------------

/-- What a name is bound to was put into a frame under the regime. -/
theorem Kept.proper_lookup? (hm : R.Kept d m) {name : String} {b : Binding}
    (hb : m.scopes.lookup? m.frame name = some b) : R.Proper b.value := by
  obtain ⟨o, -, ho⟩ := Option.bind_eq_some_iff.mp hb
  exact hm.scopes.local? ho

namespace Alike

variable {a b : Run α} {f g : α → Run β} {Q : α → Prop} {Q' : β → Prop}

/-- An operation that runs through, whichever it is. -/
theorem of_ok {x : α} (hrun : a m = .ok x n) (hn : R.Kept d n) (hx : Q x) :
    R.Alike d a a m Q := by
  refine ⟨rfl, ?_⟩
  rw [hrun]
  exact ⟨hn, hx⟩

theorem pure {x : α} (hm : R.Kept d m) (hx : Q x) : R.Alike d (Pure.pure x) (Pure.pure x) m Q :=
  of_ok rfl hm hx

/-- A run may end with any stop that the regime has. -/
theorem throw {e : Stop} (hm : R.Kept d m) (he : R.Stops e) :
    R.Alike d (throw e) (throw e) m Q :=
  ⟨rfl, hm, he⟩

/-- Faults are in every regime. -/
theorem fail {line : Nat} {cause : Cause} (hm : R.Kept d m) :
    R.Alike d (Run.fail line cause) (Run.fail line cause) m Q :=
  throw hm (R.stops_fault _)

/-- Two runs go on from one machine with one value, which is as the first parts
promise. -/
theorem bind (h : R.Alike d a b m Q)
    (hnext : ∀ x n, R.Kept d n → Q x → R.Alike d (f x) (g x) n Q') :
    R.Alike d (a >>= f) (b >>= g) m Q' := by
  obtain ⟨heq, hends⟩ := h
  cases hrun : a m with
  | error e n =>
    rw [hrun] at heq hends
    unfold Alike
    rw [Run.bind_of_error hrun, Run.bind_of_error heq]
    exact ⟨rfl, hends⟩
  | ok x n =>
    rw [hrun] at heq hends
    obtain ⟨hn, hx⟩ := hends
    unfold Alike
    rw [Run.bind_of_ok hrun, Run.bind_of_ok heq]
    exact hnext x n hn hx

/-- Two runs whose value is not looked at any more. -/
theorem bind_pure {x : β} (h : R.Alike d a b m Q) (hx : Q' x) :
    R.Alike d (do let _ ← a; return x) (do let _ ← b; return x) m Q' :=
  h.bind fun _ _ hn _ => .pure hn hx

-- ---------------------------------------------------------------------------
-- Reading
-- ---------------------------------------------------------------------------

theorem get_bind {f g : Machine → Run β} (h : R.Alike d (f m) (g m) m Q') :
    R.Alike d (get >>= f) (get >>= g) m Q' := h

theorem heap_bind {f g : Heap → Run β} (h : R.Alike d (f m.heap) (g m.heap) m Q') :
    R.Alike d (Run.heap >>= f) (Run.heap >>= g) m Q' := h

/-- What is read from a store is the same for both. -/
theorem read_bind {id : SeqId} {f g : List Value → Run β}
    (h : R.Alike d (f (m.heap.read id).toList) (g (m.heap.read id).toList) m Q') :
    R.Alike d (Run.read id >>= f) (Run.read id >>= g) m Q' := h

/-- So is what a name is bound to. -/
theorem lookup?_bind {name : String} {f g : Option Binding → Run β}
    (h : R.Alike d (f (m.scopes.lookup? m.frame name)) (g (m.scopes.lookup? m.frame name)) m Q') :
    R.Alike d (Run.lookup? name >>= f) (Run.lookup? name >>= g) m Q' := h

theorem declared?_bind {name : String} {f g : Option Ty → Run β}
    (h : ∀ ty, R.Alike d (f ty) (g ty) m Q') :
    R.Alike d (Run.declared? name >>= f) (Run.declared? name >>= g) m Q' :=
  h (m.scopes.declared? m.frame name)

/-- A computation without effects goes on or faults on both sides. -/
theorem charge_bind {line : Nat} {x : Except Cause α} (hm : R.Kept d m)
    (h : ∀ y, x = .ok y → R.Alike d (f y) (g y) m Q') :
    R.Alike d (Run.charge line x >>= f) (Run.charge line x >>= g) m Q' := by
  cases x with
  | error cause => exact Alike.fail hm (Q := Q')
  | ok y => exact h y rfl

theorem charge {line : Nat} {x : Except Cause α} (hm : R.Kept d m) (h : ∀ y, x = .ok y → Q y) :
    R.Alike d (Run.charge line x) (Run.charge line x) m Q := by
  cases x with
  | error cause => exact .fail hm
  | ok y => exact .pure hm (h y rfl)

/-- A name is read, or a fault says that there is none. -/
theorem valueOf {line : Nat} {name : String} {cause : Cause} (hm : R.Kept d m) :
    R.Alike d (Run.valueOf line name cause) (Run.valueOf line name cause) m R.Proper := by
  refine lookup?_bind ?_
  cases hb : m.scopes.lookup? m.frame name with
  | none => exact .fail hm
  | some b => exact .pure hm (hm.proper_lookup? hb)

/-- The elements of a sequence are those of its store, and proper. -/
theorem sequence_bind {line : Nat} {cause : Kind → Cause} {v : Value}
    {f g : Run.Snapshot → Run β} (hm : R.Kept d m)
    (h : ∀ s, R.AllProper s.items → R.Alike d (f s) (g s) m Q') :
    R.Alike d (Run.sequence line cause v >>= f) (Run.sequence line cause v >>= g) m Q' := by
  cases v with
  | seq kind id => exact h ⟨kind, id, (m.heap.read id).toList⟩ (hm.heap.read id)
  | _ => exact Alike.fail hm (Q := Q')

-- ---------------------------------------------------------------------------
-- Writing
-- ---------------------------------------------------------------------------

theorem newSeq {kind : SeqKind} (hm : R.Kept d m) (hvs : R.AllProper vs) :
    R.Alike d (Run.newSeq kind vs) (Run.newSeq kind vs) m R.Proper :=
  of_ok rfl ⟨hm.heap.newSeq hvs kind, hm.scopes, hm.pending, hm.depth⟩ (proper_seq _ _)

theorem update {id : SeqId} {f : Array Value → Array Value} (hm : R.Kept d m)
    (hf : ∀ v ∈ f (m.heap.read id), R.Proper v) :
    R.Alike d (Run.update id f) (Run.update id f) m fun _ => True :=
  of_ok rfl ⟨hm.heap.modify hf, hm.scopes, hm.pending, hm.depth⟩ trivial

theorem setHeap {h : Heap} (hm : R.Kept d m) (hh : R.Stored h) :
    R.Alike d (Run.setHeap h) (Run.setHeap h) m fun _ => True :=
  of_ok rfl ⟨hh, hm.scopes, hm.pending, hm.depth⟩ trivial

/-- A heap that is put in place and changed at once needs to be right only
afterwards. -/
theorem setHeap_update {h : Heap} {id : SeqId} {f : Array Value → Array Value}
    (hm : R.Kept d m) (hh : R.Stored (h.modify id f)) :
    R.Alike d (do Run.setHeap h; Run.update id f) (do Run.setHeap h; Run.update id f) m
      fun _ => True :=
  of_ok rfl ⟨hh, hm.scopes, hm.pending, hm.depth⟩ trivial

/-- A value is made to fit a type, which may make new stores. -/
theorem assignable {line : Nat} {ty : Ty} (hm : R.Kept d m) (hv : R.Proper v) :
    R.Alike d (Run.assignable line ty v) (Run.assignable line ty v) m R.Proper := by
  refine heap_bind ?_
  refine charge_bind hm ?_
  rintro ⟨w, h⟩ hok
  obtain ⟨c, hc, rfl, rfl⟩ := conform_of_assignable hok
  obtain ⟨hheap, hvalue⟩ := hm.heap.conform hv hc
  exact (setHeap hm hheap).bind_pure hvalue

theorem assignable? {line : Nat} {ty : Option Ty} (hm : R.Kept d m) (hv : R.Proper v) :
    R.Alike d (Run.assignable? line ty v) (Run.assignable? line ty v) m R.Proper := by
  cases ty with
  | none => exact .pure hm hv
  | some t => exact assignable hm hv

theorem define {name : String} {ty : Option Ty} (hm : R.Kept d m) (hv : R.Proper v) :
    R.Alike d (Run.define name v ty) (Run.define name v ty) m fun _ => True :=
  of_ok rfl ⟨hm.heap, hm.scopes.define hv m.frame name, hm.pending, hm.depth⟩ trivial

/-- The run lemma of binding names, one after the other. -/
theorem defineAll {rows : List (String × Value)} (hm : R.Kept d m)
    (hrows : ∀ row ∈ rows, R.Proper row.2) :
    R.Alike d (Run.defineAll rows) (Run.defineAll rows) m fun _ => True := by
  induction rows generalizing m with
  | nil => exact .pure hm trivial
  | cons row rest ih =>
    refine (define hm (hrows row (List.mem_cons_self ..))).bind ?_
    intro _ n hn _
    exact ih hn fun r hr => hrows r (List.mem_cons_of_mem _ hr)

theorem assign {name : String} (hm : R.Kept d m) (hv : R.Proper v) :
    R.Alike d (Run.assign name v) (Run.assign name v) m fun _ => True :=
  of_ok rfl ⟨hm.heap, hm.scopes.assign hv, hm.pending, hm.depth⟩ trivial

/-- The one way to a new function. -/
theorem newClosure {code : Code} (hm : R.Kept d m) (hcode : R.Allowed code) :
    R.Alike d (Run.newClosure code) (Run.newClosure code) m R.Proper := by
  refine of_ok rfl ⟨hm.heap, hm.scopes, hm.pending, hm.depth⟩ ?_
  rintro f ⟨⟩
  exact hcode

theorem print (hm : R.Kept d m) :
    R.Alike d (Run.print vs) (Run.print vs) m fun _ => True :=
  of_ok rfl ⟨hm.heap, hm.scopes, hm.pending, hm.depth⟩ trivial

theorem play (hm : R.Kept d m) :
    R.Alike d (Run.play vs) (Run.play vs) m fun _ => True :=
  of_ok rfl ⟨hm.heap, hm.scopes, hm.pending, hm.depth⟩ trivial

-- ---------------------------------------------------------------------------
-- Returns
-- ---------------------------------------------------------------------------

/-- A return puts its value aside. -/
theorem setPending (hm : R.Kept d m) (hv : R.Proper v) :
    R.Alike d (Run.setPending v) (Run.setPending v) m fun _ => True := by
  refine of_ok rfl ⟨hm.heap, hm.scopes, ?_, hm.depth⟩ trivial
  rintro _ ⟨⟩
  exact hv

/-- A call gives the value that was put aside, or that of its last statement. -/
theorem takePending {last : Value} (hm : R.Kept d m) (hlast : R.Proper last) :
    R.Alike d (Run.takePending last) (Run.takePending last) m R.Proper := by
  refine of_ok rfl ⟨hm.heap, hm.scopes, by simp, hm.depth⟩ ?_
  show R.Proper (m.pending.getD last)
  cases hp : m.pending with
  | none => exact hlast
  | some v => exact hm.pending v hp

/-- What is left of a body is done only if no return is under way, which both
runs know alike. -/
theorem unless_returning {x : α} (hm : R.Kept d m) (hx : Q x) (h : R.Alike d a b m Q) :
    R.Alike d (do if ← Run.returning then return x else a)
      (do if ← Run.returning then return x else b) m Q := by
  have hopen : ∀ act : Run α, (do if ← Run.returning then return x else act : Run α) m =
      (if m.pending.isSome then (return x : Run α) else act) m := fun _ => rfl
  unfold Alike
  rw [hopen a, hopen b]
  cases m.pending.isSome with
  | true => exact Alike.pure hm hx
  | false => exact h

-- ---------------------------------------------------------------------------
-- Frames and calls
-- ---------------------------------------------------------------------------

/-- At the end of a block or a call the machine is put back, after a value as
after a stop. -/
theorem restoring {e : Nat} {restore : Machine → Machine} (h : R.Alike e a b m Q)
    (hback : ∀ n, R.Kept e n → R.Kept d (restore n)) :
    R.Alike d (Run.restoring restore a) (Run.restoring restore b) m Q := by
  obtain ⟨heq, hends⟩ := h
  unfold Alike Run.restoring
  rw [heq]
  cases hrun : a m with
  | error e n =>
    rw [hrun] at hends
    exact ⟨rfl, hback n hends.1, hends.2⟩
  | ok x n =>
    rw [hrun] at hends
    exact ⟨rfl, hback n hends.1, hends.2⟩

/-- A block runs with as many calls under way as what is around it. -/
theorem scope (hm : R.Kept d m) (h : ∀ n, R.Kept d n → R.Alike d a b n Q) :
    R.Alike d (do let f ← Run.newFrame; Run.inFrame f a)
      (do let f ← Run.newFrame; Run.inFrame f b) m Q := by
  let inside : Machine :=
    { m with scopes := (m.scopes.child m.frame).2, frame := (m.scopes.child m.frame).1 }
  let back : Machine → Machine := fun n => { n with frame := m.frame }
  have hin : R.Kept d inside := ⟨hm.heap, hm.scopes.push _, hm.pending, hm.depth⟩
  have hrun : R.Alike d (Run.restoring back a) (Run.restoring back b) inside Q :=
    restoring (h inside hin) fun n hn => ⟨hn.heap, hn.scopes, hn.pending, hn.depth⟩
  exact hrun

/-- A call runs with one more, and comes back with as many as before. -/
theorem call {p : FrameId} (hm : R.Kept d m)
    (h : ∀ n, R.Kept (d + 1) n → R.Alike (d + 1) a b n Q) :
    R.Alike d (do let f ← Run.childOf p; Run.inCall f a)
      (do let f ← Run.childOf p; Run.inCall f b) m Q := by
  let inside : Machine :=
    { m with
      scopes := (m.scopes.child p).2, frame := (m.scopes.child p).1, depth := m.depth + 1,
      pending := none }
  let back : Machine → Machine := fun n =>
    { n with frame := m.frame, depth := n.depth - 1, pending := m.pending }
  have hin : R.Kept (d + 1) inside :=
    ⟨hm.heap, hm.scopes.push _, by simp [inside], congrArg (· + 1) hm.depth⟩
  have hback : ∀ n, R.Kept (d + 1) n → R.Kept d (back n) := by
    intro n hn
    refine ⟨hn.heap, hn.scopes, hm.pending, ?_⟩
    show n.depth - 1 = d
    rw [hn.depth]
    rfl
  have hrun : R.Alike d (Run.restoring back a) (Run.restoring back b) inside Q :=
    restoring (h inside hin) hback
  exact hrun

end Alike

end Regime

end SeqScript
