import SeqScript.Proofs.Conform
import SeqScript.Proofs.Reachable

/-!
# Writes that happen whole or not at all

Declarations, assignments and dotted operations first let other code run: the
expressions they are made of, and the functions that `map` and `filter` call.
What that code does stays done. What comes after it is their own, and of that
everything is checked before anything is written. `Run.AllOrNothing` says so of
any run: if it fails, the machine is the one its operands left.

Of what an operation itself writes when it succeeds, `OwnWrite` says how far it
reaches: into no store that was there but its subject's.
-/

namespace SeqScript

-- ---------------------------------------------------------------------------
-- Runs that add one write to what their operands did
-- ---------------------------------------------------------------------------

namespace Run

variable {α β γ : Type} {own : Machine → Machine → Prop} {m n : Machine}

/-- `act` does what `operands` does and then either fails, with nothing more
done, or takes the machine one step further as `own` says. -/
structure AllOrNothing (own : Machine → Machine → Prop) (operands : Run α) (act : Run β)
    (m : Machine) : Prop where
  failed : act.fails m = true → act.after m = operands.after m
  done : act.fails m = false →
    operands.fails m = false ∧ own (operands.after m) (act.after m)

theorem fails_of_ok {act : Run α} {a : α} (h : act m = .ok a n) : act.fails m = false := by
  simp only [fails, h]

theorem fails_of_error {act : Run α} {e : Stop} (h : act m = .error e n) : act.fails m = true := by
  simp only [fails, h]

theorem after_of_ok {act : Run α} {a : α} (h : act m = .ok a n) : act.after m = n := by
  simp only [after, h]

theorem after_of_error {act : Run α} {e : Stop} (h : act m = .error e n) : act.after m = n := by
  simp only [after, h]

/-- Making something of the value changes neither the machine nor whether the
run fails. -/
theorem after_bind_pure (act : Run α) (f : α → β) (m : Machine) :
    (act >>= fun a => pure (f a)).after m = act.after m ∧
      (act >>= fun a => pure (f a)).fails m = act.fails m := by
  simp only [after, fails, Bind.bind, EStateM.bind]
  cases act m <;> exact ⟨rfl, rfl⟩

namespace AllOrNothing

/-- Only how the two end matters. -/
theorem congr {operands operands' : Run α} {act act' : Run β} (ho : operands m = operands' n)
    (ha : act m = act' n) (h : AllOrNothing own operands' act' n) :
    AllOrNothing own operands act m := by
  obtain ⟨hfailed, hdone⟩ := h
  constructor <;> simp only [fails, after, ho, ha] <;> assumption

/-- Both start by doing the same. -/
theorem bind {first : Run α} {operands : α → Run β} {act : α → Run γ}
    (h : ∀ a n, first m = .ok a n → AllOrNothing own (operands a) (act a) n) :
    AllOrNothing own (first >>= operands) (first >>= act) m := by
  cases hfirst : first m with
  | ok a n => exact (h a n hfirst).congr (bind_of_ok hfirst) (bind_of_ok hfirst)
  | error e n =>
    have hoperands : (first >>= operands) m = .error e n := bind_of_error hfirst
    have hact : (first >>= act) m = .error e n := bind_of_error hfirst
    constructor
    · intro _
      rw [after_of_error hact, after_of_error hoperands]
    · intro hfails
      simp [fails_of_error hact] at hfails

/-- The operands are all that is done first. -/
theorem after_operands {operands : Run α} {act : α → Run β}
    (h : ∀ a n, operands m = .ok a n → AllOrNothing own (pure a : Run α) (act a) n) :
    AllOrNothing own operands (operands >>= act) m := by
  have hbind : AllOrNothing own (operands >>= pure) (operands >>= act) m := bind h
  rwa [bind_pure] at hbind

/-- A result that is only rephrased writes nothing. -/
theorem bind_pure_right {operands : Run α} {act : Run β} (f : β → γ)
    (h : AllOrNothing own operands act m) :
    AllOrNothing own operands (act >>= fun b => pure (f b)) m := by
  obtain ⟨hafter, hfails⟩ := after_bind_pure act f m
  constructor
  · rw [hfails, hafter]
    exact h.failed
  · rw [hfails, hafter]
    exact h.done

-- What follows is about runs without operands, or whose operands are done.
variable {a : α}

/-- A run that succeeds has to have written what it may. -/
theorem of_ok {act : Run β} {b : β} (h : act m = .ok b n) (hown : own m n) :
    AllOrNothing own (pure a : Run α) act m where
  failed hfails := by simp [fails_of_ok h] at hfails
  done _ := by
    rw [after_of_ok h]
    exact ⟨rfl, hown⟩

/-- A run that fails must leave the machine as it is. -/
theorem of_error {act : Run β} {e : Stop} (h : act m = .error e m) :
    AllOrNothing own (pure a : Run α) act m where
  failed _ := by
    rw [after_of_error h]
    rfl
  done hfails := by simp [fails_of_error h] at hfails

theorem fail {line : Nat} {cause : Cause} :
    AllOrNothing own (pure a : Run α) (Run.fail line cause : Run β) m :=
  of_error rfl

theorem charge {line : Nat} {x : Except Cause β} (hown : own m m) :
    AllOrNothing own (pure a : Run α) (Run.charge line x) m := by
  cases x with
  | ok b => exact of_ok rfl hown
  | error cause => exact of_error rfl

/-- Checks that fail leave the machine as it is. -/
theorem charge_bind {line : Nat} {x : Except Cause β} {next : β → Run γ}
    (h : ∀ b, x = .ok b → AllOrNothing own (pure a : Run α) (next b) m) :
    AllOrNothing own (pure a : Run α) (Run.charge line x >>= next) m := by
  cases x with
  | ok b => exact h b rfl
  | error cause => exact of_error rfl

theorem heap_bind {next : Heap → Run β}
    (h : AllOrNothing own (pure a : Run α) (next m.heap) m) :
    AllOrNothing own (pure a : Run α) (heap >>= next) m := by
  refine congr ?_ ?_ h <;> rfl

/-- A subject that is no sequence is refused before anything is written. -/
theorem sequence_bind {line : Nat} {cause : Kind → Cause} {v : Value} {next : Snapshot → Run β}
    (h : ∀ kind id, v = .seq kind id →
      AllOrNothing own (pure a : Run α) (next ⟨kind, id, (m.heap.read id).toList⟩) m) :
    AllOrNothing own (pure a : Run α) (sequence line cause v >>= next) m := by
  cases v with
  | seq kind id =>
    have hnext := h kind id rfl
    refine congr ?_ ?_ hnext <;> rfl
  | _ => exact of_error rfl

/-- A value is checked against a type, and copied if need be, before it goes
anywhere. -/
theorem assignable?_bind {line : Nat} {ty : Option Ty} {v : Value} {next : Value → Run β}
    (hnext : ∀ w h, ∃ b n, next w { m with heap := h } = .ok b n) :
    AllOrNothing (fun _ _ => True) (pure a : Run α) (assignable? line ty v >>= next) m := by
  cases ty with
  | none =>
    obtain ⟨b, n, hok⟩ := hnext v m.heap
    exact of_ok hok trivial
  | some t =>
    have hact : (assignable? line (some t) v >>= next) m =
        (Run.charge line (SeqScript.assignable m.heap t v) >>= fun r => do
          setHeap r.2
          next r.1) m := by
      show (adopt line (SeqScript.assignable m.heap t v) >>= next) m = _
      cases SeqScript.assignable m.heap t v <;> rfl
    refine congr rfl hact (charge_bind ?_)
    intro r _
    obtain ⟨b, n, hok⟩ := hnext r.1 r.2
    exact of_ok hok trivial

end AllOrNothing

end Run

-- ---------------------------------------------------------------------------
-- What declarations and assignments evaluate
-- ---------------------------------------------------------------------------

/-- Does tasks one after another. -/
def Doer.doAll (self : Doer) : List Task → Run Unit
  | [] => return ()
  | t :: ts => do
    let _ ← self t
    self.doAll ts

/-- The tasks that a declaration or an assignment has done before it does
anything itself; none of them is begun if the target of a compound assignment or
of one to an element is not bound. Other statements have no such tasks. -/
def Stmt.operands? (m : Machine) : Stmt → Option (List Task)
  | .declare _ ty value _ => some (value.map (Task.eval ty)).toList
  | .assign target op value _ =>
    match op.combine?, m.scopes.lookup? m.frame target with
    | none, _ => some [.eval (m.scopes.declared? m.frame target) value]
    | some _, some _ => some [.eval none value]
    | some _, none => some []
  | .assignIndex target position _ value _ =>
    match m.scopes.lookup? m.frame target with
    | some _ => some [.eval none position, .eval none value]
    | none => some []
  | _ => none

/-- What a variable holds that is declared without a value fits its type. -/
theorem assignable_defaultValue (h : Heap) (ty : Ty) :
    assignable (defaultValue h ty).2 ty (defaultValue h ty).1 = .ok (defaultValue h ty) := by
  cases ty with
  | array t =>
    have hread : (h.newSeq .array []).2.read h.size = #[] := by
      rw [Heap.read_newSeq, if_pos rfl]
    simp [defaultValue, assignable, conform, hread]
    rfl
  | _ => rfl

namespace Run

variable {m : Machine} {name : String}

theorem lookup?_bind {β : Type} {next : Option Binding → Run β} :
    (lookup? name >>= next) m = next (m.scopes.lookup? m.frame name) m := rfl

/-- Reading a name leaves the machine as it is. -/
theorem valueOf_of_some {line : Nat} {cause : Cause} {b : Binding}
    (h : m.scopes.lookup? m.frame name = some b) : valueOf line name cause m = .ok b.value m := by
  rw [valueOf, lookup?_bind, h]
  rfl

theorem valueOf_of_none {line : Nat} {cause : Cause}
    (h : m.scopes.lookup? m.frame name = none) :
    valueOf line name cause m = .error (.fault ⟨line, cause⟩) m := by
  rw [valueOf, lookup?_bind, h]
  rfl

end Run

namespace Doer

open Run

variable (self : Doer) (m : Machine)

/-- A declaration checks the value against its type before the name is bound. -/
theorem allOrNothing_declare (name : String) (ty : Option Ty) (value : Option Expr) (line : Nat) :
    AllOrNothing (fun _ _ => True) (self.doAll (value.map (Task.eval ty)).toList)
      (self.execDeclare name ty value line) m := by
  cases value with
  | some e =>
    refine AllOrNothing.bind ?_
    intro v n _
    exact .assignable?_bind fun w h => ⟨_, _, rfl⟩
  | none =>
    cases ty with
    | none => exact .of_ok rfl trivial
    | some t =>
      have hact : self.execDeclare name (some t) none line m =
          (adopt line (assignable (defaultValue m.heap t).2 t (defaultValue m.heap t).1) >>=
            fun v => define name v (some t)) { m with heap := (defaultValue m.heap t).2 } := rfl
      rw [assignable_defaultValue] at hact
      exact .of_ok hact trivial

/-- An assignment checks it before the name is bound anew. -/
theorem allOrNothing_assign (target : String) (op : AssignOp) (value : Expr) (p : Place)
    {tasks : List Task} (htasks : (Stmt.assign target op value p).operands? m = some tasks) :
    AllOrNothing (fun _ _ => True) (self.doAll tasks)
      (self.execAssign target op value p.line) m := by
  simp only [Stmt.operands?] at htasks
  -- the declared type is looked up first, and stays what it was then
  have hact : self.execAssign target op value p.line m =
      (self.assigned target op (m.scopes.declared? m.frame target) value p.line >>= fun v => do
        let v ← assignable? p.line (m.scopes.declared? m.frame target) v
        assign target v) m := rfl
  cases hop : op.combine? with
  | none =>
    simp only [hop] at htasks
    obtain rfl := Option.some.inj htasks
    simp only [assigned, hop] at hact
    refine AllOrNothing.congr rfl hact (AllOrNothing.bind ?_)
    intro v n _
    exact .assignable?_bind fun w h => ⟨_, _, rfl⟩
  | some binary =>
    simp only [assigned, hop, bind_assoc] at hact
    cases hbound : m.scopes.lookup? m.frame target with
    | none =>
      simp only [hop, hbound] at htasks
      obtain rfl := Option.some.inj htasks
      rw [bind_of_error (valueOf_of_none hbound)] at hact
      exact .of_error hact
    | some b =>
      simp only [hop, hbound] at htasks
      obtain rfl := Option.some.inj htasks
      rw [bind_of_ok (valueOf_of_some hbound)] at hact
      refine AllOrNothing.congr rfl hact (AllOrNothing.bind ?_)
      intro v n _
      refine AllOrNothing.heap_bind (AllOrNothing.charge_bind ?_)
      intro w _
      exact .assignable?_bind fun w h => ⟨_, _, rfl⟩

/-- One to an element checks position, type and insertion before the store is
touched. -/
theorem allOrNothing_assignIndex (target : String) (position : Expr) (op : AssignOp)
    (value : Expr) (p : Place) {tasks : List Task}
    (htasks : (Stmt.assignIndex target position op value p).operands? m = some tasks) :
    AllOrNothing (fun _ _ => True) (self.doAll tasks)
      (self.execAssignIndex target position op value p.line) m := by
  have hact : self.execAssignIndex target position op value p.line m = _ := lookup?_bind
  cases hbound : m.scopes.lookup? m.frame target with
  | none =>
    simp only [Stmt.operands?, hbound] at htasks
    obtain rfl := Option.some.inj htasks
    rw [hbound] at hact
    exact .of_error hact
  | some b =>
    simp only [Stmt.operands?, hbound] at htasks
    obtain rfl := Option.some.inj htasks
    rw [hbound] at hact
    refine AllOrNothing.congr rfl hact (AllOrNothing.bind ?_)
    intro index n _
    refine AllOrNothing.bind ?_
    intro v n' _
    split
    · refine AllOrNothing.heap_bind (AllOrNothing.charge_bind ?_)
      intro w _
      exact .of_ok rfl trivial
    · exact .fail

/-- A declaration or an assignment that fails leaves what its operands left. -/
theorem allOrNothing_execStmt {s : Stmt} {tasks : List Task} (htasks : s.operands? m = some tasks) :
    AllOrNothing (fun _ _ => True) (self.doAll tasks) (self.execStmt s) m := by
  cases s with
  | declare name ty value p =>
    obtain rfl := Option.some.inj htasks
    exact (self.allOrNothing_declare m name ty value p.line).bind_pure_right fun _ => Value.unit
  | assign target op value p =>
    exact (self.allOrNothing_assign m target op value p htasks).bind_pure_right fun _ => Value.unit
  | assignIndex target position op value p =>
    exact (self.allOrNothing_assignIndex m target position op value p htasks).bind_pure_right
      fun _ => Value.unit
  | _ => simp [Stmt.operands?] at htasks

end Doer

-- ---------------------------------------------------------------------------
-- What dotted operations call
-- ---------------------------------------------------------------------------

/-- The elements of a sequence; other values have none. -/
def Heap.elements (h : Heap) (v : Value) : List Value :=
  match v.store? with
  | some id => (h.read id).toList
  | none => []

namespace CollectionOp

open Run

/-- The calls that `map` and `filter` make, for each of a row of values. -/
def calls (op : CollectionOp) (args : List Value) (line : Nat) (items : List Value) : List Task :=
  match op, args with
  | map, [f] | filter, [f] => items.map fun v => .call f [v] line
  | _, _ => []

/-- The part of an operation in which the functions of a program run. -/
def callbacks (self : Doer) (op : CollectionOp) (target : Value) (args : List Value)
    (line : Nat) : Run (List Value) := do
  match op, target, args with
  | map, .seq _ id, [f] => self.map f line (← read id)
  | filter, .seq _ id, [f] => self.filter f line (← read id)
  | _, _, _ => return []

end CollectionOp

namespace Doer

open Run

variable (self : Doer) (f : Value) (line : Nat)

theorem doAll_cons_of_ok {t : Task} {ts : List Task} {m n : Machine} {v : Value}
    (h : self t m = .ok v n) : (self.doAll (t :: ts)).after m = (self.doAll ts).after n := by
  simp only [after, doAll, bind_of_ok h]

theorem doAll_cons_of_error {t : Task} {ts : List Task} {m n : Machine} {e : Stop}
    (h : self t m = .error e n) : (self.doAll (t :: ts)).after m = n := by
  simp only [after, doAll, bind_of_error h]

/-- The run lemma of `map`: what it leaves is what its calls leave, up to the
first that fails. -/
theorem after_mapItems (items : List Value) (m : Machine) :
    (self.mapItems f line items).after m =
      (self.doAll (items.map fun v => .call f [v] line)).after m := by
  induction items generalizing m with
  | nil => rfl
  | cons v vs ih =>
    rw [List.map_cons]
    cases hcall : self (.call f [v] line) m with
    | error e n =>
      rw [self.doAll_cons_of_error hcall, mapItems]
      exact after_of_error (bind_of_error hcall)
    | ok w n =>
      rw [self.doAll_cons_of_ok hcall, ← ih n, ← (after_bind_pure _ (w :: ·) n).1]
      simp only [after, mapItems, bind_of_ok hcall]

/-- The calls stop where one fails or does not say whether a value stays. -/
theorem after_filterItems (items : List Value) (m : Machine) :
    ∃ called, called <+: items ∧ (self.filterItems f line items).after m =
      (self.doAll (called.map fun v => .call f [v] line)).after m := by
  induction items generalizing m with
  | nil => exact ⟨[], List.prefix_refl _, rfl⟩
  | cons v vs ih =>
    cases hcall : self (.call f [v] line) m with
    | error e n =>
      refine ⟨[v], by simp, ?_⟩
      rw [List.map_cons, self.doAll_cons_of_error hcall, filterItems]
      exact after_of_error (bind_of_error hcall)
    | ok w n =>
      obtain ⟨called, hcalled, hrest⟩ := ih n
      have hact : self.filterItems f line (v :: vs) m = _ := bind_of_ok hcall
      have hgoes : (self.doAll ((v :: called).map fun v => .call f [v] line)).after m =
          (self.filterItems f line vs).after n := by
        rw [List.map_cons, self.doAll_cons_of_ok hcall, hrest]
      cases w with
      | bool stays =>
        refine ⟨v :: called, (List.prefix_cons_inj v).mpr hcalled, ?_⟩
        rw [hgoes]
        cases stays with
        | true =>
          rw [← (after_bind_pure _ (v :: ·) n).1]
          simp only [after, hact]
        | false => simp only [after, hact]
      | _ =>
        refine ⟨[v], by simp, ?_⟩
        rw [List.map_cons, self.doAll_cons_of_ok hcall]
        exact after_of_error hact

/-- A function of the wrong kind is called on no element. -/
theorem after_map (items : List Value) (m : Machine) :
    ∃ called, called <+: items ∧ (self.map f line items).after m =
      (self.doAll (called.map fun v => .call f [v] line)).after m := by
  unfold map
  split
  · exact ⟨items, List.prefix_refl _, self.after_mapItems f line items m⟩
  · exact ⟨[], List.nil_prefix, rfl⟩

theorem after_filter (items : List Value) (m : Machine) :
    ∃ called, called <+: items ∧ (self.filter f line items).after m =
      (self.doAll (called.map fun v => .call f [v] line)).after m := by
  unfold filter
  split
  · exact self.after_filterItems f line items m
  · exact ⟨[], List.nil_prefix, rfl⟩

end Doer

namespace CollectionOp

open Run

/-- Nothing but calls of the argument happens in this part, on the subject's
elements as they were at first. -/
theorem after_callbacks (self : Doer) (op : CollectionOp) (target : Value) (args : List Value)
    (line : Nat) (m : Machine) :
    ∃ called, called <+: op.calls args line (m.heap.elements target) ∧
      (op.callbacks self target args line).after m = (self.doAll called).after m := by
  unfold callbacks
  split
  · next kind id f =>
    obtain ⟨called, hcalled, hafter⟩ := self.after_map f line (m.heap.read id).toList m
    exact ⟨_, hcalled.map _, hafter⟩
  · next kind id f =>
    obtain ⟨called, hcalled, hafter⟩ := self.after_filter f line (m.heap.read id).toList m
    exact ⟨_, hcalled.map _, hafter⟩
  · exact ⟨[], List.nil_prefix, rfl⟩

-- ---------------------------------------------------------------------------
-- What dotted operations write
-- ---------------------------------------------------------------------------

/-- How far an operation itself reaches: it may make new stores, and of those
that are there it may change its subject's, if it is one that changes its
subject or has been asked to. All else in the machine stays. -/
structure OwnWrite (op : CollectionOp) (target : Value) (mutate : Bool) (m n : Machine) : Prop where
  heap_only : n = { m with heap := n.heap }
  size_le : m.heap.size ≤ n.heap.size
  store : ∀ id < m.heap.size, n.heap.read id ≠ m.heap.read id →
    target.store? = some id ∧
      (op ∈ [sort, append, remove] ∨ op ∈ [map, filter] ∧ mutate = true)

variable {op : CollectionOp} {target : Value} {mutate : Bool} {m : Machine}

/-- Making new stores touches none that was there. -/
theorem OwnWrite.of_grows {h : Heap} (hgrows : m.heap.Grows h) :
    OwnWrite op target mutate m { m with heap := h } where
  heap_only := rfl
  size_le := hgrows.size_le
  store id hid hchanged := absurd (hgrows.read id hid) hchanged

theorem OwnWrite.refl : OwnWrite op target mutate m m := .of_grows (.refl m.heap)

/-- Only the operations that change their subject write to its store. -/
theorem OwnWrite.of_modify {h : Heap} {kind : SeqKind} {id : SeqId} {f : Array Value → Array Value}
    (hgrows : m.heap.Grows h)
    (hop : op ∈ [sort, append, remove] ∨ op ∈ [map, filter] ∧ mutate = true) :
    OwnWrite op (.seq kind id) mutate m { m with heap := h.modify id f } where
  heap_only := rfl
  size_le := by
    rw [Heap.size_modify]
    exact hgrows.size_le
  store other hother hchanged := by
    refine ⟨?_, hop⟩
    by_contra hne
    have hkept : (h.modify id f).read other = m.heap.read other := by
      rw [Heap.read_modify, if_neg (fun hsame => hne (congrArg some hsame.1)),
        hgrows.read other hother]
    exact hchanged hkept

section

variable {α : Type} {a : α} {line : Nat}

/-- A result in a new sequence. -/
theorem own_newSeq {kind : SeqKind} {items : List Value} :
    AllOrNothing (OwnWrite op target mutate) (pure a : Run α) (newSeq kind items) m :=
  .of_ok rfl (.of_grows (.newSeq m.heap kind items))

/-- A statistic writes nothing. -/
theorem own_measure {v : Value} {f : List Value → Except Cause Value} :
    AllOrNothing (OwnWrite op target mutate) (pure a : Run α) (op.measure line v f) m := by
  refine AllOrNothing.sequence_bind ?_
  intro kind id _
  exact .charge .refl

theorem own_moved {v k : Value} {f : List Value → Int64 → List Value} :
    AllOrNothing (OwnWrite op target mutate) (pure a : Run α) (op.moved line v k f) m := by
  refine AllOrNothing.sequence_bind ?_
  intro kind id _
  refine AllOrNothing.charge_bind ?_
  intro n _
  exact own_newSeq

theorem own_matrixOf_bind {v : Value} {next : DenseMatrix Binary64 → Run Value}
    (h : ∀ x, AllOrNothing (OwnWrite op target mutate) (pure a : Run α) (next x) m) :
    AllOrNothing (OwnWrite op target mutate) (pure a : Run α) (matrixOf line v >>= next) m := by
  unfold matrixOf
  rw [bind_assoc]
  exact .heap_bind (.charge_bind fun x _ => h x)

theorem own_matrix {x : Except Cause (DenseMatrix Binary64)} :
    AllOrNothing (OwnWrite op target mutate) (pure a : Run α)
      (do return Value.matrix (← Run.charge line x)) m :=
  .bind_pure_right _ (.charge .refl)

/-- Operations that change lists refuse any other subject first. -/
theorem own_listSubject_bind {v : Value} {next : Snapshot → Run Value}
    (h : ∀ id, v = .seq .list id → AllOrNothing (OwnWrite op target mutate) (pure a : Run α)
      (next ⟨.list, id, (m.heap.read id).toList⟩) m) :
    AllOrNothing (OwnWrite op target mutate) (pure a : Run α) (op.listSubject line v >>= next)
      m := by
  unfold listSubject
  split
  · next id =>
    have hnext := h id rfl
    refine AllOrNothing.congr ?_ ?_ hnext <;> rfl
  · exact .of_error rfl

/-- What `map` and `filter` do with the values they have got: all are checked
before the subject is written over. -/
theorem own_conclude {kind : SeqKind} {id : SeqId} {before items : List Value}
    (declared : Option Ty) (hop : op ∈ [map, filter]) :
    AllOrNothing (OwnWrite op (.seq kind id) mutate) (pure a : Run α)
      (conclude line (.seq kind id) ⟨kind, id, before⟩ mutate declared items) m := by
  unfold conclude
  split
  · next hmutate =>
    refine AllOrNothing.bind_pure_right _ (AllOrNothing.heap_bind (AllOrNothing.charge_bind ?_))
    rintro ⟨ws, h⟩ hok
    exact .of_ok rfl (.of_modify (insertable_grows hok) (.inr ⟨hop, hmutate⟩))
  · exact own_newSeq

/-- `map` and `filter`, with what they make of a row of values left open. -/
theorem own_collect {kind : SeqKind} {id : SeqId} (rows : List Value → Run (List Value))
    (declared : Option Ty) (hop : op ∈ [map, filter]) :
    AllOrNothing (OwnWrite op (.seq kind id) mutate) (do rows (← read id))
      (do
        let s ← op.subject line (.seq kind id)
        let items ← rows s.items
        conclude line (.seq kind id) s mutate declared items) m := by
  have hrows : AllOrNothing (OwnWrite op (.seq kind id) mutate) (rows (m.heap.read id).toList)
      (rows (m.heap.read id).toList >>=
        conclude line (.seq kind id) ⟨kind, id, (m.heap.read id).toList⟩ mutate declared) m :=
    .after_operands fun _ _ _ => own_conclude declared hop
  refine AllOrNothing.congr ?_ ?_ hrows <;> rfl

end

/-- Only `map` and `filter` with one argument call back. -/
theorem callbacks_eq_pure {self : Doer} {args : List Value} {line : Nat}
    (h : ∀ f, args = [f] → op ≠ map ∧ op ≠ filter) :
    op.callbacks self target args line = pure [] := by
  unfold callbacks
  split
  · next f => exact absurd rfl (h f rfl).1
  · next f => exact absurd rfl (h f rfl).2
  · rfl

/-- **Operations behind a dot.** One rule for each. -/
theorem allOrNothing_apply (self : Doer) (op : CollectionOp) (target : Value) (args : List Value)
    (mutate : Bool) (declared : Option Ty) (line : Nat) (m : Machine) :
    AllOrNothing (OwnWrite op target mutate) (op.callbacks self target args line)
      (op.apply self target args mutate declared line) m := by
  unfold apply
  split
  case h_9 f =>
    cases target with
    | seq kind id => exact own_collect (self.map f line) declared (by simp)
    | _ => exact .of_error rfl
  case h_10 f =>
    cases target with
    | seq kind id => exact own_collect (self.filter f line) declared (by simp)
    | _ => exact .of_error rfl
  case h_17 hmap hfilter _ _ _ _ _ _ =>
    rw [callbacks_eq_pure fun f hf => ⟨fun hop => hmap f hop hf, fun hop => hfilter f hop hf⟩]
    exact .fail
  all_goals rw [callbacks_eq_pure (by simp)]
  · -- sort
    refine .sequence_bind ?_
    rintro kind id rfl
    rw [sorted, bind_assoc]
    refine .charge_bind ?_
    rintro (_ | row) _
    · exact .of_error rfl
    · exact .of_ok rfl (.of_modify (.refl _) (.inl (by simp)))
  · -- append
    refine own_listSubject_bind ?_
    rintro id rfl
    refine .heap_bind (.charge_bind ?_)
    intro _ _
    exact .of_ok rfl (.of_modify (.refl _) (.inl (by simp)))
  · -- remove
    refine own_listSubject_bind ?_
    rintro id rfl
    refine .heap_bind (.charge_bind ?_)
    intro rest _
    exact .of_ok rfl (.of_modify (.refl _) (.inl (by simp)))
  · exact own_measure
  · exact own_measure
  · exact own_measure
  · exact own_measure
  · -- linreg
    refine .sequence_bind ?_
    intro kind id _
    refine .sequence_bind ?_
    intro kind' id' _
    refine .charge_bind ?_
    intro r _
    exact own_newSeq
  · exact own_moved
  · exact own_moved
  · exact own_matrixOf_bind fun _ => own_matrixOf_bind fun _ => own_matrix
  · exact own_matrixOf_bind fun _ => own_matrixOf_bind fun _ => own_matrix
  · exact own_matrixOf_bind fun _ => own_matrix
  · exact own_matrixOf_bind fun _ => .of_ok rfl .refl

end CollectionOp

/-- Dotted operations, declarations and assignments write all or nothing. In any
machine and however the tasks they hand out are done: if they fail, the machine
is exactly the one that their operands and callbacks left. If an operation
succeeds, it has by itself changed no store that was there but its subject's,
and that only if it is one that changes its subject or is a `map` or `filter`
asked to; and its callbacks are calls of its argument on the subject's
elements, one after another, and nothing else. -/
theorem writes_all_or_nothing (self : Doer) (m : Machine) :
    (∀ (op : CollectionOp) (target : Value) (args : List Value) (mutate : Bool)
        (declared : Option Ty) (line : Nat),
      (∃ called, called <+: op.calls args line (m.heap.elements target) ∧
        (op.callbacks self target args line).after m = (self.doAll called).after m) ∧
      Run.AllOrNothing (op.OwnWrite target mutate) (op.callbacks self target args line)
        (op.apply self target args mutate declared line) m) ∧
    ∀ (s : Stmt) (tasks : List Task), s.operands? m = some tasks →
      Run.AllOrNothing (fun _ _ => True) (self.doAll tasks) (self.execStmt s) m := by
  constructor
  · intro op target args mutate declared line
    exact ⟨op.after_callbacks self target args line m,
      op.allOrNothing_apply self target args mutate declared line m⟩
  · intro s tasks htasks
    exact self.allOrNothing_execStmt m htasks

/-- With `xs` an `array<int>` and `log` a list: `xs.map(x => log.append(x), mutate: true)` and
`xs[0] = log.append(7);` both fail for the type of what they are to store. What
was appended on the way stays in `log`, and `xs` is as it was. -/
theorem writes_all_or_nothing_mismatch :
    let p : Place := ⟨1, 1⟩
    let append (e : Expr) := Expr.collection .append (.ident "log" p) [e] [] p
    let xs : Value := .seq .array 0
    let log : Value := .seq .list 1
    let m : Machine :=
      { heap := ⟨#[#[.int 1, .int 2], #[]]⟩
        scopes := ⟨#[⟨[("xs", ⟨xs, some (.array .int)⟩), ("log", ⟨log, none⟩)], none⟩]⟩
        frame := 0, depth := 0, pending := none, closures := 1, output := ⟨#[], #[]⟩ }
    let self := perform 5 8
    let f : Value := .func ⟨0, .lambda "x" (append (.ident "x" p)), 0⟩
    let change := CollectionOp.map.apply self xs [f] true (some (.array .int)) 1
    let position := Expr.literal (.int 0) p
    let value := append (.literal (.int 7) p)
    let s := Stmt.assignIndex "xs" position .set value p
    let tasks := [Task.eval none position, .eval none value]
    (change.fails m = true ∧
      change.after m = (CollectionOp.map.callbacks self xs [f] 1).after m ∧
      (change.after m).heap.text xs = "[1, 2]" ∧ (change.after m).heap.text log = "[1, 2]") ∧
    (s.operands? m = some tasks ∧ (self.execStmt s).fails m = true ∧
      (self.execStmt s).after m = (self.doAll tasks).after m ∧
      ((self.execStmt s).after m).heap.text xs = "[1, 2]" ∧
      ((self.execStmt s).after m).heap.text log = "[7]") := by
  intro p append xs log m self f change position value s tasks
  have hchange : change.fails m = true := by decide +kernel
  have htasks : s.operands? m = some tasks := by
    have hbound : (m.scopes.lookup? m.frame "xs").isSome = true := by decide +kernel
    obtain ⟨b, hb⟩ := Option.isSome_iff_exists.mp hbound
    simp only [s, Stmt.operands?, hb, tasks]
  have hassign : (self.execStmt s).fails m = true := by decide +kernel
  obtain ⟨hops, hstmts⟩ := writes_all_or_nothing self m
  refine ⟨⟨hchange, ?_, by decide +kernel, by decide +kernel⟩,
    htasks, hassign, ?_, by decide +kernel, by decide +kernel⟩
  · exact (hops .map xs [f] true (some (.array .int)) 1).2.failed hchange
  · exact (hstmts s tasks htasks).failed hassign

end SeqScript
