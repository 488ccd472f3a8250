import SeqScript.Proofs.Regime

/-!
# One step under a regime

Which tasks a task hands on is said once, by `Task.Part`: an expression its
operands and calls, a statement its expressions and statements, a call the
expressions and statements of the function's code. Only `map` and `filter` among
the functions that are always there call back, with one argument while they take
two themselves.

`alike_step` is what the evaluator does with two ways to do the parts of a task:
if they end alike on those, its own runs end alike, provided that all code it
makes functions of is allowed.
-/

namespace SeqScript

-- ---------------------------------------------------------------------------
-- The parts of a task
-- ---------------------------------------------------------------------------

/-- The expressions that evaluating an expression evaluates. -/
def Expr.operands : Expr → List Expr
  | literal .. | ident .. | lambda .. => []
  | binary _ l r _ => [l, r]
  | unary _ e _ | cast _ e _ => [e]
  | call _ args _ => args
  | index subject position _ => [subject, position]
  | collection _ subject args named _ => subject :: (args ++ named.map Prod.snd)
  | items es _ => es

namespace Stmt

/-- The expressions that executing a statement evaluates. -/
def exprs : Stmt → List Expr
  | declare _ _ value _ | ret value _ => value.toList
  | assign _ _ value _ => [value]
  | assignIndex _ position _ value _ => [position, value]
  | branch c .. | loop c .. => [c]
  | select subject .. => [subject]
  | func .. | block .. => []
  | expr e => [e]

/-- The statements that executing a statement executes. A loop executes itself. -/
def stmts : Stmt → List Stmt
  | branch _ onTrue onFalse _ => onTrue ++ onFalse.getD []
  | loop c body p => loop c body p :: body
  | select _ cases _ => cases.map MatchCase.body
  | block body _ => body
  | _ => []

end Stmt

namespace Code

/-- The expressions that running the code of a function evaluates. -/
def exprs : Code → List Expr
  | declared decl => decl.params.filterMap Param.default
  | lambda _ body => [body]

/-- The statements that running the code of a function executes. -/
def stmts : Code → List Stmt
  | declared decl => decl.body
  | lambda .. => []

end Code

namespace Task

/-- The second task is one that the first may hand on. -/
def Part : Task → Task → Prop
  | eval _ e, eval _ e' => e' ∈ e.operands
  | eval .., call .. => True
  | exec s, eval _ e => e ∈ s.exprs
  | exec s, exec s' => s' ∈ s.stmts
  | call (.func f) _ _, eval _ e => e ∈ f.code.exprs
  | call (.func f) _ _, exec s => s ∈ f.code.stmts
  | call (.builtin _) args _, call _ args' _ => args.length = 2 ∧ args'.length = 1
  | _, _ => False

/-- The values a task is about, the one that is called included. -/
def operands : Task → List Value
  | call f args _ => f :: args
  | eval .. | exec .. => []

/-- The code that a task makes a function of. -/
def codes : Task → List Code
  | eval _ (.lambda param body _) => [.lambda param body]
  | exec (.func name params _ body _) => [.declared ⟨name, params, body⟩]
  | _ => []

/-- The number of calls that are under way inside a task, if so many are where
it is begun. -/
def inside : Task → Nat → Nat
  | call (.func _) _ _, d => d + 1
  | _, d => d

/-- The task is a call for which the limit leaves no room. -/
def Refused (limit d : Nat) : Task → Prop
  | call (.func _) _ _ => limit ≤ d
  | _ => False

end Task

namespace Regime

/-- Two ways to do tasks end alike on the given ones, wherever so many calls are
under way. -/
def Pairs (R : Regime) (given : Task → Prop) (d : Nat) (one other : Doer) : Prop :=
  ∀ t m, given t → R.AllProper t.operands → R.Kept d m →
    R.Alike d (one t) (other t) m R.Proper

variable {R : Regime} {given : Task → Prop} {d : Nat} {self self' : Doer} {m : Machine}
  {line : Nat} {f : Value} {vs args : List Value} {hint : Option Ty} {e : Expr} {es : List Expr}

section

variable (h : R.Pairs given d self self')

include h

theorem Pairs.eval (hm : R.Kept d m) (hgiven : given (.eval hint e)) :
    R.Alike d (self (.eval hint e)) (self' (.eval hint e)) m R.Proper :=
  h _ m hgiven allProper_nil hm

theorem Pairs.exec {s : Stmt} (hm : R.Kept d m) (hgiven : given (.exec s)) :
    R.Alike d (self (.exec s)) (self' (.exec s)) m R.Proper :=
  h _ m hgiven allProper_nil hm

theorem Pairs.call (hm : R.Kept d m) (hgiven : given (.call f args line)) (hf : R.Proper f)
    (hargs : R.AllProper args) :
    R.Alike d (self (.call f args line)) (self' (.call f args line)) m R.Proper :=
  h _ m hgiven (allProper_cons.mpr ⟨hf, hargs⟩) hm

end

-- ---------------------------------------------------------------------------
-- Rows of values
-- ---------------------------------------------------------------------------

/-- Values computed one after another. -/
theorem alike_cons {first first' : Run Value} {rest rest' : Run (List Value)}
    (hfirst : R.Alike d first first' m R.Proper)
    (hrest : ∀ n, R.Kept d n → R.Alike d rest rest' n R.AllProper) :
    R.Alike d (do let v ← first; return v :: (← rest)) (do let v ← first'; return v :: (← rest'))
      m R.AllProper := by
  refine hfirst.bind ?_
  intro v n hn hv
  refine (hrest n hn).bind ?_
  intro vs n' hn' hvs
  exact .pure hn' (allProper_cons.mpr ⟨hv, hvs⟩)

section

variable (h : R.Pairs given d self self')

include h

/-- The run lemma of operands, by induction on those that are left. -/
theorem alike_evalAll (hm : R.Kept d m) (hgiven : ∀ e ∈ es, given (.eval none e)) :
    R.Alike d (self.evalAll es) (self'.evalAll es) m R.AllProper := by
  induction es generalizing m with
  | nil => exact .pure hm allProper_nil
  | cons e es ih =>
    refine alike_cons (h.eval hm (hgiven e (List.mem_cons_self ..))) ?_
    exact fun n hn => ih hn fun x hx => hgiven x (List.mem_cons_of_mem _ hx)

/-- The same with the types of the parameters as hints. -/
theorem alike_evalArguments {params : List Param} (hm : R.Kept d m)
    (hgiven : ∀ hint, ∀ e ∈ es, given (.eval hint e)) :
    R.Alike d (self.evalArguments params es) (self'.evalArguments params es) m R.AllProper := by
  induction es generalizing params m with
  | nil => exact .pure hm allProper_nil
  | cons e es ih =>
    refine alike_cons (h.eval hm (hgiven _ e (List.mem_cons_self ..))) ?_
    exact fun n hn => ih hn fun hint x hx => hgiven hint x (List.mem_cons_of_mem _ hx)

theorem alike_evalItems (hm : R.Kept d m) (hgiven : ∀ e ∈ es, given (.eval hint e)) :
    R.Alike d (self.evalItems hint es) (self'.evalItems hint es) m R.AllProper := by
  induction es generalizing m with
  | nil => exact .pure hm allProper_nil
  | cons e es ih =>
    refine alike_cons (h.eval hm (hgiven e (List.mem_cons_self ..))) ?_
    exact fun n hn => ih hn fun x hx => hgiven x (List.mem_cons_of_mem _ hx)

variable (hgiven : ∀ v, given (.call f [v] line)) (hf : R.Proper f)

include hgiven hf

/-- The run lemma of `map`: one call for each element. -/
theorem alike_mapItems (hm : R.Kept d m) (hvs : R.AllProper vs) :
    R.Alike d (self.mapItems f line vs) (self'.mapItems f line vs) m R.AllProper := by
  induction vs generalizing m with
  | nil => exact .pure hm allProper_nil
  | cons v vs ih =>
    obtain ⟨hv, hvs⟩ := allProper_cons.mp hvs
    have hargs : R.AllProper [v] := allProper_cons.mpr ⟨hv, allProper_nil⟩
    exact alike_cons (h.call hm (hgiven v) hf hargs) fun n hn => ih hn hvs

/-- The run lemma of `filter`. -/
theorem alike_filterItems (hm : R.Kept d m) (hvs : R.AllProper vs) :
    R.Alike d (self.filterItems f line vs) (self'.filterItems f line vs) m R.AllProper := by
  induction vs generalizing m with
  | nil => exact .pure hm allProper_nil
  | cons v vs ih =>
    obtain ⟨hv, hvs⟩ := allProper_cons.mp hvs
    have hargs : R.AllProper [v] := allProper_cons.mpr ⟨hv, allProper_nil⟩
    refine (h.call hm (hgiven v) hf hargs).bind ?_
    intro w n hn _
    split
    · refine (ih hn hvs).bind ?_
      intro ws n' hn' hws
      exact .pure hn' (allProper_cons.mpr ⟨hv, hws⟩)
    · exact ih hn hvs
    · exact .fail hn

theorem alike_map (hm : R.Kept d m) (hvs : R.AllProper vs) :
    R.Alike d (self.map f line vs) (self'.map f line vs) m R.AllProper := by
  unfold Doer.map
  split
  · exact alike_mapItems h hgiven hf hm hvs
  · exact .fail hm

theorem alike_filter (hm : R.Kept d m) (hvs : R.AllProper vs) :
    R.Alike d (self.filter f line vs) (self'.filter f line vs) m R.AllProper := by
  unfold Doer.filter
  split
  · exact alike_filterItems h hgiven hf hm hvs
  · exact .fail hm

end

-- ---------------------------------------------------------------------------
-- What is computed from sequences
-- ---------------------------------------------------------------------------

/-- A number computed from the elements of a sequence: it refers to nothing, or
is one of them. -/
theorem alike_measure {cause : Kind → Cause} {v : Value} {f : List Value → Except Cause Value}
    (hm : R.Kept d m) (hf : ∀ xs w, f xs = .ok w → w ∈ xs ∨ w.isData = true) :
    R.Alike d (do let s ← Run.sequence line cause v; Run.charge line (f s.items))
      (do let s ← Run.sequence line cause v; Run.charge line (f s.items)) m R.Proper := by
  refine .sequence_bind hm ?_
  intro s hs
  exact .charge hm fun w hw => hs.of_mem_or (hf _ w hw)

/-- Rotating and shifting hand on what they were given or plain values. -/
theorem alike_moved {cause : Kind → Cause} {v k : Value} {name : String}
    {f : List Value → Int64 → List Value} (hm : R.Kept d m)
    (hf : ∀ xs n w, w ∈ f xs n → w ∈ xs ∨ w.isData = true) :
    let act : Run Value := do
      let s ← Run.sequence line cause v
      let n ← Run.charge line (Sequence.amount name k)
      Run.newSeq s.kind (f s.items n)
    R.Alike d act act m R.Proper := by
  refine .sequence_bind hm ?_
  intro s hs
  refine .charge_bind hm ?_
  intro n _
  exact .newSeq hm fun w hw => hs.of_mem_or (hf _ n w hw)

/-- The line of best fit of two sequences. -/
theorem alike_regression {cause : Kind → Cause} {v w : Value} (hm : R.Kept d m) :
    let act : Run Value := do
      let x ← Run.sequence line cause v
      let y ← Run.sequence line cause w
      let r ← Run.charge line (Sequence.regression x.items y.items)
      Run.newSeq .list r.values
    R.Alike d act act m R.Proper := by
  refine .sequence_bind hm ?_
  intro _ _
  refine .sequence_bind hm ?_
  intro _ _
  refine .charge_bind hm ?_
  intro r _
  exact .newSeq hm fun _ hw => proper_data (Sequence.isData_values hw)

-- ---------------------------------------------------------------------------
-- Functions that are always there
-- ---------------------------------------------------------------------------

theorem alike_length {v : Value} (hm : R.Kept d m) :
    R.Alike d (Builtin.length line v) (Builtin.length line v) m R.Proper := by
  unfold Builtin.length
  split
  · exact .read_bind (.pure hm (proper_data rfl))
  · exact .pure hm (proper_data rfl)
  · exact .pure hm (proper_data rfl)
  · exact .fail hm

/-- A call back has one argument, while `map` and `filter` have two (`hgiven`). -/
theorem alike_builtin (h : R.Pairs given d self self') {b : Builtin}
    (hgiven : args.length = 2 → ∀ f v, given (.call f [v] line)) (hm : R.Kept d m)
    (hargs : R.AllProper args) :
    R.Alike d (b.apply self args line) (b.apply self' args line) m R.Proper := by
  unfold Builtin.apply
  split
  · exact (Alike.print hm).bind_pure (proper_data rfl)
  · -- play
    refine .sequence_bind hm ?_
    intro _ _
    refine .charge_bind hm ?_
    intro _ _
    exact (Alike.play hm).bind_pure (proper_data rfl)
  · exact alike_length hm
  · exact alike_measure hm fun _ _ h => Or.inr (Sequence.isData_map_float h)
  · exact alike_measure hm fun _ _ h => Sequence.mem_median h
  · exact alike_measure hm fun _ _ h => Or.inr (Sequence.isData_map_float h)
  · exact alike_measure hm fun _ _ h => Or.inr (Sequence.isData_map_float h)
  · exact alike_measure hm fun _ _ h => Or.inr (Sequence.isData_sum h)
  · exact alike_measure hm fun _ _ h => Or.inl (Sequence.mem_extreme h)
  · exact alike_measure hm fun _ _ h => Or.inl (Sequence.mem_extreme h)
  · exact .charge hm fun _ h => proper_data (Builtin.isData_magnitude h)
  · exact .charge hm fun _ h => proper_data (Builtin.isData_squareRoot h)
  · exact alike_regression hm
  · -- map
    next v f =>
    refine .sequence_bind hm ?_
    intro s hs
    refine (alike_map h (hgiven rfl f) (hargs f (by simp)) hm hs).bind ?_
    intro ws n hn hws
    exact .newSeq hn hws
  · -- filter
    next v f =>
    refine .sequence_bind hm ?_
    intro s hs
    refine (alike_filter h (hgiven rfl f) (hargs f (by simp)) hm hs).bind ?_
    intro ws n hn hws
    exact .newSeq hn hws
  · exact alike_moved hm fun _ _ _ h => Or.inl (Sequence.mem_rotate h)
  · exact alike_moved hm fun _ _ _ h => Sequence.mem_shift h
  · exact .fail hm

-- ---------------------------------------------------------------------------
-- Operations behind a dot
-- ---------------------------------------------------------------------------

/-- The result goes into the subject itself or into a new sequence. -/
theorem alike_conclude {target : Value} {s : Run.Snapshot} {mutate : Bool}
    {declared : Option Ty} (hm : R.Kept d m) (htarget : R.Proper target)
    (hvs : R.AllProper vs) :
    R.Alike d (CollectionOp.conclude line target s mutate declared vs)
      (CollectionOp.conclude line target s mutate declared vs) m R.Proper := by
  unfold CollectionOp.conclude
  split
  swap
  · exact .newSeq hm hvs
  refine Alike.bind_pure (Q := fun _ => True) ?_ htarget
  refine .heap_bind ?_
  refine .charge_bind hm ?_
  rintro ⟨ws, heap⟩ hok
  obtain ⟨hheap, hws⟩ := hm.heap.insertable hvs hok
  exact .setHeap hm (hheap.modify fun v hv => hws v (List.mem_toArray.mp hv))

/-- Putting other proper elements into a store. -/
theorem alike_written {target : Value} {id : SeqId} {g : Array Value → Array Value}
    (hm : R.Kept d m) (htarget : R.Proper target) (hg : ∀ v ∈ g (m.heap.read id), R.Proper v) :
    R.Alike d (do Run.update id g; return target) (do Run.update id g; return target) m R.Proper :=
  (Alike.update hm hg).bind_pure htarget

/-- An operation that changes a list refuses any other subject, on both sides alike. -/
theorem listSubject_bind {β : Type} {op : CollectionOp} {v : Value}
    {next : Run.Snapshot → Run β} {Q : β → Prop} (hm : R.Kept d m)
    (h : ∀ id, R.Alike d (next ⟨.list, id, (m.heap.read id).toList⟩)
      (next ⟨.list, id, (m.heap.read id).toList⟩) m Q) :
    R.Alike d (op.listSubject line v >>= next) (op.listSubject line v >>= next) m Q := by
  unfold CollectionOp.listSubject
  split
  · next id => exact h id
  · exact Alike.fail hm (Q := Q)

theorem matrixOf_bind {v : Value} {next : DenseMatrix Binary64 → Run Value} (hm : R.Kept d m)
    (h : ∀ a, R.Alike d (next a) (next a) m R.Proper) :
    R.Alike d (CollectionOp.matrixOf line v >>= next) (CollectionOp.matrixOf line v >>= next) m
      R.Proper := by
  show R.Alike d (Run.charge line (m.heap.matrix? v) >>= next)
    (Run.charge line (m.heap.matrix? v) >>= next) m R.Proper
  exact .charge_bind hm fun a _ => h a

theorem alike_matrix {x : Except Cause (DenseMatrix Binary64)} (hm : R.Kept d m) :
    R.Alike d (do return Value.matrix (← Run.charge line x))
      (do return Value.matrix (← Run.charge line x)) m R.Proper := by
  refine .charge_bind hm ?_
  intro _ _
  exact .pure hm (proper_data rfl)

/-- The sort gives a row, a fault, or up; each is a stop that every regime has. -/
theorem sorted_bind {items : List Value} {next : List Value → Run Value} (hm : R.Kept d m)
    (h : ∀ row, Sequence.sort items = .ok (some row) →
      R.Alike d (next row) (next row) m R.Proper) :
    R.Alike d (CollectionOp.sorted line items >>= next) (CollectionOp.sorted line items >>= next)
      m R.Proper := by
  rw [CollectionOp.sorted, bind_assoc]
  refine .charge_bind hm ?_
  intro result hresult
  cases result with
  | none => exact Alike.throw hm (R.stops_disorder items hresult)
  | some row => exact h row hresult

/-- Operations on values: only `map` and `filter` call back. -/
theorem alike_collection (h : R.Pairs given d self self') {op : CollectionOp} {target : Value}
    {mutate : Bool} {declared : Option Ty} (hgiven : ∀ f v, given (.call f [v] line))
    (hm : R.Kept d m) (htarget : R.Proper target) (hargs : R.AllProper args) :
    R.Alike d (op.apply self target args mutate declared line)
      (op.apply self' target args mutate declared line) m R.Proper := by
  unfold CollectionOp.apply
  split
  · -- sort
    refine .sequence_bind hm ?_
    intro s hs
    refine sorted_bind hm ?_
    intro row hrow
    refine alike_written hm htarget ?_
    exact fun v hv => hs v (Sequence.mem_sort hrow (List.mem_toArray.mp hv))
  · -- append
    next v =>
    refine listSubject_bind hm ?_
    intro id
    refine .heap_bind ?_
    refine .charge_bind hm ?_
    intro _ _
    refine alike_written hm htarget ?_
    intro w hw
    rcases Array.mem_push.mp hw with hw | rfl
    · exact hm.heap id w hw
    · exact hargs w (List.mem_cons_self ..)
  · -- remove
    refine listSubject_bind hm ?_
    intro id
    refine .heap_bind ?_
    refine .charge_bind hm ?_
    intro rest hrest
    refine alike_written hm htarget ?_
    exact fun v hv => hm.heap.read id v (Sequence.mem_remove hrest (List.mem_toArray.mp hv))
  · exact alike_measure hm fun _ _ h => Or.inr (Sequence.isData_map_float h)
  · exact alike_measure hm fun _ _ h => Sequence.mem_median h
  · exact alike_measure hm fun _ _ h => Or.inr (Sequence.isData_map_float h)
  · exact alike_measure hm fun _ _ h => Or.inr (Sequence.isData_map_float h)
  · exact alike_regression hm
  · -- map
    next f =>
    refine .sequence_bind hm ?_
    intro s hs
    refine (alike_map h (hgiven f) (hargs f (List.mem_cons_self ..)) hm hs).bind ?_
    intro ws n hn hws
    exact alike_conclude hn htarget hws
  · -- filter
    next f =>
    refine .sequence_bind hm ?_
    intro s hs
    refine (alike_filter h (hgiven f) (hargs f (List.mem_cons_self ..)) hm hs).bind ?_
    intro ws n hn hws
    exact alike_conclude hn htarget hws
  · exact alike_moved hm fun _ _ _ h => Or.inl (Sequence.mem_rotate h)
  · exact alike_moved hm fun _ _ _ h => Sequence.mem_shift h
  · exact matrixOf_bind hm fun _ => matrixOf_bind hm fun _ => alike_matrix hm
  · exact matrixOf_bind hm fun _ => matrixOf_bind hm fun _ => alike_matrix hm
  · exact matrixOf_bind hm fun _ => alike_matrix hm
  · exact matrixOf_bind hm fun _ => .pure hm (proper_data rfl)
  · exact .fail hm

/-- Named arguments from left to right, up to the first that is refused. -/
theorem alike_mutateFlag (h : R.Pairs given d self self') {op : CollectionOp} {flag : Bool}
    {named : List (String × Expr)} (hgiven : ∀ e ∈ named.map Prod.snd, given (.eval none e))
    (hm : R.Kept d m) :
    R.Alike d (CollectionOp.mutateFlag self op line flag named)
      (CollectionOp.mutateFlag self' op line flag named) m fun _ => True := by
  induction named generalizing flag m with
  | nil => exact .pure hm trivial
  | cons arg rest ih =>
    unfold CollectionOp.mutateFlag
    split
    · refine (h.eval hm (hgiven _ (List.mem_cons_self ..))).bind ?_
      intro v n hn _
      split
      · exact ih (fun e he => hgiven e (List.mem_cons_of_mem _ he)) hn
      · exact .fail hn
    · exact .fail hm

theorem alike_bindDerived {op : CollectionOp} {name : String} {result : Value} (hm : R.Kept d m)
    (hresult : R.Proper result) :
    R.Alike d (CollectionOp.bindDerived op name result) (CollectionOp.bindDerived op name result)
      m fun _ => True := by
  unfold CollectionOp.bindDerived
  refine (Alike.define hm hresult).bind ?_
  intro _ n hn _
  split
  · split
    · next id =>
      refine .read_bind ?_
      refine .defineAll hn ?_
      exact fun row hrow => hn.heap.read id row.2 (List.of_mem_zip hrow).2
    · exact .pure hn trivial
  · exact .pure hn trivial

theorem subjectType_bind {β : Type} {f g : Option Ty → Run β} {Q : β → Prop}
    (h : ∀ ty, R.Alike d (f ty) (g ty) m Q) :
    R.Alike d (CollectionOp.subjectType e >>= f) (CollectionOp.subjectType e >>= g) m Q := by
  cases e with
  | ident name p => exact .declared?_bind h
  | _ => exact h none

/-- **Operations behind a dot,** from the subject over the arguments to the names they
bind. -/
theorem alike_operation (h : R.Pairs given d self self') {op : CollectionOp} {subject : Expr}
    {es : List Expr} {named : List (String × Expr)}
    (hexprs : ∀ e ∈ subject :: (es ++ named.map Prod.snd), given (.eval none e))
    (hcalls : ∀ f v, given (.call f [v] line)) (hm : R.Kept d m) :
    R.Alike d (op.eval self subject es named line) (op.eval self' subject es named line) m
      R.Proper := by
  unfold CollectionOp.eval
  refine (h.eval hm (hexprs subject (List.mem_cons_self ..))).bind ?_
  intro target m₁ hm₁ htarget
  split
  · exact .fail hm₁
  refine (alike_evalAll h hm₁ fun e he => hexprs e (by simp [he])).bind ?_
  intro vs m₂ hm₂ hvs
  have hnamed : ∀ e ∈ named.map Prod.snd, given (.eval none e) :=
    fun e he => hexprs e (List.mem_cons_of_mem _ (List.mem_append_right _ he))
  refine (alike_mutateFlag h hnamed hm₂).bind ?_
  intro mutate m₃ hm₃ _
  refine subjectType_bind ?_
  intro declared
  refine (alike_collection h hcalls hm₃ htarget hvs).bind ?_
  intro result m₄ hm₄ hresult
  split
  · split
    · exact .pure hm₄ hresult
    · exact (alike_bindDerived hm₄ hresult).bind_pure hresult
  · exact .pure hm₄ hresult

-- ---------------------------------------------------------------------------
-- Expressions
-- ---------------------------------------------------------------------------

/-- An element is read, or made of the subject afresh. -/
theorem alike_elementAt {subject index : Value} (hm : R.Kept d m) :
    R.Alike d (elementAt line subject index) (elementAt line subject index) m R.Proper := by
  unfold elementAt
  split
  · next id =>
    refine .heap_bind ?_
    refine .charge_bind hm ?_
    intro i _
    refine .pure hm ?_
    -- an element of the store, or the unit value where there is none
    rw [Array.getD]
    split
    · exact hm.heap id _ (Array.getElem_mem _)
    · exact proper_data rfl
  · refine .charge_bind hm ?_
    intro i _
    refine .newSeq hm ?_
    intro v hv
    obtain ⟨x, -, rfl⟩ := List.mem_map.mp hv
    exact proper_data rfl
  · refine .charge_bind hm ?_
    intro i _
    exact .pure hm (proper_data rfl)
  · exact .fail hm

/-- The right side is evaluated on both sides or on neither. -/
theorem alike_evalLogic (h : R.Pairs given d self self') {op : BinaryOp} {decides : Bool}
    {left right : Expr} (hm : R.Kept d m) (hleft : given (.eval none left))
    (hright : given (.eval none right)) :
    R.Alike d (self.evalLogic op decides left right line)
      (self'.evalLogic op decides left right line) m R.Proper := by
  refine (h.eval hm hleft).bind ?_
  intro l m₁ hm₁ _
  split
  · split
    · exact .pure hm₁ (proper_data rfl)
    · refine (h.eval hm₁ hright).bind ?_
      intro r m₂ hm₂ _
      split
      · exact .pure hm₂ (proper_data rfl)
      · exact .fail hm₂
  · exact .fail hm₁

/-- **Expressions.** One rule for each form; a function without a name is made here
(`hcodes`). -/
theorem alike_evalExpr (h : R.Pairs (Task.Part (.eval hint e)) d self self')
    (hcodes : ∀ c ∈ (Task.eval hint e).codes, R.Allowed c) (hm : R.Kept d m) :
    R.Alike d (self.evalExpr hint e) (self'.evalExpr hint e) m R.Proper := by
  -- the operands are parts whatever their hints, and so is every call
  have hparts : ∀ hint', ∀ x ∈ e.operands, Task.Part (.eval hint e) (.eval hint' x) :=
    fun _ _ hx => hx
  have hcalls : ∀ f vs line, Task.Part (.eval hint e) (.call f vs line) := fun _ _ _ => trivial
  unfold Doer.evalExpr
  split
  · exact .pure hm (proper_data (Value.isData_ofLiteral _))
  · exact .valueOf hm
  · exact alike_evalLogic h hm (hparts _ _ (by simp [Expr.operands]))
      (hparts _ _ (by simp [Expr.operands]))
  · exact alike_evalLogic h hm (hparts _ _ (by simp [Expr.operands]))
      (hparts _ _ (by simp [Expr.operands]))
  · -- the operators that always evaluate both sides
    refine (h.eval hm (hparts _ _ (by simp [Expr.operands]))).bind ?_
    intro a m₁ hm₁ _
    refine (h.eval hm₁ (hparts _ _ (by simp [Expr.operands]))).bind ?_
    intro b m₂ hm₂ _
    refine .heap_bind ?_
    exact .charge hm₂ fun v hv => proper_data (Value.isData_binary hv)
  · -- a sign
    refine (h.eval hm (hparts _ _ (by simp [Expr.operands]))).bind ?_
    intro v m₁ hm₁ _
    exact .charge hm₁ fun w hw => proper_data (Value.isData_unary hw)
  · -- a cast
    refine (h.eval hm (hparts _ _ (by simp [Expr.operands]))).bind ?_
    intro v m₁ hm₁ _
    refine .heap_bind ?_
    exact .charge hm₁ fun w hw => proper_data (Value.isData_cast hw)
  · -- a call
    refine (Alike.valueOf hm).bind ?_
    intro f m₁ hm₁ hf
    refine (alike_evalArguments h hm₁ hparts).bind ?_
    intro vs m₂ hm₂ hvs
    exact h.call hm₂ (hcalls ..) hf hvs
  · -- an index
    refine (h.eval hm (hparts _ _ (by simp [Expr.operands]))).bind ?_
    intro s m₁ hm₁ _
    refine (h.eval hm₁ (hparts _ _ (by simp [Expr.operands]))).bind ?_
    intro i m₂ hm₂ _
    exact alike_elementAt hm₂
  · exact alike_operation h (hparts none) (fun _ _ => hcalls ..) hm
  · -- an array literal
    refine (alike_evalItems h hm (hparts _)).bind ?_
    intro vs m₁ hm₁ hvs
    exact .newSeq hm₁ hvs
  · exact .newClosure hm (hcodes _ (List.mem_cons_self ..))

-- ---------------------------------------------------------------------------
-- Statements
-- ---------------------------------------------------------------------------

section

variable (h : R.Pairs given d self self')

include h

/-- The run lemma of bodies, by induction on the statements that are left. -/
theorem alike_execFrom {last : Value} {body : List Stmt} (hgiven : ∀ s ∈ body, given (.exec s))
    (hm : R.Kept d m) (hlast : R.Proper last) :
    R.Alike d (self.execFrom last body) (self'.execFrom last body) m R.Proper := by
  induction body generalizing last m with
  | nil => exact .pure hm hlast
  | cons s ss ih =>
    refine (h.exec hm (hgiven s (List.mem_cons_self ..))).bind ?_
    intro v n hn hv
    exact .unless_returning hn hv (ih (fun x hx => hgiven x (List.mem_cons_of_mem _ hx)) hn hv)

theorem alike_execAll {body : List Stmt} (hgiven : ∀ s ∈ body, given (.exec s))
    (hm : R.Kept d m) : R.Alike d (self.execAll body) (self'.execAll body) m R.Proper :=
  alike_execFrom h hgiven hm (proper_data rfl)

/-- A block is a body in a frame of its own. -/
theorem alike_execBlock {body : List Stmt} (hgiven : ∀ s ∈ body, given (.exec s))
    (hm : R.Kept d m) : R.Alike d (self.execBlock body) (self'.execBlock body) m R.Proper :=
  .scope hm fun _ hn => alike_execAll h hgiven hn

theorem alike_condition {statement : String} {c : Expr} (hc : given (.eval none c))
    (hm : R.Kept d m) :
    R.Alike d (self.condition statement c) (self'.condition statement c) m fun _ => True := by
  refine (h.eval hm hc).bind ?_
  intro v n hn _
  split
  · exact .pure hn trivial
  · exact .fail hn

/-- A declaration evaluates its value under its type. -/
theorem alike_execDeclare {name : String} {ty : Option Ty} {value : Option Expr}
    (hvalue : ∀ hint, ∀ e ∈ value.toList, given (.eval hint e)) (hm : R.Kept d m) :
    R.Alike d (self.execDeclare name ty value line) (self'.execDeclare name ty value line) m
      fun _ => True := by
  have hinitial : R.Alike d (self.initial ty value) (self'.initial ty value) m R.Proper := by
    unfold Doer.initial
    split
    · exact h.eval hm (hvalue _ _ (by simp))
    · next ty =>
      cases ty with
      | array _ | list _ => exact Alike.newSeq hm allProper_nil
      | _ => exact Alike.pure hm (proper_data rfl)
    · exact .pure hm (proper_data rfl)
  refine hinitial.bind ?_
  intro v m₁ hm₁ hv
  refine (Alike.assignable? hm₁ hv).bind ?_
  intro w m₂ hm₂ hw
  exact .define hm₂ hw

/-- An assignment evaluates its value under the declared type of the target. -/
theorem alike_execAssign {target : String} {op : AssignOp} {value : Expr}
    (hvalue : ∀ hint, given (.eval hint value)) (hm : R.Kept d m) :
    R.Alike d (self.execAssign target op value line) (self'.execAssign target op value line) m
      fun _ => True := by
  refine .declared?_bind ?_
  intro declared
  have hassigned : R.Alike d (self.assigned target op declared value line)
      (self'.assigned target op declared value line) m R.Proper := by
    unfold Doer.assigned
    split
    · exact h.eval hm (hvalue _)
    · refine (Alike.valueOf hm).bind ?_
      intro current m₁ hm₁ _
      refine (h.eval hm₁ (hvalue _)).bind ?_
      intro v m₂ hm₂ _
      refine .heap_bind ?_
      exact .charge hm₂ fun w hw => proper_data (Value.isData_binary hw)
  refine hassigned.bind ?_
  intro v m₁ hm₁ hv
  refine (Alike.assignable? hm₁ hv).bind ?_
  intro w m₂ hm₂ hw
  exact .assign hm₂ hw

/-- Position first, then value, then the write. -/
theorem alike_execAssignIndex {target : String} {position value : Expr} {op : AssignOp}
    (hposition : given (.eval none position)) (hvalue : given (.eval none value))
    (hm : R.Kept d m) :
    R.Alike d (self.execAssignIndex target position op value line)
      (self'.execAssignIndex target position op value line) m fun _ => True := by
  refine .lookup?_bind ?_
  split
  · exact .fail hm
  refine (h.eval hm hposition).bind ?_
  intro index m₁ hm₁ _
  refine (h.eval hm₁ hvalue).bind ?_
  intro v m₂ hm₂ hv
  split
  · refine .heap_bind ?_
    refine .charge_bind hm₂ ?_
    intro w hw
    exact .setHeap_update hm₂ (hm₂.heap.elementWrite hv hw)
  · exact .fail hm₂

/-- The subject has one value, so the same case is chosen. -/
theorem alike_execSelect {subject : Expr} {cases : List MatchCase}
    (hsubject : given (.eval none subject))
    (hbodies : ∀ s ∈ cases.map MatchCase.body, given (.exec s)) (hm : R.Kept d m) :
    R.Alike d (self.execSelect subject cases line) (self'.execSelect subject cases line) m
      R.Proper := by
  refine (h.eval hm hsubject).bind ?_
  intro v m₁ hm₁ hv
  refine .heap_bind ?_
  split
  · exact .fail hm₁
  · next bindings body hfit =>
    refine .scope hm₁ ?_
    intro m₂ hm₂
    have hbindings : ∀ row ∈ bindings, R.Proper row.2 :=
      MatchCase.firstFit?_closed (fun _ id _ => hm₁.heap id) hv hfit
    refine (Alike.defineAll hm₂ hbindings).bind ?_
    intro _ m₃ hm₃ _
    refine alike_execAll h ?_ hm₃
    intro s hs
    rw [List.mem_singleton.mp hs]
    exact hbodies _ (MatchCase.body_mem_of_firstFit? hfit)

theorem alike_execReturn {value : Option Expr}
    (hvalue : ∀ e ∈ value.toList, given (.eval none e)) (hm : R.Kept d m) :
    R.Alike d (self.execReturn value) (self'.execReturn value) m R.Proper := by
  unfold Doer.execReturn
  split
  · refine (h.eval hm (hvalue _ (by simp))).bind ?_
    intro v m₁ hm₁ hv
    exact (Alike.setPending hm₁ hv).bind_pure (proper_data rfl)
  · exact (Alike.setPending hm (proper_data rfl)).bind_pure (proper_data rfl)

/-- One round of a loop; the rounds that follow are a part of it. -/
theorem alike_execLoop {c : Expr} {body : List Stmt} {p : Place} (hc : given (.eval none c))
    (hbody : ∀ s ∈ .loop c body p :: body, given (.exec s)) (hm : R.Kept d m) :
    R.Alike d (self.execLoop c body p) (self'.execLoop c body p) m R.Proper := by
  refine (alike_condition h hc hm).bind ?_
  intro go m₁ hm₁ _
  split
  · refine (alike_execBlock h (fun s hs => hbody s (List.mem_cons_of_mem _ hs)) hm₁).bind ?_
    intro _ m₂ hm₂ _
    exact .unless_returning hm₂ (proper_data rfl) (h.exec hm₂ (hbody _ (List.mem_cons_self ..)))
  · exact .pure hm₁ (proper_data rfl)

end

/-- A declared function is made here, with code that is allowed. -/
theorem alike_declareFunction {decl : FuncDecl} (hcode : R.Allowed (.declared decl))
    (hm : R.Kept d m) :
    R.Alike d (Run.declareFunction decl line) (Run.declareFunction decl line) m
      fun _ => True := by
  have hbinds : R.Alike d (Run.bindsFunction decl.name) (Run.bindsFunction decl.name) m
      fun _ => True := by
    refine .get_bind ?_
    split
    · exact .pure hm trivial
    · exact .pure hm trivial
  refine hbinds.bind ?_
  intro bound m₁ hm₁ _
  split
  · exact .fail hm₁
  · refine (Alike.newClosure hm₁ hcode).bind ?_
    intro f m₂ hm₂ hf
    exact .define hm₂ hf

/-- **Statements.** One rule for each form. -/
theorem alike_execStmt {s : Stmt} (h : R.Pairs (Task.Part (.exec s)) d self self')
    (hcodes : ∀ c ∈ (Task.exec s).codes, R.Allowed c) (hm : R.Kept d m) :
    R.Alike d (self.execStmt s) (self'.execStmt s) m R.Proper := by
  have hexprs : ∀ hint, ∀ e ∈ s.exprs, Task.Part (.exec s) (.eval hint e) := fun _ _ he => he
  have hstmts : ∀ x ∈ s.stmts, Task.Part (.exec s) (.exec x) := fun _ hx => hx
  unfold Doer.execStmt
  split
  · exact (alike_execDeclare h hexprs hm).bind_pure (proper_data rfl)
  · exact (alike_execAssign h (fun hint => hexprs hint _ (List.mem_cons_self ..)) hm).bind_pure
      (proper_data rfl)
  · exact (alike_execAssignIndex h (hexprs _ _ (by simp [Stmt.exprs]))
      (hexprs _ _ (by simp [Stmt.exprs])) hm).bind_pure (proper_data rfl)
  · exact (alike_declareFunction (hcodes _ (List.mem_cons_self ..)) hm).bind_pure (proper_data rfl)
  · -- a branch
    refine (alike_condition h (hexprs _ _ (List.mem_cons_self ..)) hm).bind ?_
    intro b m₁ hm₁ _
    split
    · exact alike_execBlock h (fun x hx => hstmts x (List.mem_append_left _ hx)) hm₁
    · split
      · exact alike_execBlock h (fun x hx => hstmts x (List.mem_append_right _ hx)) hm₁
      · exact .pure hm₁ (proper_data rfl)
  · exact alike_execLoop h (hexprs _ _ (List.mem_cons_self ..)) hstmts hm
  · exact alike_execSelect h (hexprs _ _ (List.mem_cons_self ..)) hstmts hm
  · exact alike_execReturn h (hexprs none) hm
  · exact alike_execBlock h hstmts hm
  · exact h.eval hm (hexprs _ _ (List.mem_cons_self ..))

-- ---------------------------------------------------------------------------
-- Calls
-- ---------------------------------------------------------------------------

theorem alike_bindParam {p : Param} {v : Value} (hm : R.Kept d m) (hv : R.Proper v) :
    R.Alike d (Doer.bindParam p v line) (Doer.bindParam p v line) m fun _ => True := by
  refine (Alike.assignable hm hv).bind ?_
  intro w n hn hw
  exact .define hn hw

/-- The run lemma of parameters; a default is an expression of the code. -/
theorem alike_bindParams (h : R.Pairs given d self self') {function : String}
    {params : List Param}
    (hgiven : ∀ hint, ∀ e ∈ params.filterMap Param.default, given (.eval hint e))
    (hm : R.Kept d m) (hargs : R.AllProper args) :
    R.Alike d (self.bindParams function line params args)
      (self'.bindParams function line params args) m fun _ => True := by
  induction params generalizing args m with
  | nil => exact .pure hm trivial
  | cons p ps ih =>
    have hrest : ∀ hint, ∀ e ∈ ps.filterMap Param.default, given (.eval hint e) := by
      intro hint e he
      refine hgiven hint e ?_
      rw [List.filterMap_cons]
      split
      · exact he
      · exact List.mem_cons_of_mem _ he
    cases args with
    | cons v vs =>
      obtain ⟨hv, hvs⟩ := allProper_cons.mp hargs
      refine (alike_bindParam hm hv).bind ?_
      intro _ m₁ hm₁ _
      exact ih hrest hm₁ hvs
    | nil =>
      unfold Doer.bindParams
      split
      · exact .fail hm
      · next e hdefault =>
        have he : given (.eval (some p.ty) e) := hgiven _ e (by simp [hdefault])
        refine (h.eval hm he).bind ?_
        intro v m₁ hm₁ hv
        refine (alike_bindParam hm₁ hv).bind ?_
        intro _ m₂ hm₂ _
        exact ih hrest hm₂ allProper_nil

/-- The body of a function, with its returns ended. -/
theorem alike_runCode (h : R.Pairs given d self self') {code : Code}
    (hexprs : ∀ hint, ∀ e ∈ code.exprs, given (.eval hint e))
    (hstmts : ∀ s ∈ code.stmts, given (.exec s)) (hm : R.Kept d m) (hargs : R.AllProper args) :
    R.Alike d (self.runCode code args line) (self'.runCode code args line) m R.Proper := by
  unfold Doer.runCode
  split
  · split
    · exact .fail hm
    · refine (alike_bindParams h hexprs hm hargs).bind ?_
      intro _ m₁ hm₁ _
      refine (alike_execAll h hstmts hm₁).bind ?_
      intro last m₂ hm₂ hlast
      exact .takePending hm₂ hlast
  · split
    · next v =>
      refine (Alike.define hm (hargs v (List.mem_cons_self ..))).bind ?_
      intro _ m₁ hm₁ _
      exact h.eval hm₁ (hexprs _ _ (List.mem_cons_self ..))
    · exact .fail hm

/-- **One step.** The runs of a task end alike if those of its parts do. Inside a
call there is one more call under way, and a call that is refused has no parts. -/
theorem alike_step {limit : Nat} {t : Task} (hcodes : ∀ c ∈ t.codes, R.Allowed c)
    (hoperands : R.AllProper t.operands) (hm : R.Kept d m)
    (h : ¬ t.Refused limit d → R.Pairs t.Part (t.inside d) self self') :
    R.Alike d (step limit self t) (step limit self' t) m R.Proper := by
  cases t with
  | eval hint e => exact alike_evalExpr (h id) hcodes hm
  | exec s => exact alike_execStmt (h id) hcodes hm
  | call f args line =>
    obtain ⟨hf, hargs⟩ := allProper_cons.mp hoperands
    cases f with
    | func c =>
      refine Alike.get_bind ?_
      split
      · exact .fail hm
      · next hroom =>
        have hself := h (hm.depth ▸ hroom)
        refine .call hm ?_
        intro n hn
        exact alike_runCode hself (fun _ _ he => he) (fun _ hs => hs) hn hargs
    | builtin b =>
      show R.Alike d (b.call self args line) (b.call self' args line) m R.Proper
      unfold Builtin.call
      split
      · refine alike_builtin (h id) ?_ hm hargs
        exact fun htwo _ _ => ⟨htwo, rfl⟩
      · exact .fail hm
    | _ => exact Alike.fail hm

end Regime

end SeqScript
