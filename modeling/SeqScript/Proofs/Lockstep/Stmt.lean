import SeqScript.Proofs.Lockstep

/-!
# Statements and calls side by side

The statements that hand on expressions only, and the binding of parameters,
agree for any two ways to do tasks that agree on expressions and calls. Bodies,
loops, cases and calls hand on statements as well; for these the two ways have to
agree on all tasks (`AgreesFully`). Each goes on to its next statement only if no
return is under way, so that it is enough to know the two ways on machines
without one. `agree_step` puts the parts together.
-/

namespace SeqScript

open Discipline

variable {α β : Type} {spared : Stop → Prop} {m : Machine} {self self' : Doer}

-- ---------------------------------------------------------------------------
-- Expressions and a write
-- ---------------------------------------------------------------------------

namespace Doer

section

variable (h : self.Agrees spared self')

include h

/-- A condition is an expression and a check of its value. -/
theorem agree_condition_bind {statement : String} {e : Expr} {f g : Bool → Run β}
    (hm : m.pending = none) (hnext : ∀ x n, n.pending = none → Agree spared (f x) (g x) n) :
    Agree spared (self.condition statement e >>= f) (self'.condition statement e >>= g) m := by
  refine .bind_safe (safe_condition h.obeyed (standing_vacuous m) (Set.subset_univ _)) hm ?_ hnext
  exact h.eval_bind hm fun _ _ _ => .same

/-- A variable without an expression begins with a value that no task gives. -/
theorem agree_initial {ty : Option Ty} {value : Option Expr} (hm : m.pending = none) :
    Agree spared (self.initial ty value) (self'.initial ty value) m := by
  unfold initial
  split
  · exact h.eval hm
  · exact .same
  · exact .same

theorem agree_execDeclare {name : String} {ty : Option Ty} {value : Option Expr} {line : Nat}
    (hm : m.pending = none) :
    Agree spared (self.execDeclare name ty value line) (self'.execDeclare name ty value line) m :=
  (agree_initial h hm).bind fun _ _ _ => .same

/-- The old value is read before the right side is evaluated, on the same
machine. -/
theorem agree_assigned {target : String} {op : AssignOp} {declared : Option Ty} {value : Expr}
    {line : Nat} (hm : m.pending = none) :
    Agree spared (self.assigned target op declared value line)
      (self'.assigned target op declared value line) m := by
  unfold assigned
  split
  · exact h.eval hm
  · refine .valueOf_bind ?_
    intro current
    exact h.eval_bind hm fun _ _ _ => .same

/-- The declared type is read first, then the value is made to fit it. -/
theorem agree_execAssign {target : String} {op : AssignOp} {value : Expr} {line : Nat}
    (hm : m.pending = none) :
    Agree spared (self.execAssign target op value line) (self'.execAssign target op value line)
      m := by
  refine .declared?_bind ?_
  intro declared
  exact (agree_assigned h hm).bind fun _ _ _ => .same

/-- The target is looked up before position and value are evaluated, on the same
machine. -/
theorem agree_execAssignIndex {target : String} {position : Expr} {op : AssignOp} {value : Expr}
    {line : Nat} (hm : m.pending = none) :
    Agree spared (self.execAssignIndex target position op value line)
      (self'.execAssignIndex target position op value line) m := by
  refine .lookup?_bind ?_
  intro b
  cases b with
  | none => exact .same
  | some b =>
    refine h.eval_bind hm ?_
    intro index m₁ hm₁
    exact h.eval_bind hm₁ fun _ _ _ => .same

/-- Here a return is set off, as the last thing that is done. -/
theorem agree_execReturn {value : Option Expr} (hm : m.pending = none) :
    Agree spared (self.execReturn value) (self'.execReturn value) m := by
  unfold execReturn
  split
  · exact h.eval_bind hm fun _ _ _ => .same
  · exact .same

/-- The run lemma of parameters. A default is evaluated where the earlier
parameters are bound. -/
theorem agree_bindParams {function : String} {line : Nat} {params : List Param}
    {args : List Value} (hm : m.pending = none) :
    Agree spared (self.bindParams function line params args)
      (self'.bindParams function line params args) m := by
  induction params generalizing args m with
  | nil => exact .same
  | cons p ps ih =>
    have hbind : ∀ v n, n.pending = none → ∀ vs,
        Agree spared (do bindParam p v line; self.bindParams function line ps vs)
          (do bindParam p v line; self'.bindParams function line ps vs) n := by
      intro v n hn vs
      have hsafe : vacuous.Safe Set.univ false (bindParam p v line) n fun _ _ => True :=
        safe_bindParam (standing_vacuous n) trivial
      exact .bind_safe hsafe hn .same fun _ _ hn₁ => ih hn₁
    cases args with
    | cons v vs => exact hbind v m hm vs
    | nil =>
      unfold bindParams
      split
      · exact .same
      · refine h.eval_bind hm ?_
        intro v n hn
        exact hbind v n hn []

/-- The body of a function without a name is an expression, so nothing in it
returns. -/
theorem agree_runLambda {param : String} {body : Expr} {args : List Value} {line : Nat}
    (hm : m.pending = none) :
    Agree spared (self.runCode (.lambda param body) args line)
      (self'.runCode (.lambda param body) args line) m := by
  unfold runCode
  dsimp only
  split
  · next v =>
    have hsafe : vacuous.Safe Set.univ false (Run.define param v none) m fun _ _ => True :=
      Safe.define (standing_vacuous m) (Set.mem_univ _) trivial (by simp)
    exact .bind_safe hsafe hm .same fun _ m₁ hm₁ => h.eval hm₁
  · exact .same

end

end Doer

-- ---------------------------------------------------------------------------
-- Frames and returns
-- ---------------------------------------------------------------------------

namespace Agree

variable {a b : Run α}

/-- What is restored at the end of a block or call is restored on both sides. -/
theorem restoring {restore : Machine → Machine} (h : Agree spared a b m) :
    Agree spared (Run.restoring restore a) (Run.restoring restore b) m := by
  rcases h with ⟨e, n, hrun, he⟩ | heq
  · exact Or.inl ⟨e, restore n, by simp [Run.restoring, hrun], he⟩
  · exact Or.inr (by simp [Run.restoring, heq])

/-- A block runs in a new frame, the same for both. -/
theorem scope (hm : m.pending = none) (h : ∀ n, n.pending = none → Agree spared a b n) :
    Agree spared (do let f ← Run.newFrame; Run.inFrame f a)
      (do let f ← Run.newFrame; Run.inFrame f b) m := by
  let inside : Machine :=
    { m with scopes := (m.scopes.child m.frame).2, frame := (m.scopes.child m.frame).1 }
  let back : Machine → Machine := fun n => { n with frame := m.frame }
  have hin : Agree spared (Run.restoring back a) (Run.restoring back b) inside :=
    restoring (h inside hm)
  exact hin

/-- A call begins without a return under way, whatever the caller was doing. -/
theorem call {p : FrameId} (h : ∀ n, n.pending = none → Agree spared a b n) :
    Agree spared (do let f ← Run.childOf p; Run.inCall f a)
      (do let f ← Run.childOf p; Run.inCall f b) m := by
  let inside : Machine :=
    { m with
      scopes := (m.scopes.child p).2, frame := (m.scopes.child p).1, depth := m.depth + 1,
      pending := none }
  let back : Machine → Machine := fun n =>
    { n with frame := m.frame, depth := n.depth - 1, pending := m.pending }
  have hin : Agree spared (Run.restoring back a) (Run.restoring back b) inside :=
    restoring (h inside rfl)
  exact hin

/-- What follows a statement is done only if the statement has not returned. -/
theorem unless_returning {x : α} (h : m.pending = none → Agree spared a b m) :
    Agree spared (do if ← Run.returning then return x else a)
      (do if ← Run.returning then return x else b) m := by
  have hopen : ∀ act : Run α, (do if ← Run.returning then return x else act : Run α) m =
      (if m.pending.isSome then (return x : Run α) else act) m := fun _ => rfl
  unfold Agree
  rw [hopen a, hopen b]
  cases hp : m.pending with
  | none => exact h hp
  | some v => exact Or.inr rfl

end Agree

-- ---------------------------------------------------------------------------
-- Bodies
-- ---------------------------------------------------------------------------

/-- Two ways to do tasks agree on all tasks while no return is under way. -/
structure Doer.AgreesFully (spared : Stop → Prop) (one other : Doer) : Prop where
  obeyed : vacuous.Obeyed one
  task : ∀ t m, m.pending = none → Agree spared (one t) (other t) m

namespace Doer

variable (h : self.AgreesFully spared self')

include h

/-- Expressions and calls are among the tasks. -/
theorem AgreesFully.agrees : self.Agrees spared self' :=
  ⟨h.obeyed, fun t m _ hm => h.task t m hm⟩

/-- The run lemma of bodies, by induction on the statements that are left. -/
theorem agree_execFrom {last : Value} {body : List Stmt} (hm : m.pending = none) :
    Agree spared (self.execFrom last body) (self'.execFrom last body) m := by
  induction body generalizing last m with
  | nil => exact .same
  | cons s ss ih =>
    refine (h.task (.exec s) m hm).bind ?_
    intro v n _
    exact .unless_returning fun hn => ih hn

theorem agree_execAll {body : List Stmt} (hm : m.pending = none) :
    Agree spared (self.execAll body) (self'.execAll body) m :=
  agree_execFrom h hm

/-- A block is a body in a frame of its own. -/
theorem agree_execBlock {body : List Stmt} (hm : m.pending = none) :
    Agree spared (self.execBlock body) (self'.execBlock body) m :=
  .scope hm fun _ hn => agree_execAll h hn

/-- The subject has one value, so the same case fits and binds the same names.
-/
theorem agree_execSelect {subject : Expr} {cases : List MatchCase} {line : Nat}
    (hm : m.pending = none) :
    Agree spared (self.execSelect subject cases line) (self'.execSelect subject cases line) m := by
  refine h.agrees.eval_bind hm ?_
  intro v m₁ hm₁
  refine .heap_bind ?_
  split
  · exact .same
  · refine .scope hm₁ ?_
    intro m₂ hm₂
    refine .bind_safe (Safe.defineAll (standing_vacuous m₂) (fun _ _ => Set.mem_univ _)
      fun _ _ => trivial) hm₂ .same ?_
    intro _ m₃ hm₃
    exact agree_execAll h hm₃

/-- One round of a loop; the rounds that follow are a task of their own. -/
theorem agree_execLoop {c : Expr} {body : List Stmt} {p : Place} (hm : m.pending = none) :
    Agree spared (self.execLoop c body p) (self'.execLoop c body p) m := by
  refine agree_condition_bind h.agrees hm ?_
  intro go m₁ hm₁
  split
  · refine (agree_execBlock h hm₁).bind ?_
    intro _ m₂ _
    exact .unless_returning fun hm₂ => h.task _ m₂ hm₂
  · exact .same

/-- **Statements.** One rule for each form. -/
theorem agree_execStmt {s : Stmt} (hm : m.pending = none) :
    Agree spared (self.execStmt s) (self'.execStmt s) m := by
  unfold execStmt
  split
  · exact (agree_execDeclare h.agrees hm).bind fun _ _ _ => .same
  · exact (agree_execAssign h.agrees hm).bind fun _ _ _ => .same
  · exact (agree_execAssignIndex h.agrees hm).bind fun _ _ _ => .same
  · exact .same
  · refine agree_condition_bind h.agrees hm ?_
    intro x m₁ hm₁
    split
    · exact agree_execBlock h hm₁
    · split
      · exact agree_execBlock h hm₁
      · exact .same
  · exact agree_execLoop h hm
  · exact agree_execSelect h hm
  · exact agree_execReturn h.agrees hm
  · exact agree_execBlock h hm
  · exact h.agrees.eval hm

-- ---------------------------------------------------------------------------
-- Calls
-- ---------------------------------------------------------------------------

/-- The body of a declared function is one of statements, and its returns end in
the call. -/
theorem agree_runCode {code : Code} {args : List Value} {line : Nat} (hm : m.pending = none) :
    Agree spared (self.runCode code args line) (self'.runCode code args line) m := by
  cases code with
  | declared decl =>
    unfold runCode
    dsimp only
    split
    · exact .same
    · refine .bind_safe (safe_bindParams h.obeyed (standing_vacuous m) fun _ _ => trivial) hm
        (agree_bindParams h.agrees hm) ?_
      intro _ m₁ hm₁
      exact (agree_execAll h hm₁).bind fun _ _ _ => .same
  | lambda param body => exact agree_runLambda h.agrees hm

/-- A call is refused at the limit on both sides, as the depth is part of the
machine. -/
theorem agree_callValue {limit : Nat} {f : Value} {args : List Value} {line : Nat}
    (hm : m.pending = none) :
    Agree spared (self.callValue limit f args line) (self'.callValue limit f args line) m := by
  unfold callValue
  split
  · unfold callClosure
    refine .get_bind ?_
    split
    · exact .same
    · exact .call fun _ hn => agree_runCode h hn
  · exact Builtin.agree_call h.agrees hm
  · exact .same

end Doer

/-- One step: two ways to do tasks agree if the ways to do the smaller tasks do. -/
theorem agree_step {limit : Nat} (h : self.AgreesFully spared self') (t : Task)
    (hm : m.pending = none) : Agree spared (step limit self t) (step limit self' t) m := by
  cases t with
  | eval hint e => exact Doer.agree_evalExpr h.agrees hm
  | exec s => exact Doer.agree_execStmt h hm
  | call f args line => exact Doer.agree_callValue h hm

end SeqScript
