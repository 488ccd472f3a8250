import SeqScript.Proofs.Lockstep.Stmt

/-!
# Returns as structured control flow

The machine carries a `return` outwards in a register that every statement looks
at before it goes on. Here is the evaluator without that register: each task says
itself how it ended, and what ends in a return is handed outwards by the blocks,
branches, loops and cases around it, up to the call or the program, whose value it
is. Expressions and operations are those of the evaluator.

* `Run.completion` — how a run with the register ends, in these terms.
* `refines_perform` — the two evaluators give the same completions, whatever the
  task, begun on a machine with no return under way.
* `agrees_performUnless` — nothing is begun while a return is under way. For this
  `performUnless` does whatever else it is told to do in that case, and cannot be
  told apart from the evaluator.
* `returns_structured` — what follows for bodies, calls and programs.
-/

namespace SeqScript

open Run Discipline

-- ---------------------------------------------------------------------------
-- The evaluator without the register
-- ---------------------------------------------------------------------------

/-- How a task ends: it runs through with a value, or it returns one. -/
inductive Completion where
  | normal (v : Value)
  | returned (v : Value)

/-- The value of a body that ends so. -/
def Completion.value : Completion → Value
  | normal v | returned v => v

/-- A way to do tasks in which each says how it ended. -/
abbrev Structured := Task → Run Completion

namespace Structured

variable (self : Structured)

/-- The same way, for tasks of which only the value is asked: expressions and
calls, which never return. -/
def doer : Doer := fun t => return (← self t).value

/-- Executes statements until one returns. -/
def execFrom (last : Value) : List Stmt → Run Completion
  | [] => return .normal last
  | s :: ss => do
    match ← self (.exec s) with
    | .normal v => execFrom v ss
    | .returned v => return .returned v

def execAll (body : List Stmt) : Run Completion := self.execFrom .unit body

def execBlock (body : List Stmt) : Run Completion := do
  let f ← newFrame
  inFrame f (self.execAll body)

def execSelect (subject : Expr) (cases : List MatchCase) (line : Nat) : Run Completion := do
  let v ← self.doer.eval subject
  let h ← heap
  match MatchCase.firstFit? h v cases with
  | none => fail line (.noCase (h.text v))
  | some (bindings, body) => do
    let f ← newFrame
    inFrame f do
      defineAll bindings
      self.execAll [body]

/-- A turn that returns is the last. -/
def execLoop (c : Expr) (body : List Stmt) (p : Place) : Run Completion := do
  if ← self.doer.condition "while" c then
    match ← self.execBlock body with
    | .normal _ => self (.exec (.loop c body p))
    | .returned v => return .returned v
  else return .normal .unit

def execReturn : Option Expr → Run Completion
  | some e => return .returned (← self.doer.eval e)
  | none => return .returned .unit

/-- Executes a statement. Those that hold no statements run through. -/
def execStmt : Stmt → Run Completion
  | .branch c onTrue onFalse _ => do
    if ← self.doer.condition "if" c then self.execBlock onTrue
    else
      match onFalse with
      | some body => self.execBlock body
      | none => return .normal .unit
  | .loop c body p => self.execLoop c body p
  | .select subject cases p => self.execSelect subject cases p.line
  | .ret value _ => self.execReturn value
  | .block body _ => self.execBlock body
  | s => return .normal (← self.doer.execStmt s)

/-- Runs something as a call in a frame, one level deeper. -/
def inCall {α : Type} (f : FrameId) (act : Run α) : Run α := do
  let frame := (← get).frame
  restoring (fun m => { m with frame, depth := m.depth - 1 }) do
    modify fun m => { m with frame := f, depth := m.depth + 1 }
    act

/-- The value of a function's body is the one it returns, or else that of its last
statement. -/
def runCode (code : Code) (args : List Value) (line : Nat) : Run Value := do
  match code with
  | .declared decl =>
    if decl.params.length < args.length then
      fail line (.tooManyArguments decl.name decl.params.length args.length)
    else
      self.doer.bindParams decl.name line decl.params args
      return (← self.execAll decl.body).value
  | .lambda .. => self.doer.runCode code args line

def callClosure (limit : Nat) (f : Closure) (args : List Value) (line : Nat) : Run Value := do
  if limit ≤ (← get).depth then fail line (.callDepth limit)
  else
    let frame ← childOf f.frame
    inCall frame (self.runCode f.code args line)

def callValue (limit : Nat) (f : Value) (args : List Value) (line : Nat) : Run Value :=
  match f with
  | .func c => self.callClosure limit c args line
  | v => self.doer.callValue limit v args line

/-- What a task comes down to. -/
def step (limit : Nat) : Task → Run Completion
  | .eval hint e => return .normal (← self.doer.evalExpr hint e)
  | .exec s => self.execStmt s
  | .call f args line => return .normal (← self.callValue limit f args line)

/-- Does a task, within the same budget as the evaluator. -/
def perform (limit : Nat) : Nat → Structured
  | 0, _ => throw .exhausted
  | budget + 1, t => step (perform limit budget) limit t

/-- Runs a program: its value is the one it returns, or else that of its last
statement. -/
def runProgram (limit budget : Nat) (p : Program) : Run Value := do
  return (← (perform limit budget).execAll p).value

end Structured

-- ---------------------------------------------------------------------------
-- Completions of runs with the register
-- ---------------------------------------------------------------------------

/-- Takes up the return that is under way, and says whether there was one. -/
def Run.settle (v : Value) : Run Completion :=
  modifyGet fun m =>
    match m.pending with
    | none => (.normal v, m)
    | some w => (.returned w, { m with pending := none })

/-- How a run ends that leaves its return in the register. -/
def Run.completion (act : Run Value) : Run Completion := act >>= settle

namespace Run

variable {α β : Type} {m n : Machine}

theorem settle_none (v : Value) (hm : m.pending = none) : settle v m = .ok (.normal v) m := by
  cases m
  subst hm
  rfl

theorem settle_some (v : Value) {w : Value} (hm : m.pending = some w) :
    settle v m = .ok (.returned w) { m with pending := none } := by
  cases m
  subst hm
  rfl

theorem completion_bind (act : Run α) (next : α → Run Value) :
    completion (act >>= next) = act >>= fun x => completion (next x) :=
  bind_assoc act next settle

/-- Nothing is left under way. -/
theorem pending_completion {act : Run Value} {c : Completion} (h : act.completion m = .ok c n) :
    n.pending = none := by
  unfold completion at h
  cases hrun : act m with
  | error e m₁ =>
    rw [bind_of_error hrun] at h
    cases h
  | ok v m₁ =>
    rw [bind_of_ok hrun] at h
    cases hp : m₁.pending with
    | none =>
      rw [settle_none v hp] at h
      cases h
      exact hp
    | some w =>
      rw [settle_some v hp] at h
      cases h
      rfl

/-- Going on unless a return is under way is going on unless the first part has
returned. -/
theorem completion_unless_returning (act : Run Value) (stop : Value → Value)
    (next : Value → Run Value) :
    completion (do let v ← act; if ← returning then return stop v else next v) =
      (do
        match ← act.completion with
        | .normal v => (next v).completion
        | .returned w => return .returned w) := by
  funext m
  rw [completion_bind]
  cases hrun : act m with
  | error e n =>
    have hcompletion : act.completion m = .error e n := bind_of_error hrun
    rw [bind_of_error hrun, bind_of_error hcompletion]
  | ok v n =>
    have hcompletion : act.completion m = settle v n := bind_of_ok hrun
    have hreturning : returning n = .ok n.pending.isSome n := rfl
    rw [bind_of_ok hrun, completion_bind, bind_of_ok hreturning]
    cases hp : n.pending with
    | none =>
      rw [settle_none v hp] at hcompletion
      rw [bind_of_ok hcompletion]
      rfl
    | some w =>
      rw [settle_some v hp] at hcompletion
      rw [bind_of_ok hcompletion]
      exact settle_some (stop v) hp

/-- Frames come and go without regard to returns. -/
theorem completion_scope (act : Run Value) :
    completion (do let f ← newFrame; inFrame f act) =
      (do let f ← newFrame; inFrame f act.completion) := by
  rw [completion_bind]
  congr 1
  funext f m
  let inside : Machine := { m with frame := f }
  have hleft : (inFrame f act).completion m =
      (restoring (fun n => { n with frame := m.frame }) act >>= settle) inside := rfl
  have hright : inFrame f act.completion m =
      restoring (fun n => { n with frame := m.frame }) (act >>= settle) inside := rfl
  rw [hleft, hright, restoring]
  cases hrun : act inside with
  | error e n =>
    rw [bind_of_error hrun, bind_of_error (by rw [restoring, hrun])]
  | ok v n =>
    rw [bind_of_ok hrun, bind_of_ok (by rw [restoring, hrun])]
    obtain ⟨heap, scopes, frame, depth, pending, closures, output⟩ := n
    cases pending with
    | none => rfl
    | some w => rfl

/-- Taking up a return is asking for the value of the completion. -/
theorem bind_takePending (act : Run Value) :
    (do let last ← act; takePending last) = (do return (← act.completion).value) := by
  funext m
  rw [completion, bind_assoc]
  cases hrun : act m with
  | error e n => rw [bind_of_error hrun, bind_of_error hrun]
  | ok v n =>
    rw [bind_of_ok hrun, bind_of_ok hrun]
    obtain ⟨heap, scopes, frame, depth, pending, closures, output⟩ := n
    cases pending with
    | none => rfl
    | some w => rfl

end Run

-- ---------------------------------------------------------------------------
-- The two evaluators side by side
-- ---------------------------------------------------------------------------

variable {spared : Stop → Prop} {m : Machine}

namespace Agree

variable {names : Scopes.Names} {act act' : Run Value} {Q : Value → Heap → Prop}

/-- A run that sets off no return runs through. -/
theorem completion_normal (hsafe : vacuous.Safe names false act m Q) (hm : m.pending = none)
    (h : Agree spared act act' m) :
    Agree spared act.completion (do return .normal (← act')) m := by
  refine .bind_safe hsafe hm h ?_
  intro v n hn
  exact Or.inr (settle_none v hn)

theorem completion_unit {act act' : Run Unit} (hm : m.pending = none)
    (hsafe : vacuous.Safe names false act m fun _ _ => True) (h : Agree spared act act' m) :
    Agree spared (completion do act; return .unit)
      (do return .normal (← (do act'; return .unit))) m := by
  have hunit : vacuous.Safe names false (do act; return Value.unit) m vacuous.Val :=
    hsafe.bind_pure fun _ _ _ => trivial
  exact completion_normal hunit hm (h.bind fun _ _ _ => .same)

/-- A run that sets off no return has the value of its completion. -/
theorem value_of_completion {ref : Run Completion} (hsafe : vacuous.Safe names false act m Q)
    (hm : m.pending = none) (h : Agree spared act.completion ref m) :
    Agree spared act (do return (← ref).value) m := by
  have hvalue : Agree spared (do return (← act.completion).value) (do return (← ref).value) m :=
    h.bind fun _ _ _ => .same
  have hsame : (do return (← act.completion).value : Run Value) m = act m := by
    have hnormal : act.completion m = (do return .normal (← act) : Run Completion) m :=
      (completion_normal hsafe hm (.same : Agree (fun _ => False) act act m)).eq
    cases hrun : act m with
    | error e n =>
      rw [bind_of_error hrun] at hnormal
      rw [bind_of_error hnormal]
    | ok v n =>
      rw [bind_of_ok hrun] at hnormal
      rw [bind_of_ok hnormal]
      rfl
  unfold Agree at hvalue ⊢
  rwa [hsame] at hvalue

/-- A call with the register set aside, and one without a register. -/
theorem call_structured {p : FrameId} {act act' : Run Value} (hm : m.pending = none)
    (h : ∀ n, n.pending = none → Agree spared act act' n)
    (hquiet : ∀ n, n.pending = none → (act.after n).pending = none) :
    Agree spared (do let f ← childOf p; Run.inCall f act)
      (do let f ← childOf p; Structured.inCall f act') m := by
  let inside : Machine :=
    { m with
      scopes := (m.scopes.child p).2, frame := (m.scopes.child p).1, depth := m.depth + 1 }
  let back : Machine → Machine := fun n => { n with frame := m.frame, depth := n.depth - 1 }
  have hleft : (do let f ← childOf p; Run.inCall f act : Run Value) m =
      Run.restoring (fun n => { back n with pending := m.pending }) act
        { inside with pending := none } := rfl
  -- neither the register put aside nor the one at the end holds a return
  have hinside : ({ inside with pending := none } : Machine) = inside := by rw [← hm]
  have hback : ∀ n : Machine, n.pending = none →
      ({ back n with pending := m.pending } : Machine) = back n := by
    intro n hn
    rw [hm, ← hn]
  have hsame : (do let f ← childOf p; Run.inCall f act : Run Value) m =
      Run.restoring back act inside := by
    have hend := hquiet inside hm
    unfold Run.after at hend
    rw [hleft, hinside, Run.restoring, Run.restoring]
    cases hrun : act inside with
    | ok v n =>
      rw [hrun] at hend
      simp only [hback n hend]
    | error e n =>
      rw [hrun] at hend
      simp only [hback n hend]
  unfold Agree
  rw [hsame]
  exact restoring (h inside hm)

end Agree

/-- The completions of tasks done with the register are those of a structured way
to do them. -/
structure Doer.Refines (spared : Stop → Prop) (flagged : Doer) (ref : Structured) : Prop where
  obeyed : vacuous.Obeyed flagged
  completes : ∀ t m, m.pending = none → Agree spared (flagged t).completion (ref t) m

variable {self : Doer} {ref : Structured}

namespace Doer.Refines

variable (h : self.Refines spared ref)

include h

theorem agrees : self.Agrees spared ref.doer := by
  refine ⟨h.obeyed, ?_⟩
  intro t m ht hm
  have hsafe := h.obeyed t m (standing_vacuous m) fun _ _ => trivial
  rw [ht] at hsafe
  exact .value_of_completion hsafe hm (h.completes t m hm)

-- ---------------------------------------------------------------------------
-- Bodies
-- ---------------------------------------------------------------------------

theorem execFrom {last : Value} {body : List Stmt} (hm : m.pending = none) :
    Agree spared (self.execFrom last body).completion (ref.execFrom last body) m := by
  induction body generalizing last m with
  | nil => exact Or.inr (settle_none last hm)
  | cons s ss ih =>
    rw [Doer.execFrom, completion_unless_returning]
    refine (h.completes (.exec s) m hm).bind ?_
    intro c n hc
    cases c with
    | normal v => exact ih (pending_completion hc)
    | returned v => exact .same

theorem execAll {body : List Stmt} (hm : m.pending = none) :
    Agree spared (self.execAll body).completion (ref.execAll body) m :=
  h.execFrom hm

theorem execBlock {body : List Stmt} (hm : m.pending = none) :
    Agree spared (self.execBlock body).completion (ref.execBlock body) m := by
  rw [Doer.execBlock, completion_scope]
  exact .scope hm fun _ hn => h.execAll hn

theorem execSelect {subject : Expr} {cases : List MatchCase} {line : Nat}
    (hm : m.pending = none) :
    Agree spared (self.execSelect subject cases line).completion
      (ref.execSelect subject cases line) m := by
  rw [Doer.execSelect, completion_bind]
  refine h.agrees.eval_bind hm ?_
  intro v m₁ hm₁
  rw [completion_bind]
  refine .heap_bind ?_
  rcases MatchCase.firstFit? m₁.heap v cases with _ | ⟨bindings, body⟩
  · exact .same
  · rw [completion_scope]
    refine .scope hm₁ ?_
    intro m₂ hm₂
    rw [completion_bind]
    refine .bind_safe (Safe.defineAll (standing_vacuous m₂) (fun _ _ => Set.mem_univ _)
      fun _ _ => trivial) hm₂ .same ?_
    intro _ m₃ hm₃
    exact h.execAll hm₃

theorem execLoop {c : Expr} {body : List Stmt} {p : Place} (hm : m.pending = none) :
    Agree spared (self.execLoop c body p).completion (ref.execLoop c body p) m := by
  rw [Doer.execLoop, completion_bind]
  refine agree_condition_bind h.agrees hm ?_
  intro go m₁ hm₁
  split
  · rw [completion_unless_returning]
    refine (h.execBlock hm₁).bind ?_
    intro c₁ m₂ hc
    cases c₁ with
    | normal v => exact h.completes _ m₂ (pending_completion hc)
    | returned v => exact .same
  · exact Or.inr (settle_none _ hm₁)

theorem execReturn {value : Option Expr} (hm : m.pending = none) :
    Agree spared (self.execReturn value).completion (ref.execReturn value) m := by
  -- what has been set off is taken up at once
  have hreturn : ∀ v n, n.pending = none →
      completion (do setPending v; return .unit) n = .ok (.returned v) n := by
    rintro v ⟨heap, scopes, frame, depth, pending, closures, output⟩ ⟨⟩
    rfl
  cases value with
  | none => exact Or.inr (hreturn .unit m hm)
  | some e =>
    rw [Doer.execReturn, completion_bind]
    refine h.agrees.eval_bind hm ?_
    exact fun v n hn => Or.inr (hreturn v n hn)

theorem execStmt {s : Stmt} (hm : m.pending = none) :
    Agree spared (self.execStmt s).completion (ref.execStmt s) m := by
  have hst := standing_vacuous m
  have hall : ∀ names : Scopes.Names, names ⊆ Set.univ := Set.subset_univ
  cases s with
  | branch c onTrue onFalse p =>
    show Agree spared (completion (self.condition "if" c >>= _)) _ m
    rw [completion_bind]
    refine agree_condition_bind h.agrees hm ?_
    intro x m₁ hm₁
    cases x with
    | true => exact h.execBlock hm₁
    | false =>
      cases onFalse with
      | some body => exact h.execBlock hm₁
      | none => exact Or.inr (settle_none _ hm₁)
  | loop c body p => exact h.execLoop hm
  | select subject cases p => exact h.execSelect hm
  | ret value p => exact h.execReturn hm
  | block body p => exact h.execBlock hm
  -- the others set off no return
  | declare name ty value p =>
    exact .completion_unit hm (safe_execDeclare h.obeyed hst (hall _) (Set.mem_univ _))
      (agree_execDeclare h.agrees hm)
  | assign target op value p =>
    have hsafe : vacuous.Safe { q | q.2 = none } false (self.execAssign target op value p.line) m
        fun _ _ => True :=
      safe_execAssign h.obeyed hst (fun _ hq => hq.2) (fun _ hq => hq) fun _ => rfl
    exact .completion_unit hm hsafe (agree_execAssign h.agrees hm)
  | assignIndex target position op value p =>
    exact .completion_unit hm (safe_execAssignIndex h.obeyed hst (hall _) (hall _))
      (agree_execAssignIndex h.agrees hm)
  | func name params result body p =>
    exact .completion_unit hm (safe_declareFunction hst (Set.mem_univ _)) .same
  | expr e => exact .completion_normal (h.obeyed.eval hst (hall _)) hm (h.agrees.eval hm)

-- ---------------------------------------------------------------------------
-- Calls
-- ---------------------------------------------------------------------------

theorem runCode {code : Code} {args : List Value} {line : Nat} (hm : m.pending = none) :
    Agree spared (self.runCode code args line) (ref.runCode code args line) m := by
  cases code with
  | declared decl =>
    unfold Doer.runCode Structured.runCode
    dsimp only
    split
    · exact .same
    · refine .bind_safe (safe_bindParams h.obeyed (standing_vacuous m) fun _ _ => trivial) hm
        (agree_bindParams h.agrees hm) ?_
      intro _ m₁ hm₁
      rw [bind_takePending]
      exact (h.execAll hm₁).bind fun _ _ _ => .same
  | lambda param body =>
    exact agree_runLambda h.agrees hm

theorem callClosure {limit : Nat} {f : Closure} {args : List Value} {line : Nat}
    (hm : m.pending = none) :
    Agree spared (self.callClosure limit f args line) (ref.callClosure limit f args line) m := by
  unfold Doer.callClosure Structured.callClosure
  refine .get_bind ?_
  split
  · exact .same
  · refine .call_structured hm (fun _ hn => h.runCode hn) ?_
    intro n hn
    have hsafe : vacuous.Safe Set.univ false (self.runCode f.code args line) n vacuous.Val :=
      safe_runCode h.obeyed (standing_vacuous n) hn fun _ _ => trivial
    exact (hsafe.pending_after (Or.inl rfl)).trans hn

theorem callValue {limit : Nat} {f : Value} {args : List Value} {line : Nat}
    (hm : m.pending = none) :
    Agree spared (self.callValue limit f args line) (ref.callValue limit f args line) m := by
  cases f with
  | func c => exact h.callClosure hm
  | builtin b => exact Builtin.agree_call h.agrees hm
  | _ => exact .same

theorem step {limit : Nat} {t : Task} (hm : m.pending = none) :
    Agree spared (SeqScript.step limit self t).completion (ref.step limit t) m := by
  have hst := standing_vacuous m
  cases t with
  | exec s => exact h.execStmt hm
  | eval hint e =>
    have hsafe : vacuous.Safe Set.univ false (self.evalExpr hint e) m vacuous.Val :=
      safe_evalExpr h.obeyed hst (Set.subset_univ _)
    exact .completion_normal hsafe hm (agree_evalExpr h.agrees hm)
  | call f args line =>
    have hsafe : vacuous.Safe Set.univ false (self.callValue limit f args line) m vacuous.Val :=
      safe_callValue h.obeyed hst fun _ _ => trivial
    exact .completion_normal hsafe hm (h.callValue hm)

end Doer.Refines

/-- The evaluator gives the completions of structured control flow, for every task
begun with no return under way. -/
theorem refines_perform (limit budget : Nat) :
    (perform limit budget).Refines spared (Structured.perform limit budget) := by
  induction budget with
  | zero => exact ⟨obeyed_perform vacuous limit 0, fun _ _ _ => Or.inr rfl⟩
  | succ budget ih => exact ⟨obeyed_perform vacuous limit _, fun _ _ hm => ih.step hm⟩

-- ---------------------------------------------------------------------------
-- Nothing is begun while a return is under way
-- ---------------------------------------------------------------------------

/-- Does a task, or whatever `other` does if a return is under way when the task is
begun. -/
def performUnless (other : Doer) (limit : Nat) : Nat → Doer
  | 0, _ => throw .exhausted
  | budget + 1, t => do
    if ← returning then other t else step limit (performUnless other limit budget) t

theorem agrees_performUnless (other : Doer) (limit budget : Nat) :
    (perform limit budget).AgreesFully spared (performUnless other limit budget) := by
  induction budget with
  | zero => exact ⟨obeyed_perform vacuous limit 0, fun _ _ _ => .same⟩
  | succ budget ih =>
    refine ⟨obeyed_perform vacuous limit _, ?_⟩
    intro t m hm
    have hreturning : returning m = .ok false m := by
      show EStateM.Result.ok m.pending.isSome m = _
      rw [hm]
      rfl
    have hbegun : performUnless other limit (budget + 1) t m =
        step limit (performUnless other limit budget) t m := bind_of_ok hreturning
    unfold Agree
    rw [hbegun]
    exact agree_step ih t hm

-- ---------------------------------------------------------------------------
-- Statements behind a return
-- ---------------------------------------------------------------------------

/-- A body in two parts: the second is executed unless the first returns. -/
theorem Doer.execFrom_append (self : Doer) {last : Value} {body rest : List Stmt}
    (hm : m.pending = none) :
    self.execFrom last (body ++ rest) m =
      (do
        let v ← self.execFrom last body
        if ← returning then return v else self.execFrom v rest : Run Value) m := by
  induction body generalizing last m with
  | nil =>
    show self.execFrom last rest m =
      (if m.pending.isSome then (return last : Run Value) else self.execFrom last rest) m
    rw [hm]
    rfl
  | cons s ss ih =>
    rw [List.cons_append, Doer.execFrom, Doer.execFrom, bind_assoc]
    cases hrun : self (.exec s) m with
    | error e n => rw [bind_of_error hrun, bind_of_error hrun]
    | ok v n =>
      have hreturning : returning n = .ok n.pending.isSome n := rfl
      rw [bind_of_ok hrun, bind_of_ok hrun, bind_of_ok hreturning, bind_assoc,
        bind_of_ok hreturning]
      cases hp : n.pending with
      | none => exact ih hp
      | some w =>
        show EStateM.Result.ok v n =
          (if n.pending.isSome then (return v : Run Value) else self.execFrom v rest) n
        rw [hp]
        rfl

/-- A run whose completion is a return has left it in the register. -/
theorem Run.of_completion_returned {act : Run Value} {v : Value} {n : Machine}
    (h : act.completion m = .ok (.returned v) n) :
    ∃ u, act m = .ok u { n with pending := some v } := by
  unfold completion at h
  cases hrun : act m with
  | error e k =>
    rw [bind_of_error hrun] at h
    cases h
  | ok u k =>
    rw [bind_of_ok hrun] at h
    cases hp : k.pending with
    | none =>
      rw [settle_none u hp] at h
      cases h
    | some w =>
      rw [settle_some u hp] at h
      cases h
      refine ⟨u, ?_⟩
      rw [← hp]

-- ---------------------------------------------------------------------------
-- Main result
-- ---------------------------------------------------------------------------

/-- **The register of returns is structured control flow.** On a machine with no
return under way:
* statements, and all tasks, complete as they do in the evaluator without the
  register, with the same machine left or the same stop;
* the value of a call is that of the structured call, and the outcome of a program
  that of the structured program;
* no task is begun while a return is under way: it would make no difference if
  anything else were done then;
* statements behind one that returns are not executed, and a loop ends with the
  turn that returns. -/
theorem returns_structured (limit budget : Nat) {m : Machine} (hm : m.pending = none) :
    (∀ body, ((perform limit budget).execAll body).completion m =
      (Structured.perform limit budget).execAll body m) ∧
    (∀ t, (perform limit budget t).completion m = Structured.perform limit budget t m) ∧
    (∀ f args line, perform limit (budget + 1) (.call f args line) m =
      (Structured.perform limit budget).callValue limit f args line m) ∧
    (∀ (s : Session) p,
      s.evaluate budget p = s.conduct (Structured.runProgram s.limit budget p)) ∧
    (∀ other body, (performUnless other limit budget).execAll body m =
      (perform limit budget).execAll body m) ∧
    (∀ other t, performUnless other limit budget t m = perform limit budget t m) ∧
    (∀ body rest v n, ((perform limit budget).execAll body).completion m = .ok (.returned v) n →
      (perform limit budget).execAll (body ++ rest) m = (perform limit budget).execAll body m) ∧
    (∀ c body p v m₁ m₂, (perform limit budget).condition "while" c m = .ok true m₁ →
      ((perform limit budget).execBlock body).completion m₁ = .ok (.returned v) m₂ →
      (perform limit (budget + 1) (.exec (.loop c body p))).completion m =
        .ok (.returned v) m₂) := by
  have href : ∀ limit, (perform limit budget).Refines (fun _ => False)
      (Structured.perform limit budget) := fun limit => refines_perform limit budget
  have hunless : ∀ other, (perform limit budget).AgreesFully (fun _ => False)
      (performUnless other limit budget) := fun other => agrees_performUnless other limit budget
  refine ⟨?_, ?_, ?_, ?_, ?_, ?_, ?_, ?_⟩
  · exact fun body => ((href limit).execAll hm).eq
  · exact fun t => ((href limit).completes t m hm).eq
  · exact fun f args line => ((href limit).callValue hm).eq
  · intro s p
    have hrun : Session.runProgram s.limit budget p s.ready =
        Structured.runProgram s.limit budget p s.ready := by
      rw [Session.runProgram, bind_takePending]
      exact ((href s.limit).execAll rfl |>.bind fun _ _ _ => .same).eq
    rw [Session.evaluate, Session.conduct, Session.conduct, hrun]
  · exact fun other body => (Doer.agree_execAll (hunless other) hm).eq.symm
  · exact fun other t => ((hunless other).task t m hm).eq.symm
  · intro body rest v n hreturned
    obtain ⟨u, hrun⟩ := of_completion_returned hreturned
    unfold Doer.execAll at hrun ⊢
    rw [Doer.execFrom_append _ hm, bind_of_ok hrun]
    exact hrun.symm
  · intro c body p v m₁ m₂ hcondition hreturned
    show completion ((perform limit budget).execLoop c body p) m = _
    rw [Doer.execLoop, completion_bind, bind_of_ok hcondition, if_pos rfl,
      completion_unless_returning, bind_of_ok hreturned]
    rfl

/-- `func f() { while true { n += 1; if n == 3 { return n; } } } n = 0; print(f());
return n; print(n);` prints one number. -/
theorem returns_structured_loop :
    let p : Place := ⟨1, 1⟩
    let n : Expr := .ident "n" p
    let three : Expr := .literal (.int 3) p
    let turn : List Stmt :=
      [.assign "n" .add (.literal (.int 1) p) p,
        .branch (.binary .eq n three p) [.ret (some n) p] none p]
    let program : Program :=
      [.func "f" [] none [.loop (.literal (.bool true) p) turn p] p,
        .assign "n" .set (.literal (.int 0) p) p, .expr (.call "print" [.call "f" [] p] p),
        .ret (some n) p, .expr (.call "print" [n] p)]
    let m := (Session.start 2).ready
    m.pending = none ∧ (((perform 2 20).execAll program).after m).output.lines = #["3"] ∧
      ((perform 2 20).execAll program).completion m =
        (Structured.perform 2 20).execAll program m := by
  intro p n three turn program m
  exact ⟨rfl, by decide +kernel, (returns_structured 2 20 rfl).1 program⟩

end SeqScript
