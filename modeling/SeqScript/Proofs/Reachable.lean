import SeqScript.Proofs.Discipline.Call
import SeqScript.Session

/-!
# Reachable machines

A session is reachable if it has come from a new one by running programs, in any
number, whatever became of them. To speak of what is there while a program runs
as well, `performUntil` is the evaluator with an observer who may end the run at
any task, before it is begun. Nothing else about the evaluator differs: an
observer who never ends a run sees the evaluator itself (`performUntil_never`).
A machine is one of some `Moment` if it stands between two programs, or was left
where an observer ended a run.

The theorem of this module is `Moment.standing`: a discipline that holds of a
new session holds at every moment.
-/

namespace SeqScript

open Discipline

-- ---------------------------------------------------------------------------
-- The machine a run leaves
-- ---------------------------------------------------------------------------

namespace Run

variable {α β : Type} {m n : Machine}

theorem bind_of_ok {act : Run α} {next : α → Run β} {x : α} (h : act m = .ok x n) :
    (act >>= next) m = next x n := by
  simp only [Bind.bind, EStateM.bind, h]

theorem bind_of_error {act : Run α} {next : α → Run β} {e : Stop} (h : act m = .error e n) :
    (act >>= next) m = .error e n := by
  simp only [Bind.bind, EStateM.bind, h]

/-- The machine that a run leaves, however it ends. -/
def after (act : Run α) (m : Machine) : Machine :=
  match act m with
  | .ok _ m' | .error _ m' => m'

/-- Whether a run ends without a value. -/
def fails (act : Run α) (m : Machine) : Bool :=
  match act m with
  | .ok .. => false
  | .error .. => true

end Run

namespace Discipline.Safe

variable {D : Discipline} {α : Type} {names : Scopes.Names} {returns : Bool} {act : Run α}
  {m : Machine} {Q : α → Heap → Prop}

theorem after (h : D.Safe names returns act m Q) :
    m.Extends names (act.after m) ∧ D.Standing (act.after m) := by
  unfold Safe at h
  unfold Run.after
  cases hrun : act m with
  | ok a m' =>
    rw [hrun] at h
    exact ⟨h.1, h.2.1⟩
  | error e m' =>
    rw [hrun] at h
    exact ⟨h.step, h.standing⟩

/-- A run that may not set off a return leaves the register of returns alone,
and so does any run that fails. -/
theorem pending_after (h : D.Safe names returns act m Q)
    (hquiet : returns = false ∨ act.fails m = true) : (act.after m).pending = m.pending := by
  unfold Safe at h
  unfold Run.fails at hquiet
  unfold Run.after
  cases hrun : act m with
  | ok a m' =>
    rw [hrun] at h hquiet
    obtain ⟨-, -, hkept | ⟨htrue, -⟩, -⟩ := h
    · exact hkept
    · simp [htrue] at hquiet
  | error e m' =>
    rw [hrun] at h
    exact h.pending

end Discipline.Safe

-- ---------------------------------------------------------------------------
-- Observed runs
-- ---------------------------------------------------------------------------

/-- Does a task, with an observer who may end the run before any task is begun. -/
def performUntil (stop : Machine → Bool) (limit : Nat) : Nat → Doer
  | 0, _ => throw .exhausted
  | budget + 1, t => do
    if stop (← get) then throw .exhausted
    else step limit (performUntil stop limit budget) t

theorem performUntil_never (limit budget : Nat) :
    performUntil (fun _ => false) limit budget = perform limit budget := by
  induction budget with
  | zero => rfl
  | succ budget ih =>
    funext t m
    rw [performUntil, ih]
    rfl

theorem obeyed_performUntil (D : Discipline) (stop : Machine → Bool) (limit budget : Nat) :
    D.Obeyed (performUntil stop limit budget) := by
  induction budget with
  | zero => exact fun t m hm _ => .throw hm
  | succ budget ih =>
    intro t m hm hvals
    refine .get_bind ?_
    split
    · exact .throw hm
    · exact obeyed_step ih t m hm hvals

-- ---------------------------------------------------------------------------
-- Sessions
-- ---------------------------------------------------------------------------

namespace Session

/-- Runs a program under an observer. -/
def runUntil (stop : Machine → Bool) (limit budget : Nat) (p : Program) : Run Value := do
  let last ← (performUntil stop limit budget).execAll p
  Run.takePending last

/-- Runs programs one after another, each with a budget of its own. -/
def evaluateAll (s : Session) : List (Nat × Program) → List Outcome × Session
  | [] => ([], s)
  | (budget, p) :: rest =>
    let (outcome, s) := s.evaluate budget p
    let (outcomes, s) := s.evaluateAll rest
    (outcome :: outcomes, s)

/-- A session that has come from a new one by running programs. -/
inductive Reachable : Session → Prop
  | start (limit : Nat) : Reachable (start limit)
  | evaluate {s : Session} (budget : Nat) (p : Program) :
    Reachable s → Reachable (s.evaluate budget p).2

/-- A machine between programs, or in the middle of one. -/
inductive Moment : Machine → Prop
  | between {s : Session} : Reachable s → Moment s.machine
  | during {s : Session} (stop : Machine → Bool) (budget : Nat) (p : Program) :
    Reachable s → Moment ((runUntil stop s.limit budget p).after s.ready)

/-- All that is bound in a new session is functions, without types. -/
theorem every_start {P : Binding → Prop} (hP : ∀ b, P ⟨.builtin b, none⟩) (limit : Nat) :
    (start limit).machine.scopes.Every P := by
  have hdefine : ∀ (bs : List Builtin) (f : FrameId) (s : Scopes), s.Every P →
      (bs.foldl (fun s b => s.define f b.name (.builtin b) none) s).Every P := by
    intro bs f
    induction bs with
    | nil => exact fun s hs => hs
    | cons b bs ih => exact fun s hs => ih _ (hs.define (hP b) f b.name)
  exact (hdefine Builtin.all _ _ (Scopes.every_empty.push none)).push _

variable {D : Discipline} {s : Session} {m : Machine}

theorem safe_runUntil (stop : Machine → Bool) (limit budget : Nat) (p : Program)
    (hm : D.Standing m) (hpending : m.pending = none) :
    D.Safe Set.univ false (runUntil stop limit budget p) m D.Val :=
  .bind_takePending hpending (Doer.safe_execAll (obeyed_performUntil D stop limit budget) hm)

theorem runUntil_never (limit budget : Nat) (p : Program) :
    runUntil (fun _ => false) limit budget p = runProgram limit budget p := by
  rw [runUntil, performUntil_never, runProgram]

theorem machine_conduct (s : Session) (act : Run Value) :
    (s.conduct act).2.machine = act.after s.ready := by
  unfold conduct Run.after
  split <;> simp [*]

theorem machine_evaluate (s : Session) (budget : Nat) (p : Program) :
    (s.evaluate budget p).2.machine = (runProgram s.limit budget p).after s.ready :=
  machine_conduct s _

theorem globals_evaluate (s : Session) (budget : Nat) (p : Program) :
    (s.evaluate budget p).2.globals = s.globals := by
  unfold evaluate conduct
  split <;> rfl

theorem limit_evaluate (s : Session) (budget : Nat) (p : Program) :
    (s.evaluate budget p).2.limit = s.limit := by
  unfold evaluate conduct
  split <;> rfl

theorem standing_ready (hholds : D.Holds s.machine.heap s.machine.scopes s.globals) :
    D.Standing s.ready :=
  ⟨hholds, by simp [ready]⟩

/-- Whatever a program does, it ends in the globals, outside all calls and with
no return under way. -/
theorem registers_evaluate (s : Session) (hready : D.Standing s.ready) (budget : Nat)
    (p : Program) :
    D.Standing (s.evaluate budget p).2.machine ∧
      (s.evaluate budget p).2.machine.frame = s.globals ∧
      (s.evaluate budget p).2.machine.depth = 0 ∧
      (s.evaluate budget p).2.machine.pending = none := by
  have hsafe := safe_runUntil (fun _ => false) s.limit budget p hready rfl
  rw [runUntil_never] at hsafe
  rw [machine_evaluate]
  obtain ⟨hstep, hstanding⟩ := hsafe.after
  exact ⟨hstanding, hstep.frame, hstep.depth, hsafe.pending_after (Or.inl rfl)⟩

theorem Reachable.standing (hstart : ∀ limit, D.Standing (Session.start limit).machine)
    (hs : Reachable s) : D.Standing s.machine ∧ s.machine.frame = s.globals := by
  induction hs with
  | start limit => exact ⟨hstart limit, rfl⟩
  | @evaluate s budget p _ ih =>
    obtain ⟨hstanding, hframe⟩ := ih
    have hready : D.Standing s.ready := standing_ready (hframe ▸ hstanding.holds)
    obtain ⟨hstanding', hframe', -⟩ := registers_evaluate s hready budget p
    exact ⟨hstanding', hframe'.trans (globals_evaluate s budget p).symm⟩

/-- **A discipline that holds of every new session holds at every moment.** -/
theorem Moment.standing (hstart : ∀ limit, D.Standing (Session.start limit).machine)
    (hm : Moment m) : D.Standing m := by
  cases hm with
  | between hs => exact (hs.standing hstart).1
  | @during s stop budget p hs =>
    obtain ⟨hstanding, hframe⟩ := hs.standing hstart
    have hready : D.Standing s.ready := standing_ready (hframe ▸ hstanding.holds)
    exact (safe_runUntil stop s.limit budget p hready rfl).after.2

end Session

end SeqScript
