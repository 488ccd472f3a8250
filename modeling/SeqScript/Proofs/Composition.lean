import SeqScript.Proofs.Structured

/-!
# Programs one after another

Between two programs a session sets its registers: it goes to the globals, out of
all calls, and forgets a return. A program that runs through has left them so by
itself, and nothing else marks where it ended. Running a second program then is
the same as having written its statements behind those of the first.

* `agreesFully_budget` — a run that does not use up its budget is the same with
  any larger one.
* `ready_of_runsThrough` — after a program that runs through, the machine is as
  the next one finds it.
* `programs_compose` — two programs one after another and both as one.
-/

namespace SeqScript

open Run

-- ---------------------------------------------------------------------------
-- Larger budgets
-- ---------------------------------------------------------------------------

/-- A run agrees with one on a larger budget until its own is used up. -/
theorem agreesFully_budget (limit : Nat) {budget budget' : Nat} (hle : budget ≤ budget') :
    (perform limit budget).AgreesFully (· = .exhausted) (perform limit budget') := by
  induction budget generalizing budget' with
  | zero => exact ⟨obeyed_perform _ limit 0, fun t m _ => Or.inl ⟨.exhausted, m, rfl, rfl⟩⟩
  | succ budget ih =>
    obtain ⟨rest, rfl⟩ : ∃ rest, budget' = rest + 1 := ⟨budget' - 1, by omega⟩
    have hparts : (perform limit budget).AgreesFully (· = .exhausted) (perform limit rest) :=
      ih (by omega)
    refine ⟨obeyed_perform _ limit (budget + 1), ?_⟩
    intro t m hm
    exact agree_step hparts t hm

variable {limit budget budget' : Nat} {m n : Machine} {v : Value}

/-- Statements that have ended with a value do so on any larger budget. -/
theorem execAll_of_le (hle : budget ≤ budget') {body : List Stmt} (hm : m.pending = none)
    (hrun : (perform limit budget).execAll body m = .ok v n) :
    (perform limit budget').execAll body m = .ok v n := by
  rcases Doer.agree_execAll (agreesFully_budget limit hle) hm with ⟨e, n', hstop, -⟩ | hsame
  · rw [hrun] at hstop
    simp at hstop
  · rw [← hsame, hrun]

-- ---------------------------------------------------------------------------
-- Statements behind statements
-- ---------------------------------------------------------------------------

namespace Doer

variable (self : Doer) {body rest : List Stmt}

/-- The value to fall back on matters only if there is no statement. -/
theorem execFrom_of_ne_nil (hrest : rest ≠ []) (last last' : Value) :
    self.execFrom last rest = self.execFrom last' rest := by
  cases rest with
  | nil => exact absurd rfl hrest
  | cons s ss => rfl

/-- Statements behind some that end without a return. -/
theorem execAll_append_of_ok (hm : m.pending = none) (hrun : self.execAll body m = .ok v n)
    (hn : n.pending = none) (hrest : rest ≠ []) :
    self.execAll (body ++ rest) m = self.execAll rest n := by
  have hreturning : returning n = .ok false n := by
    show EStateM.Result.ok n.pending.isSome n = _
    rw [hn]
    rfl
  unfold execAll at hrun ⊢
  rw [execFrom_append self hm, bind_of_ok hrun, bind_of_ok hreturning]
  exact congrFun (self.execFrom_of_ne_nil hrest v .unit) n

/-- Statements behind some that fail or end with a return are never reached. -/
theorem execAll_append_of_ended (hm : m.pending = none)
    (hended : ∀ v n, self.execAll body m = .ok v n → n.pending.isSome = true) :
    self.execAll (body ++ rest) m = self.execAll body m := by
  unfold execAll at hended ⊢
  rw [execFrom_append self hm]
  cases hrun : self.execFrom .unit body m with
  | error e n => exact bind_of_error hrun
  | ok v n =>
    have hreturning : returning n = .ok true n := by
      show EStateM.Result.ok n.pending.isSome n = _
      rw [hended v n hrun]
    rw [bind_of_ok hrun, bind_of_ok hreturning]
    rfl

end Doer

-- ---------------------------------------------------------------------------
-- Programs
-- ---------------------------------------------------------------------------

namespace Session

/-- Whether a program ends with a value and has executed no `return` but inside
calls. -/
def runsThrough (s : Session) (budget : Nat) (p : Program) : Bool :=
  match (perform s.limit budget).execAll p s.ready with
  | .ok _ m => m.pending.isNone
  | .error _ _ => false

variable {s : Session} {p q : Program}

theorem runsThrough_iff :
    s.runsThrough budget p = true ↔
      ∃ v m, (perform s.limit budget).execAll p s.ready = .ok v m ∧ m.pending = none := by
  unfold runsThrough
  cases hrun : (perform s.limit budget).execAll p s.ready with
  | ok v m =>
    rw [Option.isNone_iff_eq_none]
    constructor
    · exact fun hm => ⟨v, m, rfl, hm⟩
    · rintro ⟨_, _, hsame, hm⟩
      obtain ⟨-, rfl⟩ := EStateM.Result.ok.inj hsame
      exact hm
  | error e m => simp

/-- The machine that a program leaves when it runs through is the one on which
the next is begun. -/
theorem ready_of_runsThrough (hrun : (perform s.limit budget).execAll p s.ready = .ok v m)
    (hm : m.pending = none) : (s.evaluate budget p).2.ready = m := by
  have hmachine : (s.evaluate budget p).2.machine = { m with pending := none } := by
    rw [machine_evaluate, after, runProgram, bind_of_ok hrun]
    rfl
  obtain ⟨-, hframe, hdepth, -⟩ := registers_evaluate s (standing_vacuous s.ready) budget p
  rw [hmachine] at hframe hdepth
  unfold ready
  rw [hmachine, globals_evaluate, ← hframe, ← hdepth, ← hm]

/-- What a program comes to is settled by what its statements do. -/
theorem evaluate_eq_of_execAll {s' : Session} (hglobals : s'.globals = s.globals)
    (hlimit : s'.limit = s.limit)
    (hrun : (perform s'.limit budget').execAll q s'.ready =
      (perform s.limit budget).execAll p s.ready) :
    s'.evaluate budget' q = s.evaluate budget p := by
  have hprogram : runProgram s'.limit budget' q s'.ready = runProgram s.limit budget p s.ready := by
    simp only [runProgram, Bind.bind, EStateM.bind, hrun]
  have hsession : ∀ m, { s' with machine := m } = { s with machine := m } := by
    intro m
    rw [hglobals, hlimit]
  unfold evaluate conduct
  simp only [hprogram, hsession]

end Session

/-- **Programs compose.** Take any session and two programs, the second with at
least one statement. If the first runs through, then running one after the other
is the same as running both as one program: the same outcome, value or fault, and
the same session afterwards, with all its variables, sequences, functions and
output. The budget of the later run may be larger. If the first does not run
through, because it fails or returns, then the statements behind it change
nothing. -/
theorem programs_compose (s : Session) {budget budget' : Nat} (hle : budget ≤ budget')
    (p q : Program) (hq : q ≠ []) :
    (s.runsThrough budget p = true →
      (s.evaluate budget p).2.evaluate budget' q = s.evaluate budget' (p ++ q)) ∧
    (s.runsThrough budget p = false → s.evaluate budget (p ++ q) = s.evaluate budget p) := by
  constructor
  · intro hthrough
    obtain ⟨v, m, hrun, hm⟩ := Session.runsThrough_iff.mp hthrough
    have hlonger : (perform s.limit budget').execAll p s.ready = .ok v m :=
      execAll_of_le hle rfl hrun
    have hboth : (perform s.limit budget').execAll (p ++ q) s.ready =
        (perform s.limit budget').execAll q m :=
      Doer.execAll_append_of_ok _ rfl hlonger hm hq
    refine Session.evaluate_eq_of_execAll (Session.globals_evaluate s budget p)
      (Session.limit_evaluate s budget p) ?_
    rw [hboth, Session.limit_evaluate, Session.ready_of_runsThrough hrun hm]
  · intro hnot
    have hended : ∀ v m, (perform s.limit budget).execAll p s.ready = .ok v m →
        m.pending.isSome = true := by
      intro v m hrun
      simpa [Session.runsThrough, hrun] using hnot
    exact Session.evaluate_eq_of_execAll rfl rfl (Doer.execAll_append_of_ended _ rfl hended)

/-- `let log: list<int> = []; func f(x: int) { log.append(x); return x; } f(1);` runs
through. The program `print(f(2)); print(log); return log; print("no");` behind it
finds what the first has left, and is itself one that does not run through. -/
theorem programs_compose_shared :
    let at1 : Place := ⟨1, 1⟩
    let log : Expr := .ident "log" at1
    let x : Expr := .ident "x" at1
    let f (n : Int64) : Expr := .call "f" [.literal (.int n) at1] at1
    let print (e : Expr) : Stmt := .expr (.call "print" [e] at1)
    let p : Program :=
      [.declare "log" (some (.list .int)) (some (.items [] at1)) at1,
        .func "f" [⟨"x", .int, none, at1⟩] none
          [.expr (.collection .append log [x] [] at1), .ret (some x) at1] at1,
        .expr (f 1)]
    let q : Program := [print (f 2), print log, .ret (some log) at1, print (.literal (.str "no") at1)]
    let s := Session.start 5
    10 ≤ 12 ∧ q ≠ [] ∧ s.runsThrough 10 p = true ∧ s.runsThrough 12 (p ++ q) = false ∧
      (s.evaluate 12 (p ++ q)).2.machine.output.lines = #["2", "[1, 2]"] ∧
      (s.evaluate 10 p).2.evaluate 12 q = s.evaluate 12 (p ++ q) ∧
      s.evaluate 12 (p ++ q ++ q) = s.evaluate 12 (p ++ q) := by
  intro at1 log x f print p q s
  have hq : q ≠ [] := List.cons_ne_nil _ _
  have hthrough : s.runsThrough 10 p = true := by decide +kernel
  have hreturns : s.runsThrough 12 (p ++ q) = false := by decide +kernel
  exact ⟨by decide, hq, hthrough, hreturns, by decide +kernel,
    (programs_compose s (by decide) p q hq).1 hthrough,
    (programs_compose s (Nat.le_refl 12) (p ++ q) q hq).2 hreturns⟩

end SeqScript
