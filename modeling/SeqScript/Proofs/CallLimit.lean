import SeqScript.Proofs.Lockstep.Stmt
import SeqScript.Proofs.Regime.Step

/-!
# The limit on calls

The limit does nothing but end runs. Two things are proved of it.

* `alike_performCounted` — no task is ever begun inside more calls than the limit
  allows. For this `performCounted` counts by itself how calls of functions nest.
  Where its count is beyond the limit, or is not that of the machine, it does
  whatever else it is told to do; and it cannot be told apart from the evaluator.
* `agreesFully_raised` — a run under one limit and a run under a higher one agree
  until the first is refused a call. A session whose programs are never refused
  one is the same under every higher limit (`evaluateAll_raised`).
-/

namespace SeqScript

-- ---------------------------------------------------------------------------
-- Counting calls
-- ---------------------------------------------------------------------------

/-- Does a task that is begun inside so many calls. -/
def performCounted (other : Doer) (limit : Nat) : Nat → Nat → Doer
  | 0, _, _ => throw .exhausted
  | budget + 1, calls, t => do
    if (← get).depth = calls ∧ calls ≤ limit then
      step limit (performCounted other limit budget (t.inside calls)) t
    else other t

/-- The regime that allows everything. -/
def Regime.free : Regime where
  Allowed _ := True
  Stops _ := True
  stops_fault _ := trivial
  stops_disorder _ _ := trivial

theorem Regime.proper_free (v : Value) : Regime.free.Proper v := fun _ _ => trivial

theorem Regime.kept_free (m : Machine) : Regime.free.Kept m.depth m :=
  ⟨fun _ v _ => proper_free v, fun _ _ row _ => proper_free row.2.value, fun v _ => proper_free v,
    rfl⟩

open Regime in
/-- A task that is not refused is begun inside as many calls as the limit allows,
and so are its parts. -/
theorem alike_performCounted (other : Doer) (limit budget : Nat) {calls : Nat}
    (hcalls : calls ≤ limit) :
    Regime.free.Pairs (fun _ => True) calls (perform limit budget)
      (performCounted other limit budget calls) := by
  induction budget generalizing calls with
  | zero => exact fun t m _ _ hm => .throw hm trivial
  | succ budget ih =>
    intro t m _ hoperands hm
    have hparts : ¬ t.Refused limit calls → t.inside calls ≤ limit := by
      intro hroom
      unfold Task.inside
      split
      · simp only [Task.Refused] at hroom
        omega
      · exact hcalls
    have hstep : Regime.free.Alike calls (step limit (perform limit budget) t)
        (step limit (performCounted other limit budget (t.inside calls)) t) m
        Regime.free.Proper := by
      refine alike_step (fun _ _ => trivial) hoperands hm ?_
      intro hroom t' m' _
      exact ih (hparts hroom) t' m' trivial
    have hopen : performCounted other limit (budget + 1) calls t m =
        step limit (performCounted other limit budget (t.inside calls)) t m := by
      show (if m.depth = calls ∧ calls ≤ limit then
        step limit (performCounted other limit budget (t.inside calls)) t else other t) m = _
      rw [if_pos ⟨hm.depth, hcalls⟩]
    unfold Regime.Alike
    rw [hopen]
    exact hstep

namespace Session

/-- Runs a program, counting calls. -/
def runCounted (other : Doer) (limit budget : Nat) (p : Program) : Run Value := do
  let last ← (performCounted other limit budget 0).execAll p
  Run.takePending last

theorem conduct_runCounted (s : Session) (other : Doer) (budget : Nat) (p : Program) :
    s.conduct (runCounted other s.limit budget p) = s.evaluate budget p := by
  have hready : Regime.free.Kept 0 s.ready := Regime.kept_free s.ready
  have hcounted := alike_performCounted other s.limit budget (Nat.zero_le _)
  have hbody : Regime.free.Alike 0 ((perform s.limit budget).execAll p)
      ((performCounted other s.limit budget 0).execAll p) s.ready Regime.free.Proper :=
    Regime.alike_execAll hcounted (fun _ _ => trivial) hready
  have hsame : runCounted other s.limit budget p s.ready = runProgram s.limit budget p s.ready :=
    (hbody.bind fun last n hn hlast => .takePending hn hlast).1
  unfold evaluate conduct
  rw [hsame]

end Session

-- ---------------------------------------------------------------------------
-- Raising the limit
-- ---------------------------------------------------------------------------

/-- A call has been refused for the limit. -/
def Stop.Refusal (e : Stop) : Prop := ∃ f, e = .fault f ∧ f.cause.faultClass = .recursion

theorem agree_callClosure {self self' : Doer} {low high : Nat} {m : Machine} {f : Closure}
    {args : List Value} {line : Nat} (h : self.AgreesFully Stop.Refusal self')
    (hle : low ≤ high) :
    Agree Stop.Refusal (self.callClosure low f args line) (self'.callClosure high f args line)
      m := by
  refine .get_bind ?_
  by_cases hlow : low ≤ m.depth
  · rw [if_pos hlow]
    exact Or.inl ⟨.fault ⟨line, .callDepth low⟩, m, rfl, _, rfl, rfl⟩
  · have hhigh : ¬ high ≤ m.depth := by omega
    rw [if_neg hlow, if_neg hhigh]
    exact .call fun n hn => Doer.agree_runCode h hn

/-- A run agrees with one under a higher limit until it is refused a call. -/
theorem agreesFully_raised {low high : Nat} (hle : low ≤ high) (budget : Nat) :
    (perform low budget).AgreesFully Stop.Refusal (perform high budget) := by
  induction budget with
  | zero => exact ⟨obeyed_perform _ low 0, fun t m _ => .same⟩
  | succ budget ih =>
    refine ⟨obeyed_perform _ low (budget + 1), ?_⟩
    intro t m hm
    cases t with
    | eval hint e => exact Doer.agree_evalExpr ih.agrees hm
    | exec s => exact Doer.agree_execStmt ih hm
    | call f args line =>
      cases f with
      | func c => exact agree_callClosure ih hle
      | builtin b => exact Builtin.agree_call ih.agrees hm
      | _ => exact .same

namespace Session

/-- A program has ended because it was refused a call. -/
def Outcome.refused : Outcome → Bool
  | fault f => f.cause.faultClass = .recursion
  | value _ | exhausted | disorder _ => false

theorem evaluate_raised {s : Session} {limit : Nat} (hle : s.limit ≤ limit) {budget : Nat}
    {p : Program} (h : (s.evaluate budget p).1.refused = false) :
    { s with limit }.evaluate budget p =
      ((s.evaluate budget p).1, { (s.evaluate budget p).2 with limit }) := by
  have hagree : Agree Stop.Refusal (runProgram s.limit budget p) (runProgram limit budget p)
      s.ready :=
    (Doer.agree_execAll (agreesFully_raised hle budget) rfl).bind fun _ _ _ => .same
  have hhigh : { s with limit }.evaluate budget p =
      { s with limit }.conduct (runProgram limit budget p) := rfl
  have hready : { s with limit }.ready = s.ready := rfl
  rcases hagree with ⟨e, n, hrun, f, rfl, hclass⟩ | heq
  · -- refused, so the outcome says so
    unfold evaluate conduct at h
    rw [hrun] at h
    simp [Outcome.refused, hclass] at h
  · rw [hhigh]
    unfold evaluate conduct
    rw [hready, heq]
    split <;> rfl

/-- Programs that are never refused a call run under a higher limit as before. -/
theorem evaluateAll_raised {s : Session} {limit : Nat} (hle : s.limit ≤ limit)
    {run : List (Nat × Program)} (h : ∀ o ∈ (s.evaluateAll run).1, o.refused = false) :
    { s with limit }.evaluateAll run =
      ((s.evaluateAll run).1, { (s.evaluateAll run).2 with limit }) := by
  induction run generalizing s with
  | nil => rfl
  | cons entry rest ih =>
    obtain ⟨budget, p⟩ := entry
    simp only [evaluateAll, List.forall_mem_cons] at h ⊢
    obtain ⟨hfirst, hrest⟩ := h
    have hlimit : (s.evaluate budget p).2.limit ≤ limit := by rwa [limit_evaluate]
    rw [evaluate_raised hle hfirst, ih hlimit hrest]

end Session

/-- **The limit on calls only cuts runs short.** Take any session and any program:
no task of its run is begun inside more calls than the limit allows, and the depth
of the machine is their number. Take any programs, run one after another, none of
which ends because it was refused a call: under a higher limit they have the same
outcomes, and leave the same machine. -/
theorem call_limit_only_cuts (s : Session) (limit : Nat) (hle : s.limit ≤ limit) :
    (∀ other budget p,
      s.conduct (Session.runCounted other s.limit budget p) = s.evaluate budget p) ∧
    (∀ run, (∀ o ∈ (s.evaluateAll run).1, o.refused = false) →
      { s with limit }.evaluateAll run =
        ((s.evaluateAll run).1, { (s.evaluateAll run).2 with limit })) :=
  ⟨s.conduct_runCounted, fun _ h => Session.evaluateAll_raised hle h⟩

/-- A function that calls itself until its argument is zero, called on two: three
calls are under way at once, which a limit of two refuses. -/
theorem call_limit_only_cuts_recursion :
    let p : Place := ⟨1, 1⟩
    let again : Stmt := .expr (.call "f" [.binary .sub (.ident "n" p) (.literal (.int 1) p) p] p)
    let program : Program :=
      [.func "f" [⟨"n", .int, none, p⟩] none
          [.branch (.binary .gt (.ident "n" p) (.literal (.int 0) p) p) [again] none p] p,
        .expr (.call "f" [.literal (.int 2) p] p)]
    let run := [(20, program)]
    let s := Session.start 3
    ((Session.start 2).evaluateAll run).1.any Session.Outcome.refused = true ∧
      s.limit ≤ 5 ∧ (∀ o ∈ (s.evaluateAll run).1, o.refused = false) ∧
      (∀ other, s.conduct (Session.runCounted other 3 20 program) = s.evaluate 20 program) ∧
      (Session.start 5).evaluateAll run =
        ((s.evaluateAll run).1, { (s.evaluateAll run).2 with limit := 5 }) := by
  intro p again program run s
  have hrun : ∀ o ∈ (s.evaluateAll run).1, o.refused = false := by decide +kernel
  have hcuts := call_limit_only_cuts s 5 (by decide)
  exact ⟨by decide +kernel, by decide, hrun, fun other => hcuts.1 other 20 program,
    hcuts.2 run hrun⟩

end SeqScript
