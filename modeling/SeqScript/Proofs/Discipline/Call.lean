import SeqScript.Proofs.Discipline.Stmt

/-!
# Every run keeps every discipline

A call runs in a frame of its own and with no return under way, and it ends
every return set off inside it (`safe_runCode`). With that each task keeps a
discipline if the smaller tasks it comes down to do (`obeyed_step`), and all
tasks do, whatever the budget (`obeyed_perform`).
-/

namespace SeqScript

open Discipline

variable {D : Discipline} {self : Doer} {names : Scopes.Names} {m : Machine} {limit : Nat}

namespace Doer

-- ---------------------------------------------------------------------------
-- Parameters
-- ---------------------------------------------------------------------------

/-- A parameter is bound to its argument, made to fit. -/
theorem safe_bindParam {p : Param} {v : Value} {line : Nat} (hm : D.Standing m)
    (hv : D.Val v m.heap) :
    D.Safe Set.univ false (bindParam p v line) m fun _ _ => True := by
  refine (Safe.assignable hm hv).bind ?_
  intro w m₁ h₁ hw
  refine .define h₁.standing (Set.mem_univ _) hw.1 ?_
  rintro _ ⟨⟩
  exact hw.2

/-- The run lemma of parameters. Missing arguments come from defaults, which are
evaluated in the frame of the call. -/
theorem safe_bindParams (hself : D.Obeyed self) {function : String} {line : Nat}
    {params : List Param} {args : List Value} (hm : D.Standing m) (hargs : D.Vals args m.heap) :
    D.Safe Set.univ false (self.bindParams function line params args) m fun _ _ => True := by
  induction params generalizing args m with
  | nil => exact .pure hm trivial
  | cons p ps ih =>
    cases args with
    | cons v vs =>
      refine (safe_bindParam hm hargs.head).bind ?_
      intro _ m₁ h₁ _
      exact ih h₁.standing (h₁.vals fun x hx => hargs x (List.mem_cons_of_mem _ hx))
    | nil =>
      unfold bindParams
      split
      · exact .fail hm
      · refine (hself.eval hm (Set.subset_univ _)).bind ?_
        intro v m₁ h₁ hv
        refine (safe_bindParam h₁.standing hv).bind ?_
        intro _ m₂ h₂ _
        exact ih h₂.standing (by simp [Vals])

-- ---------------------------------------------------------------------------
-- Calls
-- ---------------------------------------------------------------------------

/-- Whatever the body sets off, no return is left when it is over. -/
theorem safe_runCode (hself : D.Obeyed self) {code : Code} {args : List Value} {line : Nat}
    {returns : Bool} (hm : D.Standing m) (hpending : m.pending = none)
    (hargs : D.Vals args m.heap) :
    D.Safe Set.univ returns (self.runCode code args line) m D.Val := by
  unfold runCode
  split
  · split
    · exact .fail hm
    · refine (safe_bindParams hself hm hargs).bind ?_
      intro _ m₁ h₁ _
      -- binding parameters sets off no return
      have hpending₁ : m₁.pending = none := h₁.pending.trans hpending
      exact .bind_takePending hpending₁ (safe_execAll hself h₁.standing)
  · split
    · next v =>
      have hv : D.Val v m.heap := hargs.head
      refine (Safe.define hm (Set.mem_univ _) hv (by simp)).bind ?_
      intro _ m₁ h₁ _
      exact hself.eval h₁.standing (Set.subset_univ _)
    · exact .fail hm

theorem safe_callClosure (hself : D.Obeyed self) {f : Closure} {args : List Value} {line : Nat}
    (hm : D.Standing m) (hargs : D.Vals args m.heap) :
    D.Safe names false (self.callClosure limit f args line) m D.Val := by
  refine .get_bind ?_
  split
  · exact .fail hm
  · refine .call hm ?_
    intro m₁ hm₁ hheap hpending
    rw [← hheap] at hargs
    exact safe_runCode hself hm₁ hpending hargs

/-- What is no function is refused. -/
theorem safe_callValue (hself : D.Obeyed self) {f : Value} {args : List Value} {line : Nat}
    (hm : D.Standing m) (hargs : D.Vals args m.heap) :
    D.Safe names false (self.callValue limit f args line) m D.Val := by
  unfold callValue
  split
  · exact safe_callClosure hself hm hargs
  · exact Builtin.safe_call hself hm hargs
  · exact .fail hm

end Doer

-- ---------------------------------------------------------------------------
-- The evaluator
-- ---------------------------------------------------------------------------

/-- One step: a task keeps a discipline if the tasks it comes down to do. -/
theorem obeyed_step (hself : D.Obeyed self) : D.Obeyed (step limit self) := by
  intro t m hm hvals
  cases t with
  | eval hint e => exact Doer.safe_evalExpr hself hm Set.Subset.rfl
  | exec s => exact Doer.safe_execStmt hself hm
  | call f args line => exact Doer.safe_callValue hself hm hvals

/-- **Every task keeps every discipline**, and so does every run that is cut off. -/
theorem obeyed_perform (D : Discipline) (limit budget : Nat) : D.Obeyed (perform limit budget) := by
  induction budget with
  | zero => exact fun t m hm _ => .throw hm
  | succ budget ih => exact obeyed_step ih

end SeqScript
