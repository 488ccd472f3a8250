import SeqScript.Proofs.Effects

/-!
# Runs side by side

The parts of the evaluator take the way to do smaller tasks as an argument. Here
two such ways are compared that give the same results for expressions and calls
wherever no return is under way: then so does every part of the evaluator that
hands on expressions and calls only. `Agree` compares two runs begun on one
machine. It lets the second do as it likes once the first has ended with a stop
that is `spared`, so that a run may be compared with one that goes further.

That no return is under way when a part goes on to its next task is known from
`Safe`, which says that expressions and calls leave none.
-/

namespace SeqScript

open Discipline

variable {α β : Type}

-- ---------------------------------------------------------------------------
-- Agreement
-- ---------------------------------------------------------------------------

/-- Two runs end alike, with the same value or stop and the same machine, unless
the first ends with a stop that is spared. -/
def Agree (spared : Stop → Prop) (a b : Run α) (m : Machine) : Prop :=
  (∃ e n, a m = .error e n ∧ spared e) ∨ a m = b m

variable {spared : Stop → Prop} {a b : Run α} {f g : α → Run β} {m : Machine}

namespace Agree

theorem same : Agree spared a a m := Or.inr rfl

/-- Where no stop is spared, runs that agree are equal. -/
theorem eq (h : Agree (fun _ => False) a b m) : a m = b m := by
  rcases h with ⟨_, _, _, hfalse⟩ | heq
  · exact hfalse.elim
  · exact heq

/-- Runs that agree go on to runs that agree. The first parts have ended with
one value on one machine, so what follows is compared there. -/
theorem bind (h : Agree spared a b m)
    (hnext : ∀ x n, a m = .ok x n → Agree spared (f x) (g x) n) :
    Agree spared (a >>= f) (b >>= g) m := by
  rcases h with ⟨e, n, hrun, he⟩ | heq
  · exact Or.inl ⟨e, n, by simp [Bind.bind, EStateM.bind, hrun], he⟩
  · cases hrun : a m with
    | error e n =>
      refine Or.inr ?_
      simp only [Bind.bind, EStateM.bind, ← heq, hrun]
    | ok x n =>
      have hopen : (a >>= f) m = f x n ∧ (b >>= g) m = g x n := by
        simp only [Bind.bind, EStateM.bind, ← heq, hrun, and_self]
      unfold Agree
      rw [hopen.1, hopen.2]
      exact hnext x n hrun

/-- A first part that sets off no return leaves none. -/
theorem bind_safe {D : Discipline} {names : Scopes.Names} {Q : α → Heap → Prop}
    (hsafe : D.Safe names false a m Q) (hm : m.pending = none) (h : Agree spared a b m)
    (hnext : ∀ x n, n.pending = none → Agree spared (f x) (g x) n) :
    Agree spared (a >>= f) (b >>= g) m := by
  refine h.bind ?_
  intro x n hrun
  refine hnext x n ?_
  unfold Safe at hsafe
  rw [hrun] at hsafe
  obtain ⟨-, -, hkept | ⟨hfalse, -⟩, -⟩ := hsafe
  · exact hkept.trans hm
  · cases hfalse

-- What reads leaves the machine as it is.

/-- The sequence that an operation works on is looked up in the heap that both
runs have. -/
theorem sequence_bind {line : Nat} {cause : Kind → Cause} {v : Value}
    {f g : Run.Snapshot → Run β} (hnext : ∀ s, Agree spared (f s) (g s) m) :
    Agree spared (Run.sequence line cause v >>= f) (Run.sequence line cause v >>= g) m := by
  cases v with
  | seq kind id => exact hnext _
  | _ => exact Or.inr rfl

theorem get_bind {f g : Machine → Run β} (hnext : Agree spared (f m) (g m) m) :
    Agree spared (get >>= f) (get >>= g) m := hnext

theorem heap_bind {f g : Heap → Run β} (hnext : Agree spared (f m.heap) (g m.heap) m) :
    Agree spared (Run.heap >>= f) (Run.heap >>= g) m := hnext

/-- Both runs see the same binding of a name. -/
theorem lookup?_bind {name : String} {f g : Option Binding → Run β}
    (hnext : ∀ b, Agree spared (f b) (g b) m) :
    Agree spared (Run.lookup? name >>= f) (Run.lookup? name >>= g) m :=
  hnext (m.scopes.lookup? m.frame name)

/-- Both runs see the same declared type of a name. -/
theorem declared?_bind {name : String} {f g : Option Ty → Run β}
    (hnext : ∀ ty, Agree spared (f ty) (g ty) m) :
    Agree spared (Run.declared? name >>= f) (Run.declared? name >>= g) m :=
  hnext (m.scopes.declared? m.frame name)

/-- Both runs read the same value of a name, or fail for want of one. -/
theorem valueOf_bind {line : Nat} {name : String} {cause : Cause} {f g : Value → Run β}
    (hnext : ∀ v, Agree spared (f v) (g v) m) :
    Agree spared (Run.valueOf line name cause >>= f) (Run.valueOf line name cause >>= g) m := by
  unfold Run.valueOf
  rw [bind_assoc, bind_assoc]
  refine lookup?_bind ?_
  intro b
  cases b with
  | none => exact Or.inr rfl
  | some b => exact hnext b.value

end Agree

-- ---------------------------------------------------------------------------
-- Ways to do tasks
-- ---------------------------------------------------------------------------

/-- Two ways to do tasks agree on expressions and calls while no return is under
way. -/
structure Doer.Agrees (spared : Stop → Prop) (one other : Doer) : Prop where
  obeyed : Discipline.vacuous.Obeyed one
  agree : ∀ t m, t.returns = false → m.pending = none → Agree spared (one t) (other t) m

variable {self self' : Doer}

namespace Doer

section

variable (h : self.Agrees spared self') (hm : m.pending = none)

include h hm

theorem Agrees.eval {hint : Option Ty} {e : Expr} :
    Agree spared (self (.eval hint e)) (self' (.eval hint e)) m :=
  h.agree _ m rfl hm

/-- The evaluation of an expression at the front of a run leaves no return under
way. -/
theorem Agrees.eval_bind {hint : Option Ty} {e : Expr} {f g : Value → Run β}
    (hnext : ∀ v n, n.pending = none → Agree spared (f v) (g v) n) :
    Agree spared (self (.eval hint e) >>= f) (self' (.eval hint e) >>= g) m :=
  .bind_safe (h.obeyed.eval (standing_vacuous m) Set.Subset.rfl) hm (h.eval hm) hnext

/-- So does a call: a return inside it ends with it. -/
theorem Agrees.call_bind {fn : Value} {args : List Value} {line : Nat} {f g : Value → Run β}
    (hnext : ∀ v n, n.pending = none → Agree spared (f v) (g v) n) :
    Agree spared (self (.call fn args line) >>= f) (self' (.call fn args line) >>= g) m := by
  have hsafe : vacuous.Safe ∅ false (self (.call fn args line)) m vacuous.Val :=
    h.obeyed.call (standing_vacuous m) fun _ _ => trivial
  exact .bind_safe hsafe hm (h.agree _ m rfl hm) hnext

end

-- ---------------------------------------------------------------------------
-- Rows of values
-- ---------------------------------------------------------------------------

/-- Values computed one after another. -/
theorem agree_cons {v : Value} {a b : Run (List Value)} (h : Agree spared a b m) :
    Agree spared (do return v :: (← a)) (do return v :: (← b)) m :=
  h.bind fun _ _ _ => .same

variable (h : self.Agrees spared self')

include h

theorem agree_evalAll {es : List Expr} (hm : m.pending = none) :
    Agree spared (self.evalAll es) (self'.evalAll es) m := by
  induction es generalizing m with
  | nil => exact .same
  | cons e es ih => exact h.eval_bind hm fun v n hn => agree_cons (ih hn)

/-- The run lemma of argument lists, by induction on the expressions that are
left. -/
theorem agree_evalArguments {params : List Param} {es : List Expr} (hm : m.pending = none) :
    Agree spared (self.evalArguments params es) (self'.evalArguments params es) m := by
  induction es generalizing params m with
  | nil => exact .same
  | cons e es ih => exact h.eval_bind hm fun v n hn => agree_cons (ih hn)

theorem agree_evalItems {hint : Option Ty} {es : List Expr} (hm : m.pending = none) :
    Agree spared (self.evalItems hint es) (self'.evalItems hint es) m := by
  induction es generalizing m with
  | nil => exact .same
  | cons e es ih => exact h.eval_bind hm fun v n hn => agree_cons (ih hn)

/-- An operation that calls back for every element, by induction on the elements
that are left. -/
theorem agree_mapItems {f : Value} {line : Nat} {items : List Value} (hm : m.pending = none) :
    Agree spared (self.mapItems f line items) (self'.mapItems f line items) m := by
  induction items generalizing m with
  | nil => exact .same
  | cons v vs ih => exact h.call_bind hm fun w n hn => agree_cons (ih hn)

/-- An element is kept or dropped on both sides, since the calls agree. -/
theorem agree_filterItems {f : Value} {line : Nat} {items : List Value} (hm : m.pending = none) :
    Agree spared (self.filterItems f line items) (self'.filterItems f line items) m := by
  induction items generalizing m with
  | nil => exact .same
  | cons v vs ih =>
    refine h.call_bind hm ?_
    intro w n hn
    split
    · exact agree_cons (ih hn)
    · exact ih hn
    · exact .same

/-- The function is looked at first, which is no task. -/
theorem agree_map {f : Value} {line : Nat} {items : List Value} (hm : m.pending = none) :
    Agree spared (self.map f line items) (self'.map f line items) m := by
  unfold Doer.map
  split
  · exact agree_mapItems h hm
  · exact .same

/-- As for `map`. -/
theorem agree_filter {f : Value} {line : Nat} {items : List Value} (hm : m.pending = none) :
    Agree spared (self.filter f line items) (self'.filter f line items) m := by
  unfold Doer.filter
  split
  · exact agree_filterItems h hm
  · exact .same

end Doer

-- ---------------------------------------------------------------------------
-- Operations on sequences
-- ---------------------------------------------------------------------------

section

variable (h : self.Agrees spared self')

include h

/-- A built-in function agrees with itself, as it uses the way to do tasks only
to call back. -/
theorem Builtin.agree_call {b : Builtin} {args : List Value} {line : Nat}
    (hm : m.pending = none) :
    Agree spared (b.call self args line) (b.call self' args line) m := by
  unfold call
  split
  · unfold Builtin.apply
    -- only `map` and `filter` call back
    split
    case h_14 =>
      refine .sequence_bind ?_
      intro s
      exact (Doer.agree_map h hm).bind fun _ _ _ => .same
    case h_15 =>
      refine .sequence_bind ?_
      intro s
      exact (Doer.agree_filter h hm).bind fun _ _ _ => .same
    all_goals exact .same
  · exact .same

namespace CollectionOp

/-- The same of an operation on a sequence. -/
theorem agree_apply {op : CollectionOp} {target : Value} {args : List Value} {mutate : Bool}
    {declared : Option Ty} {line : Nat} (hm : m.pending = none) :
    Agree spared (op.apply self target args mutate declared line)
      (op.apply self' target args mutate declared line) m := by
  unfold CollectionOp.apply
  split
  case h_9 =>
    refine .sequence_bind ?_
    intro s
    exact (Doer.agree_map h hm).bind fun _ _ _ => .same
  case h_10 =>
    refine .sequence_bind ?_
    intro s
    exact (Doer.agree_filter h hm).bind fun _ _ _ => .same
  all_goals exact .same

/-- Named arguments are evaluated from left to right up to the first that is
refused. -/
theorem agree_mutateFlag {op : CollectionOp} {line : Nat} {flag : Bool}
    {named : List (String × Expr)} (hm : m.pending = none) :
    Agree spared (mutateFlag self op line flag named) (mutateFlag self' op line flag named) m := by
  induction named generalizing flag m with
  | nil => exact .same
  | cons arg rest ih =>
    unfold mutateFlag
    split
    · refine h.eval_bind hm ?_
      intro v n hn
      split
      · exact ih hn
      · exact .same
    · exact .same

omit h in
/-- The type of the subject is read from its declaration, not by a task. -/
theorem agree_subjectType_bind {e : Expr} {f g : Option Ty → Run β}
    (hnext : ∀ ty, Agree spared (f ty) (g ty) m) :
    Agree spared (subjectType e >>= f) (subjectType e >>= g) m := by
  cases e with
  | ident name p => exact .declared?_bind hnext
  | _ => exact hnext none

/-- An operation on a sequence, from its subject over its arguments to its flag.
-/
theorem agree_eval {op : CollectionOp} {subject : Expr} {args : List Expr}
    {named : List (String × Expr)} {line : Nat} (hm : m.pending = none) :
    Agree spared (op.eval self subject args named line) (op.eval self' subject args named line)
      m := by
  unfold CollectionOp.eval
  refine h.eval_bind hm ?_
  intro target m₁ hm₁
  split
  · exact .same
  have hargs : vacuous.Safe Set.univ false (self.evalAll args) m₁ vacuous.Vals :=
    Doer.safe_evalAll h.obeyed (standing_vacuous m₁) (Set.subset_univ _)
  refine .bind_safe hargs hm₁ (Doer.agree_evalAll h hm₁) ?_
  intro vs m₂ hm₂
  have hflag : vacuous.Safe Set.univ false (mutateFlag self op line false named) m₂
      fun _ _ => True :=
    safe_mutateFlag h.obeyed (standing_vacuous m₂) (Set.subset_univ _)
  refine .bind_safe hflag hm₂ (agree_mutateFlag h hm₂) ?_
  intro mutate m₃ hm₃
  refine agree_subjectType_bind ?_
  intro declared
  exact (agree_apply h hm₃).bind fun _ _ _ => .same

end CollectionOp

-- ---------------------------------------------------------------------------
-- Expressions
-- ---------------------------------------------------------------------------

namespace Doer

/-- Whether the right side is evaluated depends on the value of the left one,
which is the same. -/
theorem agree_evalLogic {op : BinaryOp} {decides : Bool} {left right : Expr} {line : Nat}
    (hm : m.pending = none) :
    Agree spared (self.evalLogic op decides left right line)
      (self'.evalLogic op decides left right line) m := by
  refine h.eval_bind hm ?_
  intro l m₁ hm₁
  split
  · split
    · exact .same
    · exact h.eval_bind hm₁ fun _ _ _ => .same
  · exact .same

/-- **Expressions.** They agree for any two ways to do tasks that do on
expressions and calls. -/
theorem agree_evalExpr {hint : Option Ty} {e : Expr} (hm : m.pending = none) :
    Agree spared (self.evalExpr hint e) (self'.evalExpr hint e) m := by
  unfold evalExpr
  split
  · exact .same
  · exact .same
  · exact agree_evalLogic h hm
  · exact agree_evalLogic h hm
  · -- an operator with two operands
    refine h.eval_bind hm ?_
    intro a m₁ hm₁
    exact h.eval_bind hm₁ fun _ _ _ => .same
  · exact h.eval_bind hm fun _ _ _ => .same
  · exact h.eval_bind hm fun _ _ _ => .same
  · -- a call
    refine .valueOf_bind ?_
    intro f
    refine .bind_safe (safe_evalArguments h.obeyed (standing_vacuous m) (Set.subset_univ _)) hm
      (agree_evalArguments h hm) ?_
    intro vs m₁ hm₁
    exact h.agree _ m₁ rfl hm₁
  · -- an index
    refine h.eval_bind hm ?_
    intro s m₁ hm₁
    exact h.eval_bind hm₁ fun _ _ _ => .same
  · exact CollectionOp.agree_eval h hm
  · exact (agree_evalItems h hm).bind fun _ _ _ => .same
  · exact .same

end Doer

end

end SeqScript
