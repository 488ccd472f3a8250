import SeqScript.Eval.Expr
import SeqScript.Proofs.Discipline.Collection

/-!
# Expressions keep every discipline

One rule for each form of expression, and `safe_evalExpr` for all of them. An
expression declares only the names derived in it, and it never sets off a
return.
-/

namespace SeqScript

open Discipline

variable {D : Discipline} {self : Doer} {names : Scopes.Names} {m : Machine}

/-- An element that is read was in the store already, or is made of the subject afresh.
-/
theorem safe_elementAt {line : Nat} {subject index : Value} (hm : D.Standing m)
    (hsubject : D.Val subject m.heap) :
    D.Safe names false (elementAt line subject index) m D.Val := by
  unfold elementAt
  split
  · next kind id =>
    refine .heap_bind ?_
    refine .charge_bind hm ?_
    intro i _
    refine .pure hm ?_
    -- an element of the store, or the unit value where there is none
    rw [Array.getD]
    split
    · exact D.val_element hm.holds hsubject (Array.getElem_mem _)
    · exact D.val_plain rfl
  · refine .charge_bind hm ?_
    intro i _
    refine .newSeq hm ?_
    intro v hv
    obtain ⟨x, -, rfl⟩ := List.mem_map.mp hv
    exact D.val_plain rfl
  · refine .charge_bind hm ?_
    intro i _
    exact .pure hm (D.val_plain rfl)
  · exact .fail hm

namespace Doer

/-- The right side is evaluated from where the left one ended, or not at all. -/
theorem safe_evalLogic (hself : D.Obeyed self) {op : BinaryOp} {decides : Bool}
    {left right : Expr} {line : Nat} (hm : D.Standing m)
    (hleft : untyped left.derived ⊆ names) (hright : untyped right.derived ⊆ names) :
    D.Safe names false (self.evalLogic op decides left right line) m D.Val := by
  refine (hself.eval hm hleft).bind ?_
  intro l m₁ h₁ _
  split
  · split
    · exact .pure h₁.standing (D.val_plain rfl)
    · refine (hself.eval h₁.standing hright).bind ?_
      intro r m₂ h₂ _
      split
      · exact .pure h₂.standing (D.val_plain rfl)
      · exact .fail h₂.standing
  · exact .fail h₁.standing

/-- Arguments are evaluated one after the other, each with the type of its parameter as
a hint. -/
theorem safe_evalArguments (hself : D.Obeyed self) {params : List Param} {es : List Expr}
    (hm : D.Standing m) (hnames : untyped (Expr.derivedAll es) ⊆ names) :
    D.Safe names false (self.evalArguments params es) m D.Vals := by
  induction es generalizing params m with
  | nil => exact .pure hm (by simp [Vals])
  | cons e es ih =>
    rw [Expr.derivedAll, untyped_append, Set.union_subset_iff] at hnames
    exact safe_cons (hself.eval hm hnames.1) fun m₁ hadv => ih hadv.standing hnames.2

theorem safe_evalItems (hself : D.Obeyed self) {hint : Option Ty} {es : List Expr}
    (hm : D.Standing m) (hnames : untyped (Expr.derivedAll es) ⊆ names) :
    D.Safe names false (self.evalItems hint es) m D.Vals := by
  induction es generalizing m with
  | nil => exact .pure hm (by simp [Vals])
  | cons e es ih =>
    rw [Expr.derivedAll, untyped_append, Set.union_subset_iff] at hnames
    exact safe_cons (hself.eval hm hnames.1) fun m₁ hadv => ih hadv.standing hnames.2

/-- **Expressions.** They declare the names derived in them, without types, and never
return. -/
theorem safe_evalExpr (hself : D.Obeyed self) {hint : Option Ty} {e : Expr} (hm : D.Standing m)
    (hnames : untyped e.derived ⊆ names) :
    D.Safe names false (self.evalExpr hint e) m D.Val := by
  unfold evalExpr
  split
  · exact .pure hm (D.val_data (Value.isData_ofLiteral _))
  · exact .valueOf hm
  · -- and
    simp only [Expr.derived, untyped_append, Set.union_subset_iff] at hnames
    exact safe_evalLogic hself hm hnames.1 hnames.2
  · -- or
    simp only [Expr.derived, untyped_append, Set.union_subset_iff] at hnames
    exact safe_evalLogic hself hm hnames.1 hnames.2
  · -- the operators that always evaluate both sides
    simp only [Expr.derived, untyped_append, Set.union_subset_iff] at hnames
    refine (hself.eval hm hnames.1).bind ?_
    intro a m₁ h₁ _
    refine (hself.eval h₁.standing hnames.2).bind ?_
    intro b m₂ h₂ _
    refine .heap_bind ?_
    exact .charge h₂.standing fun v hv => D.val_data (Value.isData_binary hv)
  · -- a sign
    rw [Expr.derived] at hnames
    refine (hself.eval hm hnames).bind ?_
    intro v m₁ h₁ _
    exact .charge h₁.standing fun w hw => D.val_data (Value.isData_unary hw)
  · -- a cast
    rw [Expr.derived] at hnames
    refine (hself.eval hm hnames).bind ?_
    intro v m₁ h₁ _
    refine .heap_bind ?_
    exact .charge h₁.standing fun w hw => D.val_data (Value.isData_cast hw)
  · -- a call; what the function declares stays in frames of its own
    refine (Safe.valueOf hm).bind ?_
    intro f m₁ h₁ _
    refine (safe_evalArguments hself h₁.standing hnames).bind ?_
    intro vs m₂ h₂ hvs
    exact hself.call h₂.standing hvs
  · -- an index
    simp only [Expr.derived, untyped_append, Set.union_subset_iff] at hnames
    refine (hself.eval hm hnames.1).bind ?_
    intro s m₁ h₁ hs
    refine (hself.eval h₁.standing hnames.2).bind ?_
    intro i m₂ h₂ _
    exact safe_elementAt h₂.standing (h₂.val hs)
  · exact CollectionOp.safe_eval hself hm hnames
  · -- an array literal
    refine (safe_evalItems hself hm hnames).bind ?_
    intro vs m₁ h₁ hvs
    exact .newSeq h₁.standing hvs
  · exact .newClosure hm

end Doer

end SeqScript
