import SeqScript.Proofs.Discipline.Expr

/-!
# Statements keep every discipline

A statement declares the names derived in its own expressions and the one it is
there to declare. What the bodies inside it declare goes into frames made for
them (`safe_execBlock`), so the sets of names of the statements of a body are of
no interest and are taken to be all names.

The assignment to a variable is the one place where something asked for earlier
has to be true still: the type of the target is read before the right side is
evaluated. `safe_execAssign` gets this from the names declared meanwhile, none of
which has a type.
-/

namespace SeqScript

open Discipline

variable {D : Discipline} {self : Doer} {names : Scopes.Names} {m : Machine}

namespace Doer

-- ---------------------------------------------------------------------------
-- Blocks
-- ---------------------------------------------------------------------------

/-- The run lemma of bodies: what each statement keeps, the rest of the body starts
from. Behind a return nothing is executed. -/
theorem safe_execFrom (hself : D.Obeyed self) {last : Value} {body : List Stmt}
    (hm : D.Standing m) (hlast : D.Val last m.heap) :
    D.Safe Set.univ true (self.execFrom last body) m D.Val := by
  induction body generalizing last m with
  | nil => exact .pure hm hlast
  | cons s ss ih =>
    have hs : D.Safe Set.univ true (self (.exec s)) m D.Val :=
      (hself (.exec s) m hm (by simp [Task.values, Vals])).mono (Set.subset_univ _)
    refine hs.bind_returning (fun _ _ hv => hv) ?_
    intro v m₁ hadv hv
    exact ih hadv.standing hv

theorem safe_execAll (hself : D.Obeyed self) {body : List Stmt} (hm : D.Standing m) :
    D.Safe Set.univ true (self.execAll body) m D.Val :=
  safe_execFrom hself hm (D.val_plain rfl)

/-- A block declares into a frame of its own, so nothing is asked of the names in it. -/
theorem safe_execBlock (hself : D.Obeyed self) {body : List Stmt} (hm : D.Standing m) :
    D.Safe names true (self.execBlock body) m D.Val :=
  .scope hm fun _ hm₁ _ => safe_execAll hself hm₁

/-- A condition gives no value to be judged, only a choice. -/
theorem safe_condition (hself : D.Obeyed self) {statement : String} {e : Expr}
    (hm : D.Standing m) (hnames : untyped e.derived ⊆ names) :
    D.Safe names false (self.condition statement e) m fun _ _ => True := by
  refine (hself.eval hm hnames).bind ?_
  intro v m₁ hadv _
  split
  · exact .pure hadv.standing trivial
  · exact .fail hadv.standing

-- ---------------------------------------------------------------------------
-- Declarations
-- ---------------------------------------------------------------------------

/-- What a variable begins with: its expression, an empty sequence, or a plain value of
its type. -/
theorem safe_initial (hself : D.Obeyed self) {ty : Option Ty} {value : Option Expr}
    (hm : D.Standing m) (hnames : untyped ((value.map Expr.derived).getD []) ⊆ names) :
    D.Safe names false (self.initial ty value) m D.Val := by
  unfold initial
  split
  · exact hself.eval hm hnames
  · next ty =>
    cases ty with
    | array _ | list _ => exact Safe.newSeq hm (by simp [Vals])
    | _ => exact Safe.pure hm (D.val_plain rfl)
  · exact .pure hm (D.val_plain rfl)

/-- A declaration adds its name with its type, bound to a value that fits the type. -/
theorem safe_execDeclare (hself : D.Obeyed self) {name : String} {ty : Option Ty}
    {value : Option Expr} {line : Nat} (hm : D.Standing m)
    (hnames : untyped ((value.map Expr.derived).getD []) ⊆ names) (hname : (name, ty) ∈ names) :
    D.Safe names false (self.execDeclare name ty value line) m fun _ _ => True := by
  refine (safe_initial hself hm hnames).bind ?_
  intro v m₁ h₁ hv
  refine (Safe.assignable? h₁.standing hv).bind ?_
  intro w m₂ h₂ hw
  exact .define h₂.standing hname hw.1 hw.2

/-- A function is declared without a type, and only where none of its name is. -/
theorem safe_declareFunction {decl : FuncDecl} {line : Nat} (hm : D.Standing m)
    (hname : (decl.name, none) ∈ names) :
    D.Safe names false (Run.declareFunction decl line) m fun _ _ => True := by
  have hbinds : D.Safe names false (Run.bindsFunction decl.name) m fun _ _ => True := by
    refine .get_bind ?_
    split
    · exact .pure hm trivial
    · exact .pure hm trivial
  refine hbinds.bind ?_
  intro bound m₁ h₁ _
  split
  · exact .fail h₁.standing
  · refine (Safe.newClosure h₁.standing).bind ?_
    intro f m₂ h₂ hf
    exact .define h₂.standing hname hf (by simp)

-- ---------------------------------------------------------------------------
-- Assignments
-- ---------------------------------------------------------------------------

/-- The value of an assignment, with the old one taken in where the sign asks for it. -/
theorem safe_assigned (hself : D.Obeyed self) {target : String} {op : AssignOp}
    {declared : Option Ty} {value : Expr} {line : Nat} (hm : D.Standing m)
    (hnames : untyped value.derived ⊆ names) :
    D.Safe names false (self.assigned target op declared value line) m D.Val := by
  unfold assigned
  split
  · exact hself.eval hm hnames
  · refine (Safe.valueOf hm).bind ?_
    intro current m₁ h₁ _
    refine (hself.eval h₁.standing hnames).bind ?_
    intro v m₂ h₂ _
    refine .heap_bind ?_
    exact .charge h₂.standing fun w hw => D.val_data (Value.isData_binary hw)

/-- An assignment binds its target, or declares it without a type where nothing is
bound. No expression declares a name with a type (`htypes`), so the type that was read
first still holds. -/
theorem safe_execAssign (hself : D.Obeyed self) {target : String} {op : AssignOp} {value : Expr}
    {line : Nat} (hm : D.Standing m) (hnames : untyped value.derived ⊆ names)
    (htypes : ∀ p ∈ names, p.2 = none)
    (hname : m.scopes.lookup? m.frame target = none → (target, none) ∈ names) :
    D.Safe names false (self.execAssign target op value line) m fun _ _ => True := by
  refine .declared?_bind ?_
  refine (safe_assigned hself hm hnames).bind ?_
  intro v m₁ h₁ hv
  refine (Safe.assignable? h₁.standing hv).bind ?_
  intro w m₂ h₂ hw
  have hadv := h₁.trans h₂
  have hscopes := hadv.step.scopes
  have hframe := hadv.step.frame
  refine .assign h₂.standing (hframe ▸ hm.holds) ?_ hw.1 ?_
  · -- not bound now, so not bound when the statement began
    intro hnone
    rw [hframe] at hnone
    exact hname (hscopes.lookup?_eq_none hnone)
  · -- a type declared for it now is the one the value was made to fit
    intro hf t ht
    rw [hframe] at hf ht
    exact hw.2 t (hscopes.declared?_eq htypes hf ht)

/-- An element is written into a sequence that could be seen before, and the heap grows
only by what the value needed to fit. -/
theorem safe_execAssignIndex (hself : D.Obeyed self) {target : String} {position value : Expr}
    {op : AssignOp} {line : Nat} (hm : D.Standing m)
    (hposition : untyped position.derived ⊆ names) (hvalue : untyped value.derived ⊆ names) :
    D.Safe names false (self.execAssignIndex target position op value line) m
      fun _ _ => True := by
  refine .lookup?_bind ?_
  split
  · exact .fail hm
  · next b hb =>
    have hval : D.Val b.value m.heap := hm.val_lookup? hb
    refine (hself.eval hm hposition).bind ?_
    intro index m₁ h₁ _
    refine (hself.eval h₁.standing hvalue).bind ?_
    intro v m₂ h₂ hv
    split
    · next kind id hseq =>
      rw [hseq] at hval
      refine .heap_bind ?_
      refine .charge_bind h₂.standing ?_
      intro w hw
      obtain ⟨u, -, hu, -⟩ := elementWrite_eq_ok hw
      exact .setHeap_update h₂.standing (assignableElement_grows hu).size_le
        (D.holds_element h₂.standing.holds (h₂.val (h₁.val hval)) hv hw)
    · exact .fail h₂.standing

-- ---------------------------------------------------------------------------
-- Cases, loops and returns
-- ---------------------------------------------------------------------------

/-- The names of a pattern are bound to parts of the subject. -/
theorem safe_execSelect (hself : D.Obeyed self) {subject : Expr} {cases : List MatchCase}
    {line : Nat} (hm : D.Standing m) (hnames : untyped subject.derived ⊆ names) :
    D.Safe names true (self.execSelect subject cases line) m D.Val := by
  refine (hself.eval hm hnames).bind ?_
  intro v m₁ h₁ hv
  refine .heap_bind ?_
  split
  · exact .fail h₁.standing
  · next bindings body hfit =>
    refine .scope h₁.standing ?_
    intro m₂ hm₂ hheap
    have hbindings : ∀ row ∈ bindings, D.Val row.2 m₂.heap := by
      rw [hheap]
      exact MatchCase.firstFit?_closed (fun _ _ hid _ => D.val_element h₁.standing.holds hid) hv
        hfit
    refine (Safe.defineAll hm₂ (fun _ _ => Set.mem_univ _) hbindings).bind ?_
    intro _ m₃ h₃ _
    exact safe_execAll hself h₃.standing

/-- One round of a loop, and the rest of it as a task of its own. -/
theorem safe_execLoop (hself : D.Obeyed self) {c : Expr} {body : List Stmt} {p : Place}
    (hm : D.Standing m) :
    D.Safe (untyped c.derived) true (self.execLoop c body p) m D.Val := by
  refine (safe_condition hself hm Set.Subset.rfl).bind ?_
  intro b m₁ h₁ _
  split
  · refine (safe_execBlock hself h₁.standing).bind_returning (fun _ _ _ => D.val_plain rfl) ?_
    intro _ m₂ h₂ _
    refine (hself (.exec (.loop c body p)) m₂ h₂.standing (by simp [Task.values, Vals])).mono ?_
    simp [Task.names, Stmt.derived, Stmt.declares]
  · exact .pure h₁.standing (D.val_plain rfl)

/-- The value of a return waits in the machine; the statement itself gives a plain one.
-/
theorem safe_execReturn (hself : D.Obeyed self) {value : Option Expr} (hm : D.Standing m)
    (hnames : untyped ((value.map Expr.derived).getD []) ⊆ names) :
    D.Safe names true (self.execReturn value) m D.Val := by
  unfold execReturn
  split
  · refine (hself.eval hm hnames).bind ?_
    intro v m₁ h₁ hv
    exact (Safe.setPending h₁.standing hv).bind_pure fun _ _ _ => D.val_plain rfl
  · exact (Safe.setPending hm (D.val_plain rfl)).bind_pure fun _ _ _ => D.val_plain rfl

-- ---------------------------------------------------------------------------
-- All statements
-- ---------------------------------------------------------------------------

/-- **Statements.** They declare the names derived in them and the one that they are
there for, and may return. -/
theorem safe_execStmt (hself : D.Obeyed self) {s : Stmt} (hm : D.Standing m) :
    D.Safe (Task.names m (.exec s)) true (self.execStmt s) m D.Val := by
  have hderived : untyped s.derived ⊆ Task.names m (.exec s) := Set.subset_union_left
  have hdeclares : ∀ p, s.declares m.scopes m.frame = some p → p ∈ Task.names m (.exec s) :=
    fun p hp => Or.inr hp
  have hunit : ∀ (_ : Unit) h, True → D.Val .unit h := fun _ _ _ => D.val_plain rfl
  unfold execStmt
  split
  · exact ((safe_execDeclare hself hm hderived (hdeclares _ rfl)).bind_pure hunit).lift
  · -- an assignment to a variable
    next target op value p =>
    refine ((safe_execAssign hself hm hderived ?_ ?_).bind_pure hunit).lift
    · -- neither the derived names nor the target are given types
      rintro q (hq | hq)
      · exact hq.2
      · simp only [Set.mem_ofPred_eq, Stmt.declares] at hq
        split at hq
        · rw [← Option.some.inj hq]
        · simp at hq
    · intro hnone
      exact hdeclares _ (by simp [Stmt.declares, hnone])
  · simp only [Stmt.derived, untyped_append, Set.union_subset_iff] at hderived
    exact ((safe_execAssignIndex hself hm hderived.1 hderived.2).bind_pure hunit).lift
  · exact ((safe_declareFunction hm (hdeclares _ rfl)).bind_pure hunit).lift
  · -- a branch
    refine (safe_condition hself hm hderived).bind ?_
    intro b m₁ h₁ _
    split
    · exact safe_execBlock hself h₁.standing
    · split
      · exact safe_execBlock hself h₁.standing
      · exact .pure h₁.standing (D.val_plain rfl)
  · exact (safe_execLoop hself hm).mono hderived
  · exact safe_execSelect hself hm hderived
  · exact safe_execReturn hself hm hderived
  · exact safe_execBlock hself hm
  · exact hself.eval hm hderived

end Doer

end SeqScript
