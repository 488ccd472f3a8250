import SeqScript.Eval.Task
import SeqScript.Proofs.Declarations

/-!
# What a task may declare

Evaluating an expression can bind names: an operation on a variable leaves its
result under a name derived from the variable's. `Expr.derived` lists these
names for a whole expression. The bodies of lambdas do not count, because they
run later and in frames of their own; for the same reason the bodies of blocks,
loops, branches, cases and functions do not count for a statement. What a
statement declares itself, by `let`, by `func` or by assigning to a name that is
not bound, is `Stmt.declares`.

`Machine.Extends` relates a machine to a later one on which nothing else has
been declared in any frame that was there, and which is back in the same frame
and at the same depth of calls.
-/

namespace SeqScript

-- ---------------------------------------------------------------------------
-- Derived names
-- ---------------------------------------------------------------------------

/-- The names to which an operation on a variable binds its result. -/
def CollectionOp.derivedNames (op : CollectionOp) (name : String) : List String :=
  if op.isMutating then []
  else (name ++ "_" ++ op.name) ::
    if op = .linreg then ["slope", "intercept", "r_squared"].map fun part => name ++ "_" ++ part
    else []

/-- The names to which an operation binds its result. -/
def CollectionOp.derivedFrom (op : CollectionOp) : Expr → List String
  | .ident name _ => op.derivedNames name
  | _ => []

namespace Expr

mutual

/-- The names that evaluating an expression may bind. -/
def derived : Expr → List String
  | literal .. | ident .. | lambda .. => []
  | binary _ l r _ => l.derived ++ r.derived
  | unary _ e _ | cast _ e _ => e.derived
  | call _ args _ => derivedAll args
  | index subject position _ => subject.derived ++ position.derived
  | collection op subject args named _ =>
    subject.derived ++ derivedAll args ++ derivedNamed named ++ op.derivedFrom subject
  | items es _ => derivedAll es

def derivedAll : List Expr → List String
  | [] => []
  | e :: es => e.derived ++ derivedAll es

def derivedNamed : List (String × Expr) → List String
  | [] => []
  | (_, e) :: rest => e.derived ++ derivedNamed rest

end

end Expr

-- ---------------------------------------------------------------------------
-- Names of statements
-- ---------------------------------------------------------------------------

namespace Stmt

/-- The names that the expressions of a statement may bind. -/
def derived : Stmt → List String
  | declare _ _ value _ | ret value _ => (value.map Expr.derived).getD []
  | assign _ _ e _ | branch e _ _ _ | loop e _ _ | select e _ _ | expr e => e.derived
  | assignIndex _ position _ e _ => position.derived ++ e.derived
  | func .. | block .. => []

/-- What a statement declares itself, executed in frame `f`. -/
def declares (s : Scopes) (f : FrameId) : Stmt → Option (String × Option Ty)
  | declare name ty _ _ => some (name, ty)
  | func name .. => some (name, none)
  | assign target .. => if (s.lookup? f target).isNone then some (target, none) else none
  | _ => none

end Stmt

/-- Names bound without a type. -/
def untyped (names : List String) : Scopes.Names := { p | p.1 ∈ names ∧ p.2 = none }

/-- What a task may declare in the current frame. -/
def Task.names (m : Machine) : Task → Scopes.Names
  | eval _ e => untyped e.derived
  | exec s => untyped s.derived ∪ { p | s.declares m.scopes m.frame = some p }
  | call .. => ∅

theorem untyped_subset_iff {l : List String} {names : Scopes.Names} :
    untyped l ⊆ names ↔ ∀ name ∈ l, (name, none) ∈ names := by
  constructor
  · intro h name hname
    exact h ⟨hname, rfl⟩
  · rintro h ⟨name, ty⟩ ⟨hname, rfl⟩
    exact h name hname

@[simp] theorem untyped_append (l l' : List String) :
    untyped (l ++ l') = untyped l ∪ untyped l' := by
  ext p
  simp [untyped, or_and_right]

-- ---------------------------------------------------------------------------
-- Machines
-- ---------------------------------------------------------------------------

namespace Machine

/-- `m'` is a machine that `m` may have become: back in the same frame and at
the same depth, with nothing given up, and with no names declared but the given
ones in the current frame. -/
structure Extends (names : Scopes.Names) (m m' : Machine) : Prop where
  frame : m'.frame = m.frame
  depth : m'.depth = m.depth
  heap : m.heap.size ≤ m'.heap.size
  scopes : m.scopes.Extends names m.frame m'.scopes

namespace Extends

variable {names names' : Scopes.Names} {m m₁ m₂ : Machine}

theorem refl (names : Scopes.Names) (m : Machine) : Extends names m m :=
  ⟨rfl, rfl, Nat.le_refl _, .refl ..⟩

theorem trans (h₁ : Extends names m m₁) (h₂ : Extends names m₁ m₂) : Extends names m m₂ := by
  refine ⟨h₂.frame.trans h₁.frame, h₂.depth.trans h₁.depth, Nat.le_trans h₁.heap h₂.heap, ?_⟩
  have hscopes := h₂.scopes
  rw [h₁.frame] at hscopes
  exact h₁.scopes.trans hscopes

theorem mono (h : Extends names m m₁) (hsub : names ⊆ names') : Extends names' m m₁ :=
  ⟨h.frame, h.depth, h.heap, h.scopes.mono hsub⟩

end Extends

end Machine

end SeqScript
