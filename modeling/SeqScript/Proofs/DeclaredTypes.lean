import SeqScript.Proofs.Reachable

/-!
# Variables hold what their types say

A value is made to fit a declared type before it is bound, and a binding keeps
its type for good. What needs an argument is the assignment to a variable: the
type of the target is read first, then the right side is evaluated, and then the
target is looked up again to be written. `Scopes.Extends.declared?_eq` says that
a type found by the second look-up was found by the first, because nothing that
happens in between declares a name with a type in the current frame or anything
in the frames around it. The discipline below therefore also says that the
current frame exists, without which nothing would be known of the frames around
it.

The main result is `bindings_fit_types`.
-/

namespace SeqScript

/-- Every binding with a declared type holds a value that the type admits. -/
def Scopes.Typed (s : Scopes) : Prop := s.Every fun b => ∀ ty, b.ty = some ty → ty.Admits b.value

/-- Declared types are kept to. -/
def Discipline.typed : Discipline where
  Holds _ s f := s.Typed ∧ f < s.size
  Val _ _ := True
  val_grow _ _ := trivial
  val_plain _ := trivial
  val_bound _ _ := trivial
  val_element _ _ _ := trivial
  val_newSeq _ := trivial
  val_conform _ _ _ := trivial
  -- the heap does not matter
  holds_newSeq hs _ := hs
  holds_conform hs _ _ := hs
  holds_part hs _ _ := hs
  holds_append hs _ _ _ := hs
  holds_element hs _ _ _ := hs
  holds_replace hs _ _ _ := hs
  holds_enter {_ s _ p} hs := ⟨hs.1.push (some p), by simp⟩
  holds_leave hs hsize hs' := ⟨hs'.1, Nat.lt_of_lt_of_le hs.2 hsize⟩
  holds_define {_ _ f name _ _} hs _ hadmits := ⟨hs.1.define hadmits f name, by simpa using hs.2⟩
  holds_assign hs₀ hs _ hadmits := ⟨hs.1.assign (hadmits hs₀.2), by simpa using hs.2⟩

theorem typed_start (limit : Nat) : Discipline.typed.Standing (Session.start limit).machine where
  holds := by
    refine ⟨Session.every_start (by simp) limit, ?_⟩
    show Session.prelude.2.size < (Session.prelude.2.child Session.prelude.1).2.size
    simp
  pending _ _ := trivial

/-- **Every variable holds a value of its declared type**, at every moment of
every session, in every frame: whether the binding is a variable, a parameter or
one that an inner scope or a function has written to. -/
theorem bindings_fit_types {m : Machine} (hm : Session.Moment m) :
    ∀ frame ∈ m.scopes.frames, ∀ row ∈ frame.bindings, ∀ ty, row.2.ty = some ty →
      ty.Admits row.2.value :=
  (hm.standing typed_start).holds.1

/-- After `let x: float = 1;` there is a variable declared as `float`. -/
theorem bindings_fit_types_float :
    let p : Place := ⟨1, 1⟩
    let program := [Stmt.declare "x" (some .float) (some (.literal (.int 1) p)) p]
    let m := ((Session.start 1).evaluate 2 program).2.machine
    Session.Moment m ∧ m.scopes.typeIn? m.frame "x" = some (some .float) ∧
      ∀ frame ∈ m.scopes.frames, ∀ row ∈ frame.bindings, ∀ ty, row.2.ty = some ty →
        ty.Admits row.2.value := by
  intro p program m
  have hm : Session.Moment m := .between (.evaluate 2 program (.start 1))
  exact ⟨hm, by decide +kernel, bindings_fit_types hm⟩

end SeqScript
