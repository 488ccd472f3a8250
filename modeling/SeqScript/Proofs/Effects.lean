import SeqScript.Proofs.Reachable

/-!
# What a run leaves behind

The discipline that asks nothing is kept from any machine, so what `Safe` says
besides holds of every run without further ado.

* `registers_restored` — expressions and statements come back to the frame and
  the depth they started from, expressions leave the register of returns alone,
  and a statement that fails sets off no return. So every program ends in the
  globals, outside all calls and with no return under way.
* `declarations_confined` — frames keep their names and the types of these. New
  in the current frame can only be the names that an expression derives from the
  subjects of its operations, and the one that a statement is there to declare.
-/

namespace SeqScript

/-- The discipline that asks nothing. -/
def Discipline.vacuous : Discipline where
  Holds _ _ _ := True
  Val _ _ := True
  val_grow _ _ := trivial
  val_plain _ := trivial
  val_bound _ _ := trivial
  val_element _ _ _ := trivial
  val_newSeq _ := trivial
  val_conform _ _ _ := trivial
  holds_newSeq _ _ := trivial
  holds_conform _ _ _ := trivial
  holds_part _ _ _ := trivial
  holds_append _ _ _ _ := trivial
  holds_element _ _ _ _ := trivial
  holds_replace _ _ _ _ := trivial
  holds_enter _ := trivial
  holds_leave _ _ _ := trivial
  holds_define _ _ _ := trivial
  holds_assign _ _ _ _ := trivial

theorem standing_vacuous (m : Machine) : Discipline.vacuous.Standing m :=
  ⟨trivial, fun _ _ => trivial⟩

/-- What every task keeps to, begun on any machine. -/
theorem safe_perform (limit budget : Nat) (t : Task) (m : Machine) :
    Discipline.vacuous.Safe (t.names m) t.returns (perform limit budget t) m
      Discipline.vacuous.Val :=
  obeyed_perform Discipline.vacuous limit budget t m (standing_vacuous m) fun _ _ => trivial

-- ---------------------------------------------------------------------------
-- Registers
-- ---------------------------------------------------------------------------

/-- **The registers are put right however a run ends.** An expression leaves the
frame, the depth of calls and the register of returns as they were. A statement
leaves the frame and the depth, and if it fails also the register of returns. A
program ends in the globals, at depth zero and with no return under way. -/
theorem registers_restored :
    (∀ limit budget hint e m,
      let m' := (perform limit budget (.eval hint e)).after m
      m'.frame = m.frame ∧ m'.depth = m.depth ∧ m'.pending = m.pending) ∧
    (∀ limit budget s m,
      let act := perform limit budget (.exec s)
      let m' := act.after m
      m'.frame = m.frame ∧ m'.depth = m.depth ∧
        (act.fails m = true → m'.pending = m.pending)) ∧
    (∀ (s : Session) budget p,
      let m' := (s.evaluate budget p).2.machine
      m'.frame = s.globals ∧ m'.depth = 0 ∧ m'.pending = none) := by
  refine ⟨?_, ?_, ?_⟩
  · intro limit budget hint e m
    have hsafe := safe_perform limit budget (.eval hint e) m
    obtain ⟨hstep, -⟩ := hsafe.after
    exact ⟨hstep.frame, hstep.depth, hsafe.pending_after (Or.inl rfl)⟩
  · intro limit budget s m
    have hsafe := safe_perform limit budget (.exec s) m
    obtain ⟨hstep, -⟩ := hsafe.after
    exact ⟨hstep.frame, hstep.depth, fun hfails => hsafe.pending_after (Or.inr hfails)⟩
  · intro s budget p
    exact (Session.registers_evaluate s (standing_vacuous s.ready) budget p).2

-- ---------------------------------------------------------------------------
-- Declarations
-- ---------------------------------------------------------------------------

/-- **What a run declares is confined.** Take any frame that is there when a run
begins, and any name. What the frame says about the name, whether it binds it
and with which type, is the same when the run has ended, with or without a
value, unless the frame is the current one and
* in an expression, the name is one derived from the subject of an operation,
  and it has been bound without a type;
* in a statement, the same holds of one of its own expressions, or the name is
  the one that the statement itself declares, with the type it declares for it.
A call changes nothing at all. -/
theorem declarations_confined (limit budget : Nat) (m : Machine) (g : FrameId)
    (hg : g < m.scopes.size) (name : String) :
    (∀ hint e,
      let s' := ((perform limit budget (.eval hint e)).after m).scopes
      s'.typeIn? g name = m.scopes.typeIn? g name ∨
        g = m.frame ∧ name ∈ e.derived ∧ s'.typeIn? g name = some none) ∧
    (∀ s,
      let s' := ((perform limit budget (.exec s)).after m).scopes
      s'.typeIn? g name = m.scopes.typeIn? g name ∨
        g = m.frame ∧ (name ∈ s.derived ∧ s'.typeIn? g name = some none ∨
          ∃ ty, s.declares m.scopes m.frame = some (name, ty) ∧ s'.typeIn? g name = some ty)) ∧
    (∀ f args line,
      let s' := ((perform limit budget (.call f args line)).after m).scopes
      s'.typeIn? g name = m.scopes.typeIn? g name) := by
  have hextends : ∀ t, m.scopes.Extends (t.names m) m.frame
      ((perform limit budget t).after m).scopes :=
    fun t => (safe_perform limit budget t m).after.1.scopes
  refine ⟨?_, ?_, ?_⟩
  · intro hint e
    rcases (hextends (.eval hint e)).types g hg name with hsame | ⟨hframe, ty, hname, hty⟩
    · exact Or.inl hsame
    · obtain ⟨hderived, rfl⟩ := hname
      exact Or.inr ⟨hframe, hderived, hty⟩
  · intro s
    rcases (hextends (.exec s)).types g hg name with hsame | ⟨hframe, ty, hname, hty⟩
    · exact Or.inl hsame
    · rcases hname with ⟨hderived, rfl⟩ | hdeclares
      · exact Or.inr ⟨hframe, Or.inl ⟨hderived, hty⟩⟩
      · exact Or.inr ⟨hframe, Or.inr ⟨ty, hdeclares, hty⟩⟩
  · intro f args line
    rcases (hextends (.call f args line)).types g hg name with hsame | ⟨-, ty, hname, -⟩
    · exact hsame
    · exact absurd hname (Set.notMem_empty _)

/-- With a list in a variable `xs`, the expression `xs.rotate(1)` does bind
`xs_rotate`. -/
theorem declarations_confined_rotate :
    let m : Machine :=
      { heap := ⟨#[#[.int 1, .int 2]]⟩
        scopes := ⟨#[⟨[("xs", ⟨.seq .list 0, none⟩)], none⟩]⟩
        frame := 0, depth := 0, pending := none, closures := 0, output := ⟨#[], #[]⟩ }
    let p : Place := ⟨1, 1⟩
    let e := Expr.collection .rotate (.ident "xs" p) [.literal (.int 1) p] [] p
    let s' := ((perform 1 2 (.eval none e)).after m).scopes
    0 < m.scopes.size ∧ s'.typeIn? 0 "xs_rotate" = some none ∧
      (s'.typeIn? 0 "xs_rotate" = m.scopes.typeIn? 0 "xs_rotate" ∨
        0 = m.frame ∧ "xs_rotate" ∈ e.derived ∧ s'.typeIn? 0 "xs_rotate" = some none) := by
  refine ⟨by decide, by decide +kernel, ?_⟩
  exact (declarations_confined 1 2 _ 0 (by decide) "xs_rotate").1 none _

end SeqScript
