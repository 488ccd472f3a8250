import SeqScript.Proofs.Composition
import SeqScript.Proofs.Writes

/-!
# Compound assignment

`x += e;` is short for `x = x + e;`. Both look up the declared type of `x`, then its
value, and only then evaluate `e`, so they come to the same in every machine, whatever
`e` does (`compound_assign_expands`).

`xs[i] += e;` is not quite short for `xs[i] = xs[i] + e;`. Both look up `xs` before `e` is
evaluated. But the first reads the element afterwards, together with the check of the
index, while the second reads it before. They come to the same if the element combines
with the value of `e` as it did before, in particular if `e` leaves it alone
(`compound_index_reads_last`). If `e` changes it they need not.

What a task comes to is said here without a budget: `Task.Settles` is about all that are
large enough.
-/

namespace SeqScript

open Run

-- ---------------------------------------------------------------------------
-- Budgets that are large enough
-- ---------------------------------------------------------------------------

/-- On every budget from some size on, a task ends so. -/
def Task.Settles (limit : Nat) (t : Task) (m : Machine)
    (r : EStateM.Result Stop Machine Value) : Prop :=
  ∃ enough, ∀ budget, enough ≤ budget → perform limit budget t m = r

section

variable {limit budget : Nat} {t t' : Task} {m n : Machine}
  {r : EStateM.Result Stop Machine Value}

/-- One budget that is not used up is large enough. -/
theorem settles_of_perform (hm : m.pending = none) (hrun : perform limit budget t m = r)
    (hr : ∀ n, r ≠ .error .exhausted n) : t.Settles limit m r := by
  refine ⟨budget, ?_⟩
  intro budget' hle
  rcases (agreesFully_budget limit hle).task t m hm with ⟨e, n, hstop, rfl⟩ | hsame
  · exact absurd (hrun.symm.trans hstop) (hr n)
  · exact hsame.symm.trans hrun

theorem settles_of_ok {v : Value} (hm : m.pending = none)
    (hrun : perform limit budget t m = .ok v n) : t.Settles limit m (.ok v n) :=
  settles_of_perform hm hrun (by simp)

theorem settles_of_not_fails (hm : m.pending = none)
    (hfails : (perform limit budget t).fails m = false) :
    ∃ v, t.Settles limit m (.ok v ((perform limit budget t).after m)) := by
  cases hrun : perform limit budget t m with
  | error e n => simp [fails, hrun] at hfails
  | ok v n =>
    rw [after_of_ok hrun]
    exact ⟨v, settles_of_ok hm hrun⟩

/-- A task takes one step of the budget, and what it is made of takes the rest. -/
theorem settles_of_succ (enough : Nat) (h : ∀ k, enough ≤ k → perform limit (k + 1) t m = r) :
    t.Settles limit m r := by
  refine ⟨enough + 1, ?_⟩
  intro budget hle
  obtain ⟨k, rfl⟩ : ∃ k, budget = k + 1 := ⟨budget - 1, by omega⟩
  exact h k (by omega)

theorem settles_literal (l : Literal) (p : Place) (m : Machine) :
    (Task.eval none (.literal l p)).Settles limit m (.ok (.ofLiteral l) m) :=
  settles_of_succ 0 fun _ _ => rfl

/-- Tasks that do the same, one on a larger budget, settle the same way. -/
theorem settles_iff_of_shift {a b : Nat}
    (h : ∀ k, perform limit (k + a) t m = perform limit (k + b) t' m) :
    t.Settles limit m r ↔ t'.Settles limit m r := by
  constructor
  · rintro ⟨enough, hrun⟩
    refine ⟨enough + b, ?_⟩
    intro budget hle
    obtain ⟨k, rfl⟩ : ∃ k, budget = k + b := ⟨budget - b, by omega⟩
    rw [← h k]
    exact hrun (k + a) (by omega)
  · rintro ⟨enough, hrun⟩
    refine ⟨enough + a, ?_⟩
    intro budget hle
    obtain ⟨k, rfl⟩ : ∃ k, budget = k + a := ⟨budget - a, by omega⟩
    rw [h k]
    exact hrun (k + b) (by omega)

end

-- ---------------------------------------------------------------------------
-- Variables
-- ---------------------------------------------------------------------------

section

variable {op : AssignOp} {combine : BinaryOp}

/-- An operator of assignments evaluates both its operands and combines them. -/
theorem evalExpr_combine (self : Doer) (hop : op.combine? = some combine) (hint : Option Ty)
    (l r : Expr) (p : Place) :
    self.evalExpr hint (.binary combine l r p) = (do
      let a ← self.eval l
      let b ← self.eval r
      charge p.line (Value.binary (← heap) combine a b)) := by
  cases op <;> cases hop <;> rfl

/-- The right side `x ∘ e` of an assignment to `x` computes what `∘= e` does. -/
theorem assigned_expanded (limit budget : Nat) (hop : op.combine? = some combine) (x : String)
    (declared : Option Ty) (e : Expr) {p q q' : Place} (hq : q.line = p.line)
    (hq' : q'.line = p.line) (line : Nat) :
    (perform limit (budget + 2)).assigned x .set declared (.binary combine (.ident x q) e q')
        line =
      (perform limit (budget + 1)).assigned x op declared e p.line := by
  show (perform limit (budget + 1)).evalExpr declared (.binary combine (.ident x q) e q') = _
  rw [evalExpr_combine _ hop, Doer.assigned, hop, ← hq, hq', ← hq]
  rfl

end

/-- **A compound assignment to a variable is short for a plain one.** Take a name `x`, one of
the signs `+=`, `-=`, `*=` and `/=`, any expression `e` and any machine. Then `x ∘= e;` and
`x = x ∘ e;`, written on the same line, come to the same: the same success or the same fault,
class, line and message included, and the same machine, with all its variables, sequences,
functions and output. -/
theorem compound_assign_expands (limit : Nat) {op : AssignOp} {combine : BinaryOp}
    (hop : op.combine? = some combine) (x : String) (e : Expr) {p q q₁ q₂ : Place}
    (hq : q.line = p.line) (hq₁ : q₁.line = p.line) (hq₂ : q₂.line = p.line) (m : Machine)
    (r : EStateM.Result Stop Machine Value) :
    (Task.exec (.assign x op e p)).Settles limit m r ↔
      (Task.exec (.assign x .set (.binary combine (.ident x q₁) e q₂) q)).Settles limit m r := by
  refine settles_iff_of_shift (a := 2) (b := 3) ?_
  intro k
  show ((perform limit (k + 1)).execAssign x op e p.line >>= _) m =
    ((perform limit (k + 2)).execAssign x .set (.binary combine (.ident x q₁) e q₂) q.line >>= _) m
  unfold Doer.execAssign
  simp only [assigned_expanded limit k hop x _ e hq₁ hq₂, hq]

/-- With `x` 10 and `func f() { x = 3; return 1; }`, both `x -= f();` and `x = x - f();` leave 9
in `x`: it is read before `f` is called. -/
theorem compound_assign_expands_written :
    let p : Place := ⟨1, 1⟩
    let decl : FuncDecl :=
      ⟨"f", [], [.assign "x" .set (.literal (.int 3) p) p, .ret (some (.literal (.int 1) p)) p]⟩
    let m : Machine :=
      { heap := .empty
        scopes := ⟨#[⟨[("x", ⟨.int 10, some .int⟩), ("f", ⟨.func ⟨0, .declared decl, 0⟩, none⟩)],
          none⟩]⟩
        frame := 0, depth := 0, pending := none, closures := 1, output := ⟨#[], #[]⟩ }
    let compound := Task.exec (.assign "x" .sub (.call "f" [] p) p)
    let plain := Task.exec (.assign "x" .set (.binary .sub (.ident "x" p) (.call "f" [] p) p) p)
    let n := (perform 5 8 compound).after m
    AssignOp.sub.combine? = some .sub ∧ (n.scopes.get? 0 "x").map n.heap.text = some "9" ∧
      ∃ v, compound.Settles 5 m (.ok v n) ∧ plain.Settles 5 m (.ok v n) := by
  intro p decl m compound plain n
  obtain ⟨v, hcompound⟩ : ∃ v, compound.Settles 5 m (.ok v n) :=
    settles_of_not_fails rfl (by decide +kernel)
  exact ⟨rfl, by decide +kernel, v, hcompound,
    (compound_assign_expands 5 rfl "x" _ rfl rfl rfl m _).mp hcompound⟩

-- ---------------------------------------------------------------------------
-- Elements
-- ---------------------------------------------------------------------------

namespace Run

variable {α β : Type} {m n : Machine}

theorem of_bind_ok {act : Run α} {next : α → Run β} {b : β} (h : (act >>= next) m = .ok b n) :
    ∃ a m₁, act m = .ok a m₁ ∧ next a m₁ = .ok b n := by
  cases hact : act m with
  | error e m₁ =>
    rw [bind_of_error hact] at h
    cases h
  | ok a m₁ =>
    rw [bind_of_ok hact] at h
    exact ⟨a, m₁, rfl, h⟩

theorem of_charge_ok {line : Nat} {x : Except Cause α} {a : α} (h : charge line x m = .ok a n) :
    x = .ok a ∧ n = m := by
  cases x with
  | error cause => cases h
  | ok b =>
    cases h
    exact ⟨rfl, rfl⟩

end Run

/-- What is left once the variable is looked up and both expressions are evaluated. -/
theorem execAssignIndex_of_seq {self : Doer} {target : String} {position value : Expr}
    {op : AssignOp} {line : Nat} {m m₁ m₂ : Machine} {kind : SeqKind} {id : SeqId}
    {ty : Option Ty} {index v : Value}
    (hbound : m.scopes.lookup? m.frame target = some ⟨.seq kind id, ty⟩)
    (hposition : self.eval position m = .ok index m₁) (hvalue : self.eval value m₁ = .ok v m₂) :
    self.execAssignIndex target position op value line m =
      (charge line (elementWrite m₂.heap id ty op index v) >>= fun w => do
        setHeap w.heap
        update id (·.setIfInBounds w.index w.value)) m₂ := by
  have hopen : self.execAssignIndex target position op value line m = _ := lookup?_bind
  rw [hopen, hbound]
  show (self.eval position >>= _) m = _
  rw [bind_of_ok hposition, bind_of_ok hvalue]
  rfl

/-- How an assignment to an element goes that succeeds: the variable is looked up, the
position and the right side are evaluated, and then one element is written. -/
theorem of_execAssignIndex_ok {self : Doer} {target : String} {position value : Expr}
    {op : AssignOp} {line : Nat} {m n : Machine}
    (hok : self.execAssignIndex target position op value line m = .ok () n) :
    ∃ kind id ty index v m₁ m₂ w,
      m.scopes.lookup? m.frame target = some ⟨.seq kind id, ty⟩ ∧
      self.eval position m = .ok index m₁ ∧ self.eval value m₁ = .ok v m₂ ∧
      elementWrite m₂.heap id ty op index v = .ok w ∧
      n = { m₂ with heap := w.heap.modify id (·.setIfInBounds w.index w.value) } := by
  have hopen : self.execAssignIndex target position op value line m = _ := lookup?_bind
  cases hbound : m.scopes.lookup? m.frame target with
  | none =>
    rw [hopen, hbound] at hok
    cases hok
  | some b =>
    have hrest := hok
    rw [hopen, hbound] at hrest
    obtain ⟨index, m₁, hposition, hrest⟩ := of_bind_ok hrest
    obtain ⟨v, m₂, hvalue, hrest⟩ := of_bind_ok hrest
    obtain ⟨value, ty⟩ := b
    cases value with
    | seq kind id =>
      rw [execAssignIndex_of_seq hbound hposition hvalue] at hok
      obtain ⟨w, m₃, hcharge, hdone⟩ := of_bind_ok hok
      obtain ⟨hwrite, rfl⟩ := of_charge_ok hcharge
      cases hdone
      exact ⟨kind, id, ty, index, v, m₁, m₃, w, rfl, hposition, hvalue, hwrite, rfl⟩
    | _ => cases hrest

/-- How an assignment to an element ends: with the element written, or with a fault and nothing
changed. -/
def Machine.writeElement (m : Machine) (line : Nat) (id : SeqId) :
    Except Cause ElementWrite → EStateM.Result Stop Machine Value
  | .ok w => .ok .unit { m with heap := w.heap.modify id (·.setIfInBounds w.index w.value) }
  | .error cause => .error (.fault ⟨line, cause⟩) m

/-- **An assignment to an element ends as the write does**, once the position and the right side
have been evaluated. -/
theorem settles_assignIndex {limit : Nat} {target : String} {position value : Expr}
    (op : AssignOp) (p : Place) {m m₁ m₂ : Machine} {kind : SeqKind} {id : SeqId}
    {ty : Option Ty} {index v : Value}
    (hbound : m.scopes.lookup? m.frame target = some ⟨.seq kind id, ty⟩)
    (hposition : (Task.eval none position).Settles limit m (.ok index m₁))
    (hvalue : (Task.eval none value).Settles limit m₁ (.ok v m₂)) :
    (Task.exec (.assignIndex target position op value p)).Settles limit m
      (m₂.writeElement p.line id (elementWrite m₂.heap id ty op index v)) := by
  obtain ⟨enough, hfirst⟩ := hposition
  obtain ⟨enough', hsecond⟩ := hvalue
  refine settles_of_succ (enough + enough') ?_
  intro k hle
  have hopen : (perform limit k).execAssignIndex target position op value p.line m = _ :=
    execAssignIndex_of_seq hbound (hfirst k (by omega)) (hsecond k (by omega))
  show ((perform limit k).execAssignIndex target position op value p.line >>= _) m = _
  cases hwrite : elementWrite m₂.heap id ty op index v with
  | error cause =>
    rw [hwrite] at hopen
    exact bind_of_error hopen
  | ok w =>
    rw [hwrite] at hopen
    exact bind_of_ok hopen

theorem indexIn_int_ok {length i : Nat} {n : Int64} (h : indexIn length (.int n) = .ok i) :
    i = n.toInt.toNat ∧ i < length := by
  rw [indexIn] at h
  split at h
  · cases h
    omega
  · cases h

/-- The element that is read in a sequence. -/
theorem elementAt_seq_ok {line : Nat} {kind : SeqKind} {id : SeqId} {i : Int64} {v : Value}
    {m n : Machine} (h : elementAt line (.seq kind id) (.int i) m = .ok v n) :
    (m.heap.read id)[i.toInt.toNat]? = some v ∧ n = m := by
  have hread : (charge line (indexIn (m.heap.read id).size (.int i)) >>= _) m = _ := h
  obtain ⟨k, m₁, hcharge, hok⟩ := of_bind_ok hread
  obtain ⟨hindex, rfl⟩ := of_charge_ok hcharge
  obtain ⟨rfl, hlt⟩ := indexIn_int_ok hindex
  cases hok
  refine ⟨?_, rfl⟩
  rw [Array.getD_eq_getD_getElem?, Array.getElem?_eq_getElem hlt, Option.getD_some]

/-- A sign other than `=` writes what it makes of the element as it is by then. -/
theorem elementWrite_combine {h : Heap} {id : SeqId} {ty : Option Ty} {op : AssignOp}
    {combine : BinaryOp} (hop : op.combine? = some combine) {index v : Value} {i : Nat}
    (hindex : indexIn (h.read id).size index = .ok i) :
    elementWrite h id ty op index v =
      Value.binary h combine ((h.read id).getD i .unit) v >>= elementWrite h id ty .set index := by
  unfold elementWrite
  simp only [hindex, bind, Except.bind, AssignOp.apply, hop]
  cases Value.binary h combine ((h.read id).getD i .unit) v <;> rfl

section

variable {limit : Nat} {op : AssignOp} {combine : BinaryOp} {m n : Machine} {xs : String}
  {kind : SeqKind} {id : SeqId} {ty : Option Ty} {i : Int64} {e : Expr} {v : Value}

/-- The right side `xs[i] ∘ e` reads the element and then evaluates `e`. -/
theorem eval_expanded_index {budget : Nat} (hop : op.combine? = some combine)
    (hbound : m.scopes.lookup? m.frame xs = some ⟨.seq kind id, ty⟩) {q q₁ q₂ q₃ : Place}
    (hok : (perform limit (budget + 3)).eval
      (.binary combine (.index (.ident xs q) (.literal (.int i) q₁) q₂) e q₃) m = .ok v n) :
    ∃ before w, (m.heap.read id)[i.toInt.toNat]? = some before ∧
      perform limit (budget + 2) (.eval none e) m = .ok w n ∧
      Value.binary n.heap combine before w = .ok v := by
  have hopen : (perform limit (budget + 2)).evalExpr none
      (.binary combine (.index (.ident xs q) (.literal (.int i) q₁) q₂) e q₃) m = .ok v n := hok
  rw [evalExpr_combine _ hop] at hopen
  obtain ⟨before, m₁, hleft, hrest⟩ := of_bind_ok hopen
  obtain ⟨w, m₂, hright, hrest⟩ := of_bind_ok hrest
  -- the left operand is an element of the sequence that is bound, and reading changes nothing
  have hread : (valueOf q.line xs (.undefinedVariable xs) >>= fun s =>
      elementAt q₂.line s (.int i)) m = .ok before m₁ := hleft
  rw [bind_of_ok (valueOf_of_some hbound)] at hread
  obtain ⟨hbefore, rfl⟩ := elementAt_seq_ok hread
  have hcombine : charge q₃.line (Value.binary m₂.heap combine before w) m₂ = .ok v n := hrest
  obtain ⟨hvalue, rfl⟩ := of_charge_ok hcombine
  exact ⟨before, w, hbefore, hright, hvalue⟩

end

/-- **A compound assignment to an element reads the element last.** Take a variable `xs`, an
index, one of the signs `+=`, `-=`, `*=` and `/=`, any expression `e` and any machine with no
return under way. If `xs[i] = xs[i] ∘ e;` succeeds, then `xs` holds a sequence that has an
element at the index both before and after `e` is evaluated. This statement has written what
the element from before makes with the value of `e`, and `xs[i] ∘= e;` writes what the element
from after makes. If these are the same, above all if the elements are, then `xs[i] ∘= e;`
succeeds as well and leaves the same machine, with all its variables, sequences, functions and
output. -/
theorem compound_index_reads_last (limit : Nat) {op : AssignOp} {combine : BinaryOp}
    (hop : op.combine? = some combine) (xs : String) (i : Int64) (e : Expr)
    (p p₁ q q₁ q₂ q₃ q₄ q₅ : Place) {m m' : Machine} (hm : m.pending = none) {v : Value}
    (hplain : (Task.exec (.assignIndex xs (.literal (.int i) q₁) .set
      (.binary combine (.index (.ident xs q₂) (.literal (.int i) q₃) q₄) e q₅) q)).Settles limit m
      (.ok v m')) :
    ∃ kind id ty w m₁ before after,
      m.scopes.lookup? m.frame xs = some ⟨.seq kind id, ty⟩ ∧
      (Task.eval none e).Settles limit m (.ok w m₁) ∧
      (m.heap.read id)[i.toInt.toNat]? = some before ∧
      (m₁.heap.read id)[i.toInt.toNat]? = some after ∧
      .ok v m' = m₁.writeElement q.line id
        (Value.binary m₁.heap combine before w >>= elementWrite m₁.heap id ty .set (.int i)) ∧
      (Task.exec (.assignIndex xs (.literal (.int i) p₁) op e p)).Settles limit m
        (m₁.writeElement p.line id
          (Value.binary m₁.heap combine after w >>= elementWrite m₁.heap id ty .set (.int i))) ∧
      (Value.binary m₁.heap combine after w = Value.binary m₁.heap combine before w →
        (Task.exec (.assignIndex xs (.literal (.int i) p₁) op e p)).Settles limit m
          (.ok v m')) := by
  obtain ⟨enough, hrun⟩ := hplain
  have hexec := hrun (enough + 5) (by omega)
  obtain ⟨_, n, hassign, hdone⟩ := of_bind_ok (show
    ((perform limit (enough + 4)).execAssignIndex xs (.literal (.int i) q₁) .set
      (.binary combine (.index (.ident xs q₂) (.literal (.int i) q₃) q₄) e q₅) q.line >>=
        fun _ => pure .unit) m = .ok v m' from hexec)
  cases hdone
  obtain ⟨kind, id, ty, index, b, m₀, m₁, write, hbound, hposition, hvalue, hwrite, rfl⟩ :=
    of_execAssignIndex_ok hassign
  obtain ⟨rfl, rfl⟩ : .int i = index ∧ m = m₀ := by
    cases hposition
    exact ⟨rfl, rfl⟩
  obtain ⟨before, w, hbefore, hright, hcombine⟩ := eval_expanded_index hop hbound hvalue
  have hsettles : (Task.eval none e).Settles limit m (.ok w m₁) := settles_of_ok hm hright
  -- the index is checked once more where the element is written
  obtain ⟨k, hindex, -⟩ := bind_eq_ok hwrite
  obtain ⟨rfl, hlt⟩ := indexIn_int_ok hindex
  have hafter : (m₁.heap.read id)[i.toInt.toNat]? =
      some ((m₁.heap.read id).getD i.toInt.toNat .unit) := by
    rw [Array.getD_eq_getD_getElem?, Array.getElem?_eq_getElem hlt, Option.getD_some]
  have hwritten : ∀ line, m₁.writeElement line id
      (Value.binary m₁.heap combine before w >>= elementWrite m₁.heap id ty .set (.int i)) =
        .ok .unit { m₁ with
          heap := write.heap.modify id (·.setIfInBounds write.index write.value) } := by
    intro line
    rw [hcombine]
    show m₁.writeElement line id (elementWrite m₁.heap id ty .set (.int i) b) = _
    rw [hwrite]
    rfl
  have hposition : (Task.eval none (.literal (.int i) p₁)).Settles limit m (.ok (.int i) m) :=
    settles_literal (.int i) p₁ m
  have hcompound := settles_assignIndex op p hbound hposition hsettles
  rw [elementWrite_combine hop hindex] at hcompound
  refine ⟨kind, id, ty, w, m₁, before, _, hbound, hsettles, hbefore, hafter,
    (hwritten q.line).symm, hcompound, ?_⟩
  intro hsame
  rw [hsame, hwritten] at hcompound
  exact hcompound

/-- `xs` holds `[1, 2]`, and a call of `f` sets the element at `j` to 10 and gives 5. -/
private def writer (j : Int64) : Machine :=
  let p : Place := ⟨1, 1⟩
  let decl : FuncDecl :=
    ⟨"f", [], [.assignIndex "xs" (.literal (.int j) p) .set (.literal (.int 10) p) p,
      .ret (some (.literal (.int 5) p)) p]⟩
  { heap := ⟨#[#[.int 1, .int 2]]⟩
    scopes := ⟨#[⟨[("xs", ⟨.seq .array 0, none⟩), ("f", ⟨.func ⟨0, .declared decl, 0⟩, none⟩)],
      none⟩]⟩
    frame := 0, depth := 0, pending := none, closures := 1, output := ⟨#[], #[]⟩ }

/-- If `f` sets the other element, `xs[0] = xs[0] + f();` leaves `[6, 10]`, and so does
`xs[0] += f();`. -/
theorem compound_index_reads_last_other :
    let p : Place := ⟨1, 1⟩
    let zero : Expr := .literal (.int 0) p
    let f : Expr := .call "f" [] p
    let m := writer 1
    let compound := Task.exec (.assignIndex "xs" zero .add f p)
    let plain := Task.exec
      (.assignIndex "xs" zero .set (.binary .add (.index (.ident "xs" p) zero p) f p) p)
    let n := (perform 5 8 plain).after m
    AssignOp.add.combine? = some .add ∧ m.pending = none ∧
      n.heap.text (.seq .array 0) = "[6, 10]" ∧
      ((perform 5 8 compound).after m).heap.text (.seq .array 0) = "[6, 10]" ∧
      ∃ v, plain.Settles 5 m (.ok v n) ∧ ∃ kind id ty w m₁ before after,
        m.scopes.lookup? m.frame "xs" = some ⟨.seq kind id, ty⟩ ∧
        (Task.eval none f).Settles 5 m (.ok w m₁) ∧
        (m.heap.read id)[0]? = some before ∧ (m₁.heap.read id)[0]? = some after ∧
        .ok v n = m₁.writeElement 1 id
          (Value.binary m₁.heap .add before w >>= elementWrite m₁.heap id ty .set (.int 0)) ∧
        compound.Settles 5 m (m₁.writeElement 1 id
          (Value.binary m₁.heap .add after w >>= elementWrite m₁.heap id ty .set (.int 0))) ∧
        (Value.binary m₁.heap .add after w = Value.binary m₁.heap .add before w →
          compound.Settles 5 m (.ok v n)) := by
  intro p zero f m compound plain n
  obtain ⟨v, hplain⟩ : ∃ v, plain.Settles 5 m (.ok v n) :=
    settles_of_not_fails rfl (by decide +kernel)
  exact ⟨rfl, rfl, by decide +kernel, by decide +kernel, v, hplain,
    compound_index_reads_last 5 rfl "xs" 0 f p p p p p p p p rfl hplain⟩

/-- If `f` sets the element itself, `xs[0] = xs[0] + f();` leaves `[6, 2]`, with the element
as it was before the call, but `xs[0] += f();` leaves `[15, 2]`. -/
theorem compound_index_differs :
    let p : Place := ⟨1, 1⟩
    let zero : Expr := .literal (.int 0) p
    let f : Expr := .call "f" [] p
    let m := writer 0
    let compound := Task.exec (.assignIndex "xs" zero .add f p)
    let plain := Task.exec
      (.assignIndex "xs" zero .set (.binary .add (.index (.ident "xs" p) zero p) f p) p)
    ∃ v v' n n', plain.Settles 5 m (.ok v n) ∧ compound.Settles 5 m (.ok v' n') ∧
      n.heap.text (.seq .array 0) = "[6, 2]" ∧ n'.heap.text (.seq .array 0) = "[15, 2]" := by
  intro p zero f m compound plain
  obtain ⟨v, hplain⟩ : ∃ v, plain.Settles 5 m (.ok v ((perform 5 8 plain).after m)) :=
    settles_of_not_fails rfl (by decide +kernel)
  obtain ⟨v', hcompound⟩ : ∃ v, compound.Settles 5 m (.ok v ((perform 5 8 compound).after m)) :=
    settles_of_not_fails rfl (by decide +kernel)
  exact ⟨v, v', _, _, hplain, hcompound, by decide +kernel, by decide +kernel⟩

end SeqScript
