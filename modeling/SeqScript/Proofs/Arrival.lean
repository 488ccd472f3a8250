import SeqScript.Proofs.Assignment

/-!
# Calls on their way through the parameters

A call of a declared function evaluates its arguments, makes a frame, and binds one
parameter after another, those without an argument to their defaults. `Arrives` says how
far a call has come, and `Arrives.call_eq` what it does from there: what is left of it is
`Doer.callFrom`.
-/

namespace SeqScript

open Run

/-- The machine in which a function begins to run that was created in the frame `f`. -/
def Machine.inside (m : Machine) (f : FrameId) : Machine :=
  { m with scopes := (m.scopes.child f).2, frame := m.scopes.size, depth := m.depth + 1,
           pending := none }

/-- A call is entered with what stands outside it. -/
theorem Discipline.Standing.inside {D : Discipline} {m : Machine} (hm : D.Standing m)
    (f : FrameId) : D.Standing (m.inside f) :=
  ⟨D.holds_enter hm.holds, by simp [Machine.inside]⟩

/-- What is left of a call from some parameters on: they are bound to the arguments left for
them, the body runs, and the registers are put back to what they were in `m`. -/
def Doer.callFrom (self : Doer) (decl : FuncDecl) (line : Nat) (ps : List Param) (vs : List Value)
    (m : Machine) : Run Value :=
  restoring (fun n => { n with frame := m.frame, depth := n.depth - 1, pending := m.pending }) do
    self.bindParams decl.name line ps vs
    let last ← self.execAll decl.body
    takePending last

/-- A call `f(args)` has come to the parameters after `before`. The arguments have been
evaluated to `vs`, which leaves `m₁`, and the parameters `before` have been bound, which leaves
`m₂`. -/
structure Arrives (limit budget : Nat) (f : String) (args : List Expr) (line : Nat) (c : Closure)
    (decl : FuncDecl) (before : List Param) (vs : List Value) (m m₁ m₂ : Machine) : Prop where
  function : ∃ ty, m.scopes.lookup? m.frame f = some ⟨.func c, ty⟩
  code : c.code = .declared decl
  count : args.length ≤ decl.params.length
  evaluated : (perform limit (budget + 1)).evalArguments decl.params args m = .ok vs m₁
  depth : m₁.depth < limit
  bound : (perform limit budget).bindParams decl.name line before (vs.take before.length)
    (m₁.inside c.frame) = .ok () m₂

-- ---------------------------------------------------------------------------
-- One after another
-- ---------------------------------------------------------------------------

theorem evalArguments_length {self : Doer} {params : List Param} {es : List Expr} {m n : Machine}
    {vs : List Value} (h : self.evalArguments params es m = .ok vs n) :
    vs.length = es.length := by
  induction es generalizing params m vs with
  | nil =>
    cases h
    rfl
  | cons e es ih =>
    obtain ⟨v, m₁, -, h⟩ := of_bind_ok h
    obtain ⟨ws, m₂, hrest, h⟩ := of_bind_ok h
    cases h
    rw [List.length_cons, List.length_cons, ih hrest]

/-- Arguments are evaluated one after another. -/
theorem of_evalArguments_append {self : Doer} {params : List Param} {es es' : List Expr}
    {m n : Machine} {vs : List Value}
    (h : self.evalArguments params (es ++ es') m = .ok vs n) :
    ∃ vs₀ m₀ ws, self.evalArguments params es m = .ok vs₀ m₀ ∧
      self.evalArguments (params.drop es.length) es' m₀ = .ok ws n ∧ vs = vs₀ ++ ws := by
  induction es generalizing params m vs with
  | nil => exact ⟨[], m, vs, rfl, h, rfl⟩
  | cons e es ih =>
    obtain ⟨v, m₁, he, h⟩ := of_bind_ok h
    obtain ⟨us, m₂, hes, h⟩ := of_bind_ok h
    cases h
    obtain ⟨vs₀, m₀, ws, hfirst, hrest, rfl⟩ := ih hes
    refine ⟨v :: vs₀, m₀, ws, ?_, ?_, rfl⟩
    · rw [Doer.evalArguments, bind_of_ok he, bind_of_ok hfirst]
      rfl
    · rw [List.drop_tail] at hrest
      exact hrest

/-- Parameters are bound one after another. -/
theorem bindParams_append {self : Doer} {function : String} {line : Nat} {before ps : List Param}
    {vs rest : List Value} (hle : vs.length ≤ before.length)
    (hrest : rest ≠ [] → vs.length = before.length) :
    self.bindParams function line (before ++ ps) (vs ++ rest) = (do
      self.bindParams function line before vs
      self.bindParams function line ps rest) := by
  induction before generalizing vs with
  | nil =>
    obtain rfl : vs = [] := List.eq_nil_of_length_eq_zero (Nat.le_zero.mp hle)
    rfl
  | cons p before ih =>
    cases vs with
    | cons v vs =>
      have hle' : vs.length ≤ before.length := by simpa using hle
      have hrest' : rest ≠ [] → vs.length = before.length := by simpa using hrest
      rw [List.cons_append, List.cons_append, Doer.bindParams, Doer.bindParams, ih hle' hrest',
        bind_assoc]
    | nil =>
      obtain rfl : rest = [] := by
        by_contra hne
        simpa using hrest hne
      rw [List.cons_append, List.nil_append, Doer.bindParams, Doer.bindParams]
      cases p.default with
      | none => rfl
      | some e =>
        have hnil : self.bindParams function line (before ++ ps) ([] ++ []) = _ :=
          ih (Nat.zero_le _) (by simp)
        rw [List.nil_append] at hnil
        simp only [hnil, bind_assoc]

/-- A call of a declared function, once its frame is made. -/
theorem perform_call_declared {limit budget : Nat} {id : Nat} {decl : FuncDecl} {f : FrameId}
    {vs : List Value} (line : Nat) {m : Machine} (hdepth : m.depth < limit)
    (hlen : vs.length ≤ decl.params.length) :
    perform limit (budget + 1) (.call (.func ⟨id, .declared decl, f⟩) vs line) m =
      (perform limit budget).callFrom decl line decl.params vs m (m.inside f) := by
  have hcode : (perform limit budget).runCode (.declared decl) vs line = (do
      (perform limit budget).bindParams decl.name line decl.params vs
      let last ← (perform limit budget).execAll decl.body
      takePending last) := by
    rw [Doer.runCode, if_neg (Nat.not_lt.mpr hlen)]
  show (if limit ≤ m.depth then fail line (.callDepth limit) else do
    let g ← childOf f
    inCall g ((perform limit budget).runCode (.declared decl) vs line)) m = _
  rw [if_neg (Nat.not_le.mpr hdepth), hcode]
  rfl

theorem callFrom_append {self : Doer} {decl : FuncDecl} {line : Nat} {before ps : List Param}
    {vs rest : List Value} (hle : vs.length ≤ before.length)
    (hrest : rest ≠ [] → vs.length = before.length) {m n n' : Machine}
    (hbound : self.bindParams decl.name line before vs n = .ok () n') :
    self.callFrom decl line (before ++ ps) (vs ++ rest) m n =
      self.callFrom decl line ps rest m n' := by
  unfold Doer.callFrom restoring
  rw [bindParams_append hle hrest, bind_assoc, bind_of_ok hbound]

namespace Arrives

variable {limit budget : Nat} {f : String} {args : List Expr} {q : Place} {c : Closure}
  {decl : FuncDecl} {before ps : List Param} {vs : List Value} {m m₁ m₂ : Machine}

/-- It goes on from there. -/
theorem call_eq (ha : Arrives limit budget f args q.line c decl before vs m m₁ m₂)
    (hparams : decl.params = before ++ ps) (hint : Option Ty) :
    perform limit (budget + 2) (.eval hint (.call f args q)) m =
      (perform limit budget).callFrom decl q.line ps (vs.drop before.length) m₁ m₂ := by
  obtain ⟨⟨ty, hf⟩, hcode, hcount, hargs, hdepth, hbound⟩ := ha
  obtain ⟨id, code, frame⟩ := c
  obtain rfl : code = .declared decl := hcode
  have hlen : vs.length = args.length := evalArguments_length hargs
  show (valueOf q.line f (.undefinedFunction f) >>= fun g => do
    let vs ← (perform limit (budget + 1)).evalArguments g.params args
    perform limit (budget + 1) (.call g vs q.line)) m = _
  rw [bind_of_ok (valueOf_of_some hf)]
  show ((perform limit (budget + 1)).evalArguments decl.params args >>= fun vs =>
    perform limit (budget + 1) (.call (.func ⟨id, .declared decl, frame⟩) vs q.line)) m = _
  rw [bind_of_ok hargs, perform_call_declared q.line hdepth (by omega), hparams]
  have hrest : vs.drop before.length ≠ [] → (vs.take before.length).length = before.length := by
    intro hne
    have hlt : before.length < vs.length := by simpa using hne
    rw [List.length_take]
    omega
  have hgoes : (perform limit budget).callFrom decl q.line (before ++ ps)
      (vs.take before.length ++ vs.drop before.length) m₁ (m₁.inside frame) = _ :=
    callFrom_append (List.length_take_le ..) hrest hbound
  rw [List.take_append_drop] at hgoes
  exact hgoes

end Arrives

end SeqScript
