import SeqScript.Proofs.Arrival
import SeqScript.Proofs.Data
import SeqScript.Proofs.Termination

/-!
# Literals under declared types

An array literal does not say whether it is an array or a list. The type it will be stored
under decides, at every depth, and it is handed to the evaluation as a hint. That is done
in a `let`, in an assignment to a variable, for an argument and for a default, and so all
four store the same of a literal. It is not done in an assignment to an element, whose right
side is evaluated without a hint. There the literal is an array of arrays, which comes to
the same if the type asks for no list where an array literal stands (`Ty.meetsList`), and is
refused if it does.

* `Expr.datum` — what a literal makes under a hint;
* `eval_constant` — evaluating it makes that, of new stores, and changes nothing else;
* `literals_stored_alike` — the main result.
-/

namespace SeqScript

open Run

-- ---------------------------------------------------------------------------
-- Literals
-- ---------------------------------------------------------------------------

namespace Expr

/-- A literal of a number, a truth value or a text, or an array literal of such, at any
depth. -/
inductive Constant : Expr → Prop
  | literal (l : Literal) (p : Place) : Constant (.literal l p)
  | items {es : List Expr} (h : ∀ e ∈ es, Constant e) (p : Place) : Constant (.items es p)

mutual

/-- What a literal makes under a hint. -/
def datum : Option Ty → Expr → Datum
  | _, literal l _ => .plain (.ofLiteral l)
  | hint, items es _ => .seq (itemsHint hint).1 (data (itemsHint hint).2 es)
  | _, _ => .plain .unit

def data : Option Ty → List Expr → List Datum
  | _, [] => []
  | hint, e :: es => e.datum hint :: data hint es

end

theorem data_eq_map (hint : Option Ty) (es : List Expr) : data hint es = es.map (datum hint) := by
  induction es with
  | nil => rfl
  | cons e es ih => rw [data, ih, List.map_cons]

end Expr

/-- Somewhere below arrays only, the type asks for a list where an array literal stands. -/
def Ty.meetsList : Ty → Expr → Bool
  | .list _, .items _ _ => true
  | .array t, .items es _ => es.any t.meetsList
  | _, _ => false

/-- Where no list is asked for, the hint makes no difference. -/
theorem datum_of_not_meetsList {t : Ty} {e : Expr} (h : t.meetsList e = false) :
    e.datum (some t) = e.datum none := by
  induction t generalizing e with
  | array t ih =>
    cases e with
    | items es p =>
      rw [Ty.meetsList, List.any_eq_false] at h
      rw [Expr.datum, Expr.datum, Expr.data_eq_map, Expr.data_eq_map]
      congr 1
      exact List.map_congr_left fun e he => ih (by simpa using h e he)
    | _ => rfl
  | list t ih =>
    cases e with
    | items es p => cases h
    | _ => rfl
  | _ => cases e <;> rfl

private theorem mapM_eq_none {α β : Type} {f : α → Option β} {a : α} {xs : List α} (ha : a ∈ xs)
    (hf : f a = none) : xs.mapM f = none := by
  induction xs with
  | nil => cases ha
  | cons x xs ih =>
    rw [List.mapM_cons]
    rcases List.mem_cons.mp ha with rfl | ha
    · rw [hf]
      rfl
    · rw [ih ha]
      cases f x <;> rfl

/-- Where a list is asked for, an array literal without a hint does not do. -/
theorem stored?_of_meetsList {t : Ty} {e : Expr} (h : t.meetsList e = true) :
    t.stored? (e.datum none) = none := by
  induction t generalizing e with
  | array t ih =>
    cases e with
    | items es p =>
      rw [Ty.meetsList, List.any_eq_true] at h
      obtain ⟨e, he, hmeets⟩ := h
      rw [Expr.datum, Expr.data_eq_map]
      show (List.mapM t.stored? (es.map (Expr.datum none))).map _ = none
      rw [mapM_eq_none (List.mem_map_of_mem he) (ih hmeets)]
      rfl
    | _ => cases h
  | list t ih =>
    cases e with
    | items es p => rfl
    | _ => cases h
  | _ => cases e <;> cases h

-- ---------------------------------------------------------------------------
-- Evaluating literals
-- ---------------------------------------------------------------------------

/-- Evaluated under a hint, an expression makes a value of stores that are new, and otherwise
leaves the machine as it was. -/
structure Expr.Makes (own : Nat → Prop) (hint : Option Ty) (e : Expr) (m : Machine) (v : Value)
    (h : Heap) : Prop where
  grows : m.heap.Grows h
  shown : h.Shows own [v] [e.datum hint]
  run : ∀ limit budget, e.height < budget →
    perform limit budget (.eval hint e) m = .ok v { m with heap := h }

section

variable {own : Nat → Prop} {hint : Option Ty} {m : Machine}

theorem Expr.Makes.settles {e : Expr} {v : Value} {h : Heap} (hv : e.Makes own hint m v h)
    (limit : Nat) : (Task.eval hint e).Settles limit m (.ok v { m with heap := h }) :=
  ⟨e.height + 1, hv.run limit⟩

theorem evalItems_constant {es : List Expr}
    (hes : ∀ e ∈ es, ∀ m : Machine, m.heap.Owns own →
      ∃ v h, e.Makes own hint m v h)
    (howns : m.heap.Owns own) :
    ∃ vs h, m.heap.Grows h ∧ h.Shows own vs (Expr.data hint es) ∧
      ∀ limit budget, (∀ e ∈ es, e.height < budget) →
        (perform limit budget).evalItems hint es m = .ok vs { m with heap := h } := by
  induction es generalizing m with
  | nil => exact ⟨[], m.heap, .refl _, .nil howns, fun _ _ _ => rfl⟩
  | cons e es ih =>
    obtain ⟨he, hes⟩ := List.forall_mem_cons.mp hes
    obtain ⟨v, h, hv⟩ := he m howns
    obtain ⟨vs, h', hgrows, hshown, hrun⟩ :=
      ih hes (m := { m with heap := h }) hv.shown.owns
    refine ⟨v :: vs, h', hv.grows.trans hgrows, hv.shown.cons hgrows.keeps hshown, ?_⟩
    intro limit budget hbudget
    obtain ⟨hlt, hlts⟩ := List.forall_mem_cons.mp hbudget
    rw [Doer.evalItems, bind_of_ok (hv.run limit budget hlt), bind_of_ok (hrun limit budget hlts)]
    rfl

/-- **A literal always evaluates**, to what it makes under the hint. -/
theorem eval_constant {e : Expr} (he : e.Constant) (hint : Option Ty)
    (howns : m.heap.Owns own) :
    ∃ v h, e.Makes own hint m v h := by
  induction he generalizing hint m with
  | literal l p =>
    refine ⟨.ofLiteral l, m.heap, .refl _, .plain howns ?_, ?_⟩
    · exact Value.store?_of_isData (Value.isData_ofLiteral l)
    · intro limit budget hbudget
      obtain ⟨k, rfl⟩ : ∃ k, budget = k + 1 := ⟨budget - 1, by omega⟩
      rfl
  | @items es _ p ih =>
    obtain ⟨vs, h, hgrows, hshown, hrun⟩ := evalItems_constant
      (fun e he m howns => ih e he (itemsHint hint).2 howns) howns
    refine ⟨(h.newSeq (itemsHint hint).1 vs).1, (h.newSeq (itemsHint hint).1 vs).2, ?_, ?_, ?_⟩
    · exact hgrows.trans (.newSeq ..)
    · exact hshown.newSeq _
    · intro limit budget hbudget
      obtain ⟨k, rfl⟩ : ∃ k, budget = k + 1 := ⟨budget - 1, by omega⟩
      have hlts : ∀ e ∈ es, e.height < k := by
        intro e he
        have hlt : e.height < (Expr.items es p).height := Expr.height_operand he
        omega
      show ((perform limit k).evalItems (itemsHint hint).2 es >>= newSeq (itemsHint hint).1) m = _
      rw [bind_of_ok (hrun limit k hlts)]
      rfl

end

-- ---------------------------------------------------------------------------
-- Variables
-- ---------------------------------------------------------------------------

/-- A value that can be stored is taken up with its heap. -/
theorem Run.assignable_of_ok {line : Nat} {t : Ty} {v w : Value} {h : Heap} {m : Machine}
    (hok : SeqScript.assignable m.heap t v = .ok (w, h)) :
    assignable line t v m = .ok w { m with heap := h } := by
  show (adopt line (SeqScript.assignable m.heap t v)) m = _
  rw [hok]
  rfl

section

variable {limit : Nat} {t : Ty} {e : Expr} {d : Datum}

/-- What is made under a hint and then fitted to a type. -/
theorem store_constant (he : e.Constant) {hint : Option Ty} (hd : t.stored? (e.datum hint) = some d)
    (m : Machine) :
    ∃ v h w h', e.Makes (m.heap.size ≤ ·) hint m v h ∧ h.Grows h' ∧
      h'.Shows (m.heap.size ≤ ·) [w] [d] ∧ assignable h t v = .ok (w, h') := by
  obtain ⟨v, h, hv⟩ := eval_constant he hint m.heap.owns_size
  obtain ⟨w, h', hgrows, hw, hok⟩ := assignable_shown hv.shown hd
  exact ⟨v, h, w, h', hv, hgrows, hw, hok⟩

theorem settles_constant (he : e.Constant) (hint : Option Ty) (m : Machine) :
    ∃ v h, m.heap.Grows h ∧
      (Task.eval hint e).Settles limit m (.ok v { m with heap := h }) := by
  obtain ⟨v, h, hv⟩ := eval_constant he hint m.heap.owns_size
  exact ⟨v, h, hv.grows, hv.settles limit⟩

theorem settles_declare (he : e.Constant) (hd : t.stored? (e.datum (some t)) = some d) (x : String)
    (p : Place) (m : Machine) :
    ∃ h w, m.heap.Grows h ∧ h.datum w = d ∧
      (Task.exec (.declare x (some t) (some e) p)).Settles limit m
        (.ok .unit { m with heap := h, scopes := m.scopes.define m.frame x w (some t) }) := by
  obtain ⟨v, h, w, h', hv, hgrows, hw, hok⟩ := store_constant he hd m
  refine ⟨h', w, hv.grows.trans hgrows, hw.datum_eq, settles_of_succ (e.height + 1) ?_⟩
  intro k hle
  have hdeclare : (perform limit k).execDeclare x (some t) (some e) p.line m =
      .ok () { m with heap := h', scopes := m.scopes.define m.frame x w (some t) } := by
    show (perform limit k (.eval (some t) e) >>= fun v =>
      Run.assignable p.line t v >>= fun w => define x w (some t)) m = _
    rw [bind_of_ok (hv.run limit k (by omega)), bind_of_ok (Run.assignable_of_ok hok)]
    rfl
  show ((perform limit k).execDeclare x (some t) (some e) p.line >>= _) m = _
  rw [bind_of_ok hdeclare]
  rfl

theorem settles_assign (he : e.Constant) (hd : t.stored? (e.datum (some t)) = some d) {x : String}
    (p : Place) {m : Machine} (hx : m.scopes.declared? m.frame x = some t) :
    ∃ h w, m.heap.Grows h ∧ h.datum w = d ∧
      (Task.exec (.assign x .set e p)).Settles limit m
        (.ok .unit { m with heap := h, scopes := (m.scopes.assign m.frame x w).2 }) := by
  obtain ⟨v, h, w, h', hv, hgrows, hw, hok⟩ := store_constant he hd m
  refine ⟨h', w, hv.grows.trans hgrows, hw.datum_eq, settles_of_succ (e.height + 1) ?_⟩
  intro k hle
  have hassign : (perform limit k).execAssign x .set e p.line m =
      .ok () { m with heap := h', scopes := (m.scopes.assign m.frame x w).2 } := by
    show (perform limit k (.eval (m.scopes.declared? m.frame x) e) >>= fun v =>
      assignable? p.line (m.scopes.declared? m.frame x) v >>= assign x) m = _
    rw [hx, bind_of_ok (hv.run limit k (by omega))]
    show (Run.assignable p.line t v >>= assign x) _ = _
    rw [bind_of_ok (Run.assignable_of_ok hok)]
    rfl
  show ((perform limit k).execAssign x .set e p.line >>= _) m = _
  rw [bind_of_ok hassign]
  rfl

/-- A declaration that succeeds had something to store. -/
theorem stored?_of_declare (he : e.Constant) {x : String} {p : Place} {m n : Machine} {v : Value}
    (hlet : (Task.exec (.declare x (some t) (some e) p)).Settles limit m (.ok v n)) :
    ∃ d, t.stored? (e.datum (some t)) = some d := by
  rw [← Option.isSome_iff_exists, ← Option.ne_none_iff_isSome]
  intro hd
  obtain ⟨u, h, hu⟩ := eval_constant he (some t) m.heap.owns_size
  obtain ⟨enough, hrun⟩ := hlet
  have hexec := hrun (enough + e.height + 2) (by omega)
  obtain ⟨_, _, hdeclare, -⟩ := of_bind_ok (show
    ((perform limit (enough + e.height + 1)).execDeclare x (some t) (some e) p.line >>=
      fun _ => pure .unit) m = .ok v n from hexec)
  obtain ⟨u', m₁, heval, hstore⟩ := of_bind_ok hdeclare
  cases (hu.run limit (enough + e.height + 1) (by omega)).symm.trans heval
  obtain ⟨w, m₂, hassignable, -⟩ := of_bind_ok hstore
  have hadopt : adopt p.line (SeqScript.assignable h t u) { m with heap := h } = .ok w m₂ :=
    hassignable
  rw [assignable_refused hu.shown hd] at hadopt
  cases hadopt

section

variable {xs : String} {position : Expr} {p : Place} {i : Int64} {kind : SeqKind} {id : SeqId}
  {m m₁ : Machine}

theorem indexIn_of_range {length : Nat} (hi : 0 ≤ i.toInt ∧ i.toInt < length) :
    indexIn length (.int i) = .ok i.toInt.toNat := by
  rw [indexIn, if_pos hi]

/-- The right side of an assignment to an element is evaluated without a hint. -/
theorem settles_element (he : e.Constant) (hd : t.stored? (e.datum none) = some d)
    (hxs : m.scopes.lookup? m.frame xs = some ⟨.seq kind id, some (.array t)⟩)
    (hposition : (Task.eval none position).Settles limit m (.ok (.int i) m₁))
    (hi : 0 ≤ i.toInt ∧ i.toInt < (m₁.heap.read id).size) :
    ∃ h w, m₁.heap.Grows h ∧ (h.modify id (·.setIfInBounds i.toInt.toNat w)).datum w = d ∧
      (Task.exec (.assignIndex xs position .set e p)).Settles limit m
        (.ok .unit { m₁ with heap := h.modify id (·.setIfInBounds i.toInt.toNat w) }) := by
  obtain ⟨v, h, w, h', hv, hgrows, hw, hok⟩ := store_constant he hd m₁
  -- the literal is made of new stores, so the one that is written is none of them
  have hid : id < m₁.heap.size := Heap.lt_size_of_read (by omega)
  have hother : ¬ m₁.heap.size ≤ id := Nat.not_le.mpr hid
  have hkeeps := Heap.keeps_modify h' hother (·.setIfInBounds i.toInt.toNat w)
  have hamong := hw.among w (List.mem_singleton_self w)
  have hfree := Heap.mentions_eq_false_of_among hw.owns hamong hother
  have hwrite : elementWrite h id (some (.array t)) .set (.int i) v =
      .ok ⟨i.toInt.toNat, w, h'⟩ := by
    have hcheck := checkInsertion_eq_ok_iff.mpr hfree
    unfold elementWrite
    simp only [hv.grows.read id hid, indexIn_of_range hi, assignableElement, hok, hcheck, bind,
      Except.bind, AssignOp.apply, AssignOp.combine?]
    rfl
  refine ⟨h', w, hv.grows.trans hgrows, ?_, ?_⟩
  · rw [Heap.datum_eq_of_keeps hw.owns hkeeps hamong, hw.datum_eq]
  · have hends := settles_assignIndex .set p hxs hposition (hv.settles limit)
    rw [hwrite] at hends
    exact hends

/-- An array literal where a list is asked for is refused as an element. -/
theorem settles_element_refused (he : e.Constant) (hmeets : t.meetsList e = true)
    (hxs : m.scopes.lookup? m.frame xs = some ⟨.seq kind id, some (.array t)⟩)
    (hposition : (Task.eval none position).Settles limit m (.ok (.int i) m₁))
    (hi : 0 ≤ i.toInt ∧ i.toInt < (m₁.heap.read id).size) :
    ∃ h, m₁.heap.Grows h ∧
      (Task.exec (.assignIndex xs position .set e p)).Settles limit m
        (.error (.fault ⟨p.line, .mismatch t .array (e.datum none).text⟩)
          { m₁ with heap := h }) := by
  obtain ⟨v, h, hv⟩ := eval_constant he none m₁.heap.owns_size
  have hid : id < m₁.heap.size := Heap.lt_size_of_read (by omega)
  have hkind : v.kind = .array := by
    cases he with
    | literal l q => cases t <;> cases hmeets
    | items _ q =>
      rcases hv.shown.plain_or_seq with ⟨-, hplain⟩ | ⟨_, _, _, rfl, hseq, -⟩
      · cases hplain
      · cases hseq
        rfl
  have hrefused : elementWrite h id (some (.array t)) .set (.int i) v =
      .error (.mismatch t .array (e.datum none).text) := by
    have herror := assignable_refused hv.shown (stored?_of_meetsList hmeets)
    unfold elementWrite
    simp only [hv.grows.read id hid, indexIn_of_range hi, assignableElement, herror, hkind, bind,
      Except.bind, AssignOp.apply, AssignOp.combine?]
  have hends := settles_assignIndex .set p hxs hposition (hv.settles limit)
  rw [hrefused] at hends
  exact ⟨h, hv.grows, hends⟩

/-- A matrix has no elements to write. -/
theorem settles_element_matrix (he : e.Constant) {j : Value} {a : DenseMatrix Binary64}
    {ty : Option Ty} (hxs : m.scopes.lookup? m.frame xs = some ⟨.matrix a, ty⟩)
    (hposition : (Task.eval none position).Settles limit m (.ok j m₁)) :
    ∃ h, m₁.heap.Grows h ∧ (Task.exec (.assignIndex xs position .set e p)).Settles limit m
      (.error (.fault ⟨p.line, .noElements .matrix⟩) { m₁ with heap := h }) := by
  obtain ⟨v, h, hv⟩ := eval_constant he none m₁.heap.owns_size
  obtain ⟨enough, hrun⟩ := hposition
  refine ⟨h, hv.grows, settles_of_succ (enough + e.height + 1) ?_⟩
  intro k hle
  have hfirst : (perform limit k).eval position m = .ok j m₁ := hrun k (by omega)
  have hsecond : (perform limit k).eval e m₁ = .ok v { m₁ with heap := h } :=
    hv.run limit k (by omega)
  have hopen : (perform limit k).execAssignIndex xs position .set e p.line m = _ := lookup?_bind
  have hfails : (perform limit k).execAssignIndex xs position .set e p.line m =
      .error (.fault ⟨p.line, .noElements .matrix⟩) { m₁ with heap := h } := by
    rw [hopen, hxs]
    show ((perform limit k).eval position >>= _) m = _
    rw [bind_of_ok hfirst, bind_of_ok hsecond]
    rfl
  show ((perform limit k).execAssignIndex xs position .set e p.line >>= _) m = _
  rw [bind_of_error hfails]

end

end

-- ---------------------------------------------------------------------------
-- Parameters
-- ---------------------------------------------------------------------------

theorem bindParam_shown {own : Nat → Prop} {p : Param} {v : Value} {d d' : Datum} (line : Nat)
    {n : Machine} (hs : n.heap.Shows own [v] [d]) (hd : p.ty.stored? d = some d') :
    ∃ h w, n.heap.Grows h ∧ h.datum w = d' ∧ Doer.bindParam p v line n =
      .ok () { n with heap := h, scopes := n.scopes.define n.frame p.name w (some p.ty) } := by
  obtain ⟨w, h, hgrows, hw, hok⟩ := assignable_shown hs hd
  refine ⟨h, w, hgrows, hw.datum_eq, ?_⟩
  rw [Doer.bindParam, bind_of_ok (Run.assignable_of_ok hok)]
  rfl

section

variable {limit budget : Nat} {e : Expr} {d : Datum} {f : String} {args args' : List Expr}
  {q : Place} {c : Closure} {decl : FuncDecl} {before after : List Param} {p : Param}
  {vs : List Value} {m m₁ m₂ : Machine}

/-- A default is evaluated with the type of its parameter as the hint. -/
theorem call_default (he : e.Constant) (hd : p.ty.stored? (e.datum (some p.ty)) = some d)
    (hdefault : p.default = some e) (hbudget : e.height < budget)
    (ha : Arrives limit budget f args q.line c decl before vs m m₁ m₂)
    (hparams : decl.params = before ++ p :: after) (hargs : args.length ≤ before.length)
    (hint : Option Ty) :
    ∃ h w, m₂.heap.Grows h ∧ h.datum w = d ∧
      perform limit (budget + 2) (.eval hint (.call f args q)) m =
        (perform limit budget).callFrom decl q.line after [] m₁
          { m₂ with heap := h, scopes := m₂.scopes.define m₂.frame p.name w (some p.ty) } := by
  obtain ⟨v, h, hv⟩ := eval_constant he (some p.ty) m₂.heap.owns_size
  obtain ⟨h', w, hgrows, hw, hbind⟩ :=
    bindParam_shown q.line (n := { m₂ with heap := h }) hv.shown hd
  refine ⟨h', w, hv.grows.trans hgrows, hw, ?_⟩
  have hnone : vs.drop before.length = [] := by
    rw [List.drop_eq_nil_iff, evalArguments_length ha.evaluated]
    exact hargs
  have hone : (perform limit budget).bindParams decl.name q.line [p] [] m₂ =
      .ok () { m₂ with heap := h', scopes := m₂.scopes.define m₂.frame p.name w (some p.ty) } := by
    rw [Doer.bindParams, hdefault]
    show (perform limit budget (.eval (some p.ty) e) >>= fun v => do
      Doer.bindParam p v q.line
      pure ()) m₂ = _
    rw [bind_of_ok (hv.run limit budget hbudget), bind_of_ok hbind]
    rfl
  rw [ha.call_eq hparams hint, hnone]
  exact callFrom_append (Nat.zero_le _) (by simp) hone

/-- An argument is evaluated with the type of its parameter as the hint, and it is not bound
before the others are evaluated. -/
theorem call_argument (he : e.Constant) (hd : p.ty.stored? (e.datum (some p.ty)) = some d)
    (hbudget : e.height ≤ budget) (hm : Discipline.nested.Standing m)
    (ha : Arrives limit budget f (args ++ e :: args') q.line c decl before vs m m₁ m₂)
    (hparams : decl.params = before ++ p :: after) (hargs : args.length = before.length)
    (hint : Option Ty) :
    ∃ h w, m₂.heap.Grows h ∧ h.datum w = d ∧
      perform limit (budget + 2) (.eval hint (.call f (args ++ e :: args') q)) m =
        (perform limit budget).callFrom decl q.line after (vs.drop (before.length + 1)) m₁
          { m₂ with heap := h, scopes := m₂.scopes.define m₂.frame p.name w (some p.ty) } := by
  obtain ⟨vs₀, m₀, ws, hfirst, hrest, rfl⟩ := of_evalArguments_append ha.evaluated
  have hlen : vs₀.length = before.length := (evalArguments_length hfirst).trans hargs
  rw [hparams, hargs, List.drop_left] at hrest
  obtain ⟨v, m₀', heval, hrest⟩ := of_bind_ok hrest
  obtain ⟨vs', m₁', hothers, hrest⟩ := of_bind_ok hrest
  cases hrest
  -- what the literal is made of is apart from all that is there
  obtain ⟨hm₀, hvs₀⟩ := (Doer.safe_evalArguments (obeyed_perform _ limit (budget + 1)) hm
    (Set.subset_univ _)).of_ok hfirst
  obtain ⟨u, h, hu⟩ := eval_constant he (some p.ty) m₀.heap.owns_size
  cases (hu.run limit (budget + 1) (by omega)).symm.trans heval
  have hapart := standing_apart hm₀ hu.grows
  -- and it is so still when the other arguments and the parameters before have been dealt with
  obtain ⟨hm₁, -⟩ := (Doer.safe_evalArguments (obeyed_perform _ limit (budget + 1)) hapart
    (Set.subset_univ _)).of_ok hothers
  have hinside := hm₁.inside c.frame
  have hvals : ∀ x ∈ vs₀, x.Apart (h.since m₀.heap.size) := fun x hx =>
    Heap.Known.apart (hvs₀ x hx)
  have htake : (vs₀ ++ v :: vs').take before.length = vs₀ := by rw [← hlen, List.take_left]
  have hbound := ha.bound
  rw [htake] at hbound
  obtain ⟨hm₂, -⟩ :=
    (Doer.safe_bindParams (obeyed_perform _ limit budget) hinside hvals).of_ok hbound
  have hshown := hu.shown.elsewhere (hm₂.holds.1.keeps)
  obtain ⟨h', w, hgrows, hw, hbind⟩ := bindParam_shown q.line hshown hd
  refine ⟨h', w, hgrows, hw, ?_⟩
  have hone : (perform limit budget).bindParams decl.name q.line [p] [v] m₂ =
      .ok () { m₂ with heap := h', scopes := m₂.scopes.define m₂.frame p.name w (some p.ty) } := by
    rw [Doer.bindParams, bind_of_ok hbind]
    rfl
  have hdrop : (vs₀ ++ v :: vs').drop before.length = [v] ++ vs' := by
    rw [← hlen, List.drop_left]
    rfl
  have hdrop' : (vs₀ ++ v :: vs').drop (before.length + 1) = vs' := by
    rw [← List.drop_drop, hdrop]
    rfl
  rw [ha.call_eq hparams hint, hdrop, hdrop']
  exact callFrom_append (Nat.le_refl _) (fun _ => rfl) hone

end

-- ---------------------------------------------------------------------------
-- Main result
-- ---------------------------------------------------------------------------

/-- How a literal is stored under a declared type: everywhere as the datum `d`, but for some
elements. Stores are added, and nothing else is changed but the place itself. -/
structure StoredAlike (limit : Nat) (t : Ty) (e : Expr) (d : Datum) : Prop where
  /-- Evaluating the literal never fails. -/
  evaluated : ∀ (hint : Option Ty) (m : Machine), ∃ v h, m.heap.Grows h ∧
    (Task.eval hint e).Settles limit m (.ok v { m with heap := h })
  /-- `let x: t = e;` -/
  declared : ∀ (x : String) (p : Place) (m : Machine), ∃ h w, m.heap.Grows h ∧ h.datum w = d ∧
    (Task.exec (.declare x (some t) (some e) p)).Settles limit m
      (.ok .unit { m with heap := h, scopes := m.scopes.define m.frame x w (some t) })
  /-- `x = e;` where `x` is declared with the type. -/
  assigned : ∀ (x : String) (p : Place) (m : Machine), m.scopes.declared? m.frame x = some t →
    ∃ h w, m.heap.Grows h ∧ h.datum w = d ∧
      (Task.exec (.assign x .set e p)).Settles limit m
        (.ok .unit { m with heap := h, scopes := (m.scopes.assign m.frame x w).2 })
  /-- `f(…, e, …)` where the parameter has the type: when the call comes to it, the parameter is
  bound and the call goes on, whatever the other arguments and parameters are. -/
  passed : ∀ (budget : Nat) (f : String) (args args' : List Expr) (q : Place) (c : Closure)
    (decl : FuncDecl) (before after : List Param) (p : Param) (vs : List Value)
    (m m₁ m₂ : Machine) (hint : Option Ty),
    e.height ≤ budget → Discipline.nested.Standing m →
    Arrives limit budget f (args ++ e :: args') q.line c decl before vs m m₁ m₂ →
    decl.params = before ++ p :: after → p.ty = t → args.length = before.length →
    ∃ h w, m₂.heap.Grows h ∧ h.datum w = d ∧
      perform limit (budget + 2) (.eval hint (.call f (args ++ e :: args') q)) m =
        (perform limit budget).callFrom decl q.line after (vs.drop (before.length + 1)) m₁
          { m₂ with heap := h, scopes := m₂.scopes.define m₂.frame p.name w (some t) }
  /-- `f(…)` where the literal is the default of a parameter with the type, and there is no
  argument for it. -/
  defaulted : ∀ (budget : Nat) (f : String) (args : List Expr) (q : Place) (c : Closure)
    (decl : FuncDecl) (before after : List Param) (p : Param) (vs : List Value)
    (m m₁ m₂ : Machine) (hint : Option Ty),
    e.height < budget → Arrives limit budget f args q.line c decl before vs m m₁ m₂ →
    decl.params = before ++ p :: after → p.ty = t → p.default = some e →
    args.length ≤ before.length →
    ∃ h w, m₂.heap.Grows h ∧ h.datum w = d ∧
      perform limit (budget + 2) (.eval hint (.call f args q)) m =
        (perform limit budget).callFrom decl q.line after [] m₁
          { m₂ with heap := h, scopes := m₂.scopes.define m₂.frame p.name w (some t) }
  /-- `xs[i] = e;` where `xs` is declared as an array of the type, and the type asks for no list
  where an array literal stands. -/
  element : t.meetsList e = false → ∀ (xs : String) (position : Expr) (p : Place) (i : Int64)
    (kind : SeqKind) (id : SeqId) (m m₁ : Machine),
    m.scopes.lookup? m.frame xs = some ⟨.seq kind id, some (.array t)⟩ →
    (Task.eval none position).Settles limit m (.ok (.int i) m₁) →
    0 ≤ i.toInt ∧ i.toInt < (m₁.heap.read id).size →
    ∃ h w, m₁.heap.Grows h ∧ (h.modify id (·.setIfInBounds i.toInt.toNat w)).datum w = d ∧
      (Task.exec (.assignIndex xs position .set e p)).Settles limit m
        (.ok .unit { m₁ with heap := h.modify id (·.setIfInBounds i.toInt.toNat w) })
  /-- `xs[i] = e;` where it does: a type error on the line of the statement. -/
  refused : t.meetsList e = true → ∀ (xs : String) (position : Expr) (p : Place) (i : Int64)
    (kind : SeqKind) (id : SeqId) (m m₁ : Machine),
    m.scopes.lookup? m.frame xs = some ⟨.seq kind id, some (.array t)⟩ →
    (Task.eval none position).Settles limit m (.ok (.int i) m₁) →
    0 ≤ i.toInt ∧ i.toInt < (m₁.heap.read id).size →
    ∃ h, m₁.heap.Grows h ∧ (Task.exec (.assignIndex xs position .set e p)).Settles limit m
      (.error (.fault ⟨p.line, .mismatch t .array (e.datum none).text⟩) { m₁ with heap := h })
  /-- `xs[i] = e;` where `xs` holds a matrix, which may stand in for an array of arrays of
  numbers but has no elements to write. -/
  matrix : ∀ (xs : String) (position : Expr) (p : Place) (i : Value) (a : DenseMatrix Binary64)
    (ty : Option Ty) (m m₁ : Machine), m.scopes.lookup? m.frame xs = some ⟨.matrix a, ty⟩ →
    (Task.eval none position).Settles limit m (.ok i m₁) →
    ∃ h, m₁.heap.Grows h ∧ (Task.exec (.assignIndex xs position .set e p)).Settles limit m
      (.error (.fault ⟨p.line, .noElements .matrix⟩) { m₁ with heap := h })

/-- **An array literal is stored alike everywhere but in an element.** Take a literal of
numbers, truth values, texts and array literals, nested to any depth, and a type. If
`let x: t = e;` succeeds somewhere, then there is one datum, arrays and lists told apart at
every depth, that is stored everywhere: by every `let` with the type, by an assignment to a
variable that has it, by passing the literal as an argument and by taking it as the default of
a parameter that has it. An assignment to an element of an array of the type stores it too,
unless the type asks for a list where an array literal stands. In that case the assignment
fails with a type error, and so it does if the variable holds a matrix; no variable and no
sequence that was there is changed then. -/
theorem literals_stored_alike (limit : Nat) {e : Expr} (he : e.Constant) (t : Ty) {x : String}
    {p : Place} {m n : Machine} {v : Value}
    (hlet : (Task.exec (.declare x (some t) (some e) p)).Settles limit m (.ok v n)) :
    ∃ d, StoredAlike limit t e d := by
  obtain ⟨d, hd⟩ := stored?_of_declare he hlet
  refine ⟨d, ?_, ?_, ?_, ?_, ?_, ?_, ?_, ?_⟩
  · exact settles_constant he
  · exact settles_declare he hd
  · exact fun x p m hx => settles_assign he hd p hx
  · rintro budget f args args' q c decl before after p vs m m₁ m₂ hint hbudget hm ha hparams rfl
      hargs
    exact call_argument he hd hbudget hm ha hparams hargs hint
  · rintro budget f args q c decl before after p vs m m₁ m₂ hint hbudget ha hparams rfl hdefault
      hargs
    exact call_default he hd hdefault hbudget ha hparams hargs hint
  · intro hmeets xs position p i kind id m m₁ hxs hposition hi
    rw [datum_of_not_meetsList hmeets] at hd
    exact settles_element he hd hxs hposition hi
  · intro hmeets xs position p i kind id m m₁ hxs hposition hi
    exact settles_element_refused he hmeets hxs hposition hi
  · exact fun xs position p i a ty m m₁ => settles_element_matrix he

/-- Under `array<list<float>>`, `[[1], []]` is stored as an array of lists: by
`let z: array<list<float>> = [[1], []];`, by `y = [[1], []];`, and in the parameter of
`func f(a: array<list<float>> = [[1], []]) {}` by `f([[1], []])` and by `f()`. -/
theorem literals_stored_alike_nested :
    let p : Place := ⟨1, 1⟩
    let e : Expr := .items [.items [.literal (.int 1) p] p, .items [] p] p
    let t : Ty := .array (.list .float)
    let m : Machine :=
      { heap := ⟨#[#[]]⟩
        scopes := ⟨#[⟨[("y", ⟨.seq .array 0, some t⟩),
          ("f", ⟨.func ⟨0, .declared ⟨"f", [⟨"a", t, some e, p⟩], []⟩, 0⟩, none⟩)], none⟩]⟩
        frame := 0, depth := 0, pending := none, closures := 1, output := ⟨#[], #[]⟩ }
    let stored := fun (task : Task) (f : FrameId) (x : String) =>
      let n := (perform 5 8 task).after m
      (n.scopes.get? f x).map fun w => (n.heap.datum w).label
    let label := "Array([List([Int(1)]), List([])])"
    let declare := Task.exec (.declare "z" (some t) (some e) p)
    e.Constant ∧ (∃ v n, declare.Settles 5 m (.ok v n)) ∧ stored declare 0 "z" = some label ∧
      stored (.exec (.assign "y" .set e p)) 0 "y" = some label ∧
      stored (.eval none (.call "f" [e] p)) 1 "a" = some label ∧
      stored (.eval none (.call "f" [] p)) 1 "a" = some label ∧
      ∃ d, StoredAlike 5 t e d := by
  intro p e t m stored label declare
  have he : e.Constant := by
    refine .items (List.forall_mem_cons.mpr ⟨.items ?_ p, ?_⟩) p
    · exact List.forall_mem_cons.mpr ⟨.literal _ p, by simp⟩
    · exact List.forall_mem_cons.mpr ⟨.items (by simp) p, by simp⟩
  obtain ⟨v, hlet⟩ : ∃ v, declare.Settles 5 m (.ok v ((perform 5 8 declare).after m)) :=
    settles_of_not_fails rfl (by decide +kernel)
  exact ⟨he, ⟨v, _, hlet⟩, by decide +kernel, by decide +kernel, by decide +kernel,
    by decide +kernel, literals_stored_alike 5 he t hlet⟩

/-- With `let xs: array<list<int>> = [[0]];` done, `let y: list<int> = [1, 2];` makes a list,
but `xs[0] = [1, 2];` fails: the literal is an array there. -/
theorem list_literal_refused_as_element :
    let p : Place := ⟨1, 1⟩
    let e : Expr := .items [.literal (.int 1) p, .literal (.int 2) p] p
    let m : Machine :=
      { heap := ⟨#[#[.int 0], #[.seq .list 0]]⟩
        scopes := ⟨#[⟨[("xs", ⟨.seq .array 1, some (.array (.list .int))⟩)], none⟩]⟩
        frame := 0, depth := 0, pending := none, closures := 0, output := ⟨#[], #[]⟩ }
    let declare := Task.exec (.declare "y" (some (.list .int)) (some e) p)
    let n := (perform 5 8 declare).after m
    (∃ v, declare.Settles 5 m (.ok v n)) ∧
      (n.scopes.get? 0 "y").map (fun w => (n.heap.datum w).label) =
        some "List([Int(1), Int(2)])" ∧
      ∃ h, m.heap.Grows h ∧
        (Task.exec (.assignIndex "xs" (.literal (.int 0) p) .set e p)).Settles 5 m
          (.error (.fault ⟨1, .mismatch (.list .int) .array "[1, 2]"⟩) { m with heap := h }) := by
  intro p e m declare n
  have he : e.Constant :=
    .items (List.forall_mem_cons.mpr ⟨.literal _ p, List.forall_mem_cons.mpr
      ⟨.literal _ p, by simp⟩⟩) p
  have hxs : m.scopes.lookup? m.frame "xs" = some ⟨.seq .array 1, some (.array (.list .int))⟩ := by
    rw [Scopes.lookup?, Scopes.owner?_of_local rfl]
    rfl
  have hposition : (Task.eval none (.literal (.int 0) p)).Settles 5 m (.ok (.int 0) m) :=
    settles_literal (.int 0) p m
  exact ⟨settles_of_not_fails rfl (by decide +kernel), by decide +kernel,
    settles_element_refused he rfl hxs hposition (by decide)⟩

end SeqScript
