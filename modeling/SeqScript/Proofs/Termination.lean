import Mathlib.Data.List.MinMax
import SeqScript.Proofs.Acyclic
import SeqScript.Proofs.Regime.Step
import SeqScript.Proofs.Sorting

/-!
# Programs without loops end

A budget bounds how deep tasks nest. For programs without `while` there is one
that is enough, however they recurse. What is done inside a call is nested less
deep than the code of the function, and so many calls may nest as the limit says;
so a bound on how deep any code is nested, and the number of calls that may still
be begun, bound how deep a task goes (`Task.need`, `need_part`). What is called
need not be known for this, only that its code is one of those bounded: that is
the regime `Regime.loopless`, under which no run ends because its budget is used
up (`alike_perform`).

Functions are values, and may be kept in variables and sequences from one program
to the next. The regime says of all of them that their code is without loops, and
is kept by whole sessions (`evaluateAll_enough`).

There is one way to end with neither a value nor a fault: to sort a row whose order
contradicts itself. The regime says of such rows what the sort says of them.
-/

namespace SeqScript

-- ---------------------------------------------------------------------------
-- Programs without loops
-- ---------------------------------------------------------------------------

namespace Stmt

mutual

/-- There is no `while` in a statement, the bodies of functions included. -/
def loopless : Stmt → Bool
  | loop .. => false
  | func _ _ _ body _ | block body _ => looplessAll body
  | branch _ onTrue none _ => looplessAll onTrue
  | branch _ onTrue (some onFalse) _ => looplessAll onTrue && looplessAll onFalse
  | select _ cases _ => looplessCases cases
  | declare .. | assign .. | assignIndex .. | ret .. | expr _ => true

def looplessAll : List Stmt → Bool
  | [] => true
  | s :: ss => s.loopless && looplessAll ss

def looplessCases : List MatchCase → Bool
  | [] => true
  | .mk _ s _ :: cs => s.loopless && looplessCases cs

end

theorem looplessAll_iff {body : List Stmt} :
    looplessAll body = true ↔ ∀ s ∈ body, s.loopless = true := by
  induction body with
  | nil => simp [looplessAll]
  | cons s ss ih => simp [looplessAll, ih]

theorem looplessCases_iff {cases : List MatchCase} :
    looplessCases cases = true ↔ ∀ s ∈ cases.map MatchCase.body, s.loopless = true := by
  induction cases with
  | nil => simp [looplessCases]
  | cons c cs ih =>
    obtain ⟨pattern, s, p⟩ := c
    simp only [looplessCases, Bool.and_eq_true, ih, List.map_cons, List.forall_mem_cons]
    rfl

/-- What a statement without loops executes is without loops. -/
theorem loopless_of_mem {s s' : Stmt} (hs : s.loopless = true) (hmem : s' ∈ s.stmts) :
    s'.loopless = true := by
  cases s with
  | loop => simp [loopless] at hs
  | branch c onTrue onFalse p =>
    cases onFalse with
    | none =>
      rw [loopless, looplessAll_iff] at hs
      exact hs s' (by simpa [stmts] using hmem)
    | some onFalse =>
      rw [loopless, Bool.and_eq_true, looplessAll_iff, looplessAll_iff] at hs
      rcases List.mem_append.mp hmem with hmem | hmem
      · exact hs.1 s' hmem
      · exact hs.2 s' hmem
  | select subject cases p =>
    rw [loopless, looplessCases_iff] at hs
    exact hs s' hmem
  | block body p =>
    rw [loopless, looplessAll_iff] at hs
    exact hs s' hmem
  | _ => simp [stmts] at hmem

end Stmt

/-- The code of a function is without loops. -/
def Code.loopless (c : Code) : Prop := ∀ s ∈ c.stmts, s.loopless = true

-- ---------------------------------------------------------------------------
-- Heights
-- ---------------------------------------------------------------------------

def highest (ns : List Nat) : Nat := ns.foldr max 0

theorem le_highest_map {α : Type} {f : α → Nat} {a : α} {xs : List α} (h : a ∈ xs) :
    f a ≤ highest (xs.map f) :=
  List.le_max_of_le' 0 (List.mem_map_of_mem h) (Nat.le_refl _)

namespace Expr

mutual

/-- How deep an expression is nested. -/
def height : Expr → Nat
  | literal .. | ident .. => 0
  | binary _ l r _ => max l.height r.height + 1
  | unary _ e _ | cast _ e _ | lambda _ e _ => e.height + 1
  | call _ args _ => highest (heights args) + 1
  | index subject position _ => max subject.height position.height + 1
  | collection _ subject args named _ =>
    max subject.height (max (highest (heights args)) (highest (heightsNamed named))) + 1
  | items es _ => highest (heights es) + 1

def heights : List Expr → List Nat
  | [] => []
  | e :: es => e.height :: heights es

def heightsNamed : List (String × Expr) → List Nat
  | [] => []
  | (_, e) :: rest => e.height :: heightsNamed rest

end

theorem heights_eq_map (es : List Expr) : heights es = es.map height := by
  induction es with
  | nil => rfl
  | cons e es ih => rw [heights, ih, List.map_cons]

theorem heightsNamed_eq_map (named : List (String × Expr)) :
    heightsNamed named = (named.map Prod.snd).map height := by
  induction named with
  | nil => rfl
  | cons a rest ih => rw [heightsNamed, ih, List.map_cons, List.map_cons]

theorem height_operand {e e' : Expr} (h : e' ∈ e.operands) : e'.height < e.height := by
  cases e with
  | literal | ident | lambda => simp [operands] at h
  | binary | index | unary | cast =>
    simp only [operands, List.mem_cons, List.not_mem_nil, or_false] at h
    rw [height]
    grind
  | call | items =>
    rw [height, heights_eq_map]
    exact Nat.lt_succ_of_le (le_highest_map h)
  | collection op subject args named p =>
    simp only [operands, List.mem_cons, List.mem_append] at h
    rw [height, heights_eq_map, heightsNamed_eq_map]
    rcases h with rfl | hargs | hnamed
    · omega
    · have hle : e'.height ≤ highest (args.map height) := le_highest_map hargs
      omega
    · have hle : e'.height ≤ highest ((named.map Prod.snd).map height) := le_highest_map hnamed
      omega

end Expr

/-- How deep the default of a parameter is nested. -/
def Param.height (p : Param) : Nat := (p.default.map Expr.height).getD 0

namespace Stmt

mutual

/-- How deep a statement is nested, the bodies of functions included. -/
def height : Stmt → Nat
  | declare _ _ value _ | ret value _ => (value.map Expr.height).getD 0 + 1
  | assign _ _ value _ | expr value => value.height + 1
  | assignIndex _ position _ value _ => max position.height value.height + 1
  | func _ params _ body _ =>
    max (highest (params.map Param.height)) (highest (heights body)) + 1
  | branch c onTrue none _ => max c.height (highest (heights onTrue)) + 1
  | branch c onTrue (some onFalse) _ =>
    max c.height (max (highest (heights onTrue)) (highest (heights onFalse))) + 1
  | loop c body _ => max c.height (highest (heights body)) + 1
  | select subject cases _ => max subject.height (highest (heightsCases cases)) + 1
  | block body _ => highest (heights body) + 1

def heights : List Stmt → List Nat
  | [] => []
  | s :: ss => s.height :: heights ss

def heightsCases : List MatchCase → List Nat
  | [] => []
  | .mk _ s _ :: cs => s.height :: heightsCases cs

end

theorem heights_eq_map (body : List Stmt) : heights body = body.map height := by
  induction body with
  | nil => rfl
  | cons s ss ih => rw [heights, ih, List.map_cons]

theorem heightsCases_eq_map (cases : List MatchCase) :
    heightsCases cases = (cases.map MatchCase.body).map height := by
  induction cases with
  | nil => rfl
  | cons c cs ih =>
    obtain ⟨pattern, s, p⟩ := c
    rw [heightsCases, ih, List.map_cons, List.map_cons]
    rfl

theorem height_expr {s : Stmt} {e : Expr} (h : e ∈ s.exprs) : e.height < s.height := by
  cases s with
  | declare _ _ value | ret value =>
    obtain rfl := Option.mem_toList.mp h
    exact Nat.lt_succ_self _
  | func | block => simp [exprs] at h
  | branch c onTrue onFalse =>
    obtain rfl := List.mem_singleton.mp h
    cases onFalse <;> simp only [height] <;> omega
  | assign | assignIndex | loop | select | expr =>
    simp only [exprs, List.mem_cons, List.not_mem_nil, or_false] at h
    rw [height]
    grind

/-- Only a loop executes something that is nested as deep as itself. -/
theorem height_stmt {s s' : Stmt} (hs : s.loopless = true) (h : s' ∈ s.stmts) :
    s'.height < s.height := by
  cases s with
  | loop => simp [loopless] at hs
  | branch c onTrue onFalse p =>
    cases onFalse with
    | none =>
      have hle : s'.height ≤ highest (onTrue.map height) :=
        le_highest_map (by simpa [stmts] using h)
      rw [height, heights_eq_map]
      omega
    | some onFalse =>
      rw [height, heights_eq_map, heights_eq_map]
      rcases List.mem_append.mp h with htrue | hfalse
      · have hle : s'.height ≤ highest (onTrue.map height) := le_highest_map htrue
        omega
      · have hle : s'.height ≤ highest (onFalse.map height) := le_highest_map hfalse
        omega
  | select subject cases p =>
    have hle : s'.height ≤ highest ((cases.map MatchCase.body).map height) := le_highest_map h
    rw [height, heightsCases_eq_map]
    omega
  | block body p =>
    rw [height, heights_eq_map]
    exact Nat.lt_succ_of_le (le_highest_map h)
  | _ => simp [stmts] at h

end Stmt

namespace Code

/-- How deep the code of a function is nested. -/
def height : Code → Nat
  | declared decl =>
    max (highest (decl.params.map Param.height)) (highest (decl.body.map Stmt.height)) + 1
  | lambda _ body => body.height + 1

theorem height_expr {c : Code} {e : Expr} (h : e ∈ c.exprs) : e.height < c.height := by
  cases c with
  | declared decl =>
    obtain ⟨p, hp, hdefault⟩ := List.mem_filterMap.mp h
    have hle : p.height ≤ highest (decl.params.map Param.height) := le_highest_map hp
    have heq : p.height = e.height := by simp [Param.height, hdefault]
    rw [height]
    omega
  | lambda param body =>
    obtain rfl := List.mem_singleton.mp h
    exact Nat.lt_succ_self _

theorem height_stmt {c : Code} {s : Stmt} (h : s ∈ c.stmts) : s.height < c.height := by
  cases c with
  | declared decl =>
    have hle : s.height ≤ highest (decl.body.map Stmt.height) := le_highest_map h
    rw [height]
    omega
  | lambda => simp [stmts] at h

end Code

-- ---------------------------------------------------------------------------
-- How deep tasks go
-- ---------------------------------------------------------------------------

/-- How deep tasks nest in the calls that may still be begun, if no code is
nested deeper than `size`. -/
def room (limit size d : Nat) : Nat := (limit - d) * (size + 2)

/-- Wherever a call is not refused there is room for the body of a function. -/
theorem room_of_lt {limit d : Nat} (h : d < limit) (size : Nat) :
    room limit size d = room limit size (d + 1) + size + 2 := by
  obtain ⟨k, rfl⟩ : ∃ k, limit = d + 1 + k := Nat.exists_eq_add_of_le h
  have hnow : d + 1 + k - d = k + 1 := by omega
  have hthen : d + 1 + k - (d + 1) = k := by omega
  rw [room, room, hnow, hthen, Nat.add_one_mul]
  omega

namespace Task

/-- A budget that is enough for a task. The callbacks of `map` and `filter` have
one argument, and so are no `map` or `filter` themselves. -/
def need (limit size d : Nat) : Task → Nat
  | eval _ e => room limit size d + e.height + 3
  | exec s => room limit size d + s.height + 3
  | call _ args _ => room limit size d + if args.length = 1 then 1 else 2

/-- The code of a task is without loops, and nested no deeper than `size`. -/
def Modest (size : Nat) : Task → Prop
  | eval _ e => e.height ≤ size
  | exec s => s.height ≤ size ∧ s.loopless = true
  | call .. => True

theorem need_pos (limit size d : Nat) (t : Task) : 0 < t.need limit size d := by
  unfold need
  split
  · omega
  · omega
  · split <;> omega

end Task

/-- A run has stopped, but not because the budget is used up: it has failed, or was to sort
a row whose order contradicts itself. -/
inductive Stop.Genuine : Stop → Prop
  | fault (f : Fault) : Genuine (.fault f)
  | disorder {row : List Value} (hlong : Sequence.shortLength < row.length)
      (hstraddled : Sequence.Straddled row) : Genuine (.disorder row)

/-- Functions have code without loops, nested no deeper than `size`; and runs do
not end because the budget is used up. -/
def Regime.loopless (size : Nat) : Regime where
  Allowed c := c.loopless ∧ c.height ≤ size
  Stops := Stop.Genuine
  stops_fault := .fault
  stops_disorder _ h := .disorder (Sequence.sort_eq_none h).1 (Sequence.sort_eq_none h).2

/-- The functions that a modest task makes have code that is allowed. -/
theorem allowed_codes {size : Nat} {t : Task} (ht : t.Modest size) :
    ∀ c ∈ t.codes, (Regime.loopless size).Allowed c := by
  intro c hc
  unfold Task.codes at hc
  split at hc
  · obtain rfl := List.mem_singleton.mp hc
    exact ⟨by simp [Code.loopless, Code.stmts], ht⟩
  · obtain rfl := List.mem_singleton.mp hc
    obtain ⟨hheight, hloopless⟩ := ht
    rw [Stmt.loopless, Stmt.looplessAll_iff] at hloopless
    rw [Stmt.height, Stmt.heights_eq_map] at hheight
    exact ⟨hloopless, hheight⟩
  · simp at hc

/-- Code that is nested less deep than `size` fits into the room of one call. -/
theorem need_body {limit size d height : Nat} (hlimit : d < limit) (hheight : height < size)
    (f : Value) (args : List Value) (line : Nat) :
    room limit size (d + 1) + height + 3 < (Task.call f args line).need limit size d := by
  have hnext := room_of_lt hlimit size
  rw [Task.need]
  split <;> omega

/-- **Every part of a task needs less than the task**, counted with the calls that
are under way where the part is begun. -/
theorem need_part {limit size d : Nat} {t t' : Task} (ht : t.Modest size)
    (hoperands : (Regime.loopless size).AllProper t.operands) (hroom : ¬ t.Refused limit d)
    (hpart : t.Part t') :
    t'.Modest size ∧ t'.need limit size (t.inside d) < t.need limit size d := by
  cases t with
  | eval hint e =>
    have hheight : e.height ≤ size := ht
    cases t' with
    | eval hint' e' =>
      have hlt := Expr.height_operand hpart
      refine ⟨Nat.le_trans (Nat.le_of_lt hlt) hheight, ?_⟩
      show room limit size d + e'.height + 3 < room limit size d + e.height + 3
      omega
    | call f args line =>
      refine ⟨trivial, ?_⟩
      show (Task.call f args line).need limit size d < room limit size d + e.height + 3
      rw [Task.need]
      split <;> omega
    | exec => exact hpart.elim
  | exec s =>
    obtain ⟨hheight, hloopless⟩ := ht
    cases t' with
    | eval hint e =>
      have hlt := Stmt.height_expr hpart
      refine ⟨Nat.le_trans (Nat.le_of_lt hlt) hheight, ?_⟩
      show room limit size d + e.height + 3 < room limit size d + s.height + 3
      omega
    | exec s' =>
      have hlt := Stmt.height_stmt hloopless hpart
      refine ⟨⟨Nat.le_trans (Nat.le_of_lt hlt) hheight, Stmt.loopless_of_mem hloopless hpart⟩, ?_⟩
      show room limit size d + s'.height + 3 < room limit size d + s.height + 3
      omega
    | call => exact hpart.elim
  | call f args line =>
    cases f with
    | func c =>
      obtain ⟨hloopless, hheight⟩ : (Regime.loopless size).Allowed c.code :=
        hoperands _ (List.mem_cons_self ..) c rfl
      have hlimit : d < limit := Nat.lt_of_not_le hroom
      cases t' with
      | eval hint e =>
        have hlt := Nat.lt_of_lt_of_le (Code.height_expr hpart) hheight
        exact ⟨Nat.le_of_lt hlt, need_body hlimit hlt _ args line⟩
      | exec s =>
        have hlt := Nat.lt_of_lt_of_le (Code.height_stmt hpart) hheight
        exact ⟨⟨Nat.le_of_lt hlt, hloopless s hpart⟩, need_body hlimit hlt _ args line⟩
      | call => exact hpart.elim
    | builtin b =>
      cases t' with
      | call f' args' line' =>
        obtain ⟨htwo, hone⟩ := hpart
        refine ⟨trivial, ?_⟩
        show (Task.call f' args' line').need limit size d < _
        rw [Task.need, Task.need, if_pos hone, if_neg (by omega)]
        omega
      | eval | exec => exact hpart.elim
    | _ => exact hpart.elim

-- ---------------------------------------------------------------------------
-- Runs with a budget that is enough
-- ---------------------------------------------------------------------------

/-- With any two budgets that are enough a modest task ends in the same way, and
not because they are used up. -/
theorem alike_perform (limit size : Nat) {d : Nat} (budget budget' : Nat) :
    (Regime.loopless size).Pairs
      (fun t => t.Modest size ∧ t.need limit size d ≤ budget ∧ t.need limit size d ≤ budget') d
      (perform limit budget) (perform limit budget') := by
  induction budget generalizing d budget' with
  | zero =>
    rintro t m ⟨-, hneed, -⟩ _ _
    have hpos := t.need_pos limit size d
    omega
  | succ budget ih =>
    rintro t m ⟨ht, hneed, hneed'⟩ hoperands hm
    obtain ⟨k, rfl⟩ : ∃ k, budget' = k + 1 := by
      have hpos := t.need_pos limit size d
      exact Nat.exists_eq_add_one.mpr (by omega)
    refine Regime.alike_step (allowed_codes ht) hoperands hm ?_
    intro hroom t' m' hpart
    obtain ⟨ht', hlt⟩ := need_part ht hoperands hroom hpart
    exact ih k t' m' ⟨ht', by omega, by omega⟩

namespace Session

/-- A budget that is enough for programs without loops whose statements are
nested no deeper than `size`. -/
def enough (limit size : Nat) : Nat := (limit + 1) * (size + 2) + 1

/-- A program ends with a value, with a fault, or where it is to sort a long row with a
number that is straddled. -/
inductive Outcome.Ended : Outcome → Prop
  | value (v : Value) : Ended (.value v)
  | fault (f : Fault) : Ended (.fault f)
  | disorder {row : List Value} (hlong : Sequence.shortLength < row.length)
      (hstraddled : Sequence.Straddled row) : Ended (.disorder row)

variable {s : Session} {size budget budget' : Nat} {p : Program}

theorem kept_start (R : Regime) (limit : Nat) : R.Kept 0 (start limit).ready := by
  refine ⟨?_, every_start (fun b => Regime.proper_data rfl) limit, by simp [ready], rfl⟩
  intro id v hv
  simp [start, ready, Heap.empty, Heap.read] at hv

theorem evaluate_enough (hs : (Regime.loopless size).Kept 0 s.ready)
    (hp : ∀ st ∈ p, st.loopless = true ∧ st.height ≤ size)
    (hbudget : enough s.limit size ≤ budget) (hbudget' : enough s.limit size ≤ budget') :
    (s.evaluate budget p).1.Ended ∧ s.evaluate budget p = s.evaluate budget' p ∧
      (Regime.loopless size).Kept 0 (s.evaluate budget p).2.ready := by
  have hgiven : ∀ st ∈ p, (Task.exec st).Modest size ∧
      (Task.exec st).need s.limit size 0 ≤ budget ∧
      (Task.exec st).need s.limit size 0 ≤ budget' := by
    intro st hst
    obtain ⟨hloopless, hheight⟩ := hp st hst
    have hneed : (Task.exec st).need s.limit size 0 ≤ enough s.limit size := by
      rw [Task.need, room, enough, Nat.sub_zero, Nat.add_one_mul]
      omega
    exact ⟨⟨hheight, hloopless⟩, by omega, by omega⟩
  have hbody := Regime.alike_execAll (alike_perform s.limit size budget budget') hgiven hs
  obtain ⟨hsame, hends⟩ : (Regime.loopless size).Alike 0 (runProgram s.limit budget p)
      (runProgram s.limit budget' p) s.ready (Regime.loopless size).Proper :=
    hbody.bind fun last n hn hlast => .takePending hn hlast
  have hready : ∀ n, (Regime.loopless size).Kept 0 n →
      (Regime.loopless size).Kept 0 { s with machine := n }.ready :=
    fun n hn => ⟨hn.heap, hn.scopes, by simp [ready], rfl⟩
  unfold evaluate conduct
  rw [hsame]
  cases hrun : runProgram s.limit budget p s.ready with
  | ok v n =>
    rw [hrun] at hends
    exact ⟨.value v, rfl, hready n hends.1⟩
  | error e n =>
    rw [hrun] at hends
    cases hends.2 with
    | fault f => exact ⟨.fault f, rfl, hready n hends.1⟩
    | disorder hlong hstraddled => exact ⟨.disorder hlong hstraddled, rfl, hready n hends.1⟩

/-- Programs without loops, one after another. -/
theorem evaluateAll_enough {run : List (Nat × Program)}
    (hs : (Regime.loopless size).Kept 0 s.ready)
    (hrun : ∀ entry ∈ run, ∀ st ∈ entry.2, st.loopless = true ∧ st.height ≤ size)
    (hbudget : ∀ entry ∈ run, enough s.limit size ≤ entry.1) :
    (∀ o ∈ (s.evaluateAll run).1, o.Ended) ∧
      s.evaluateAll run = s.evaluateAll (run.map fun entry => (enough s.limit size, entry.2)) := by
  induction run generalizing s with
  | nil => exact ⟨by simp [evaluateAll], rfl⟩
  | cons entry rest ih =>
    obtain ⟨budget, p⟩ := entry
    rw [List.forall_mem_cons] at hrun hbudget
    obtain ⟨hended, hsame, hkept⟩ := evaluate_enough hs hrun.1 hbudget.1 (Nat.le_refl _)
    have hlimit : (s.evaluate budget p).2.limit = s.limit := limit_evaluate ..
    obtain ⟨hrest, hall⟩ := ih hkept hrun.2 (hlimit ▸ hbudget.2)
    rw [hlimit] at hall
    simp only [evaluateAll, List.map_cons, List.forall_mem_cons]
    rw [← hsame, ← hall]
    exact ⟨⟨hended, hrest⟩, rfl⟩

end Session

open Session in
/-- **Programs without loops end.** Take any limit on calls and any programs in
which there is no `while`. There is a budget with which all of them, run one
after another in a new session, end with a value or a fault, and no larger
budgets change what comes out. The one exception is a program that is to sort a row
of more than twenty values with a floating-point number and two different integers
that are rounded to it: it may end there. Besides the budget nothing bounds a run: at
every moment the recursions from sequences to their elements end by themselves, and
are not cut off. -/
theorem loopless_programs_end (limit : Nat) (programs : List Program)
    (hloopless : ∀ p ∈ programs, ∀ st ∈ p, st.loopless = true) :
    let budget := enough limit (highest (programs.flatten.map Stmt.height))
    (∀ run : List (Nat × Program), run.map Prod.snd = programs →
      (∀ entry ∈ run, budget ≤ entry.1) →
      (∀ o ∈ ((start limit).evaluateAll run).1, o.Ended) ∧
        (start limit).evaluateAll run =
          (start limit).evaluateAll (programs.map fun p => (budget, p))) ∧
    (∀ m, Moment m → WellFounded m.heap.ElementOf ∧ m.heap.Unbounded) := by
  refine ⟨?_, ?_⟩
  · rintro run rfl hbudget
    rw [List.map_map]
    refine evaluateAll_enough (kept_start _ limit) ?_ hbudget
    intro entry hentry st hst
    have hp : entry.2 ∈ run.map Prod.snd := List.mem_map_of_mem hentry
    exact ⟨hloopless _ hp st hst, le_highest_map (List.mem_flatten_of_mem hp hst)⟩
  · intro m hm
    have hsound : m.heap.Sound := (hm.standing nested_start).holds.1
    exact ⟨hsound.wellFounded_elementOf, hsound.unbounded⟩

open Session in
/-- A function that calls itself for ever, and then `map` with a lambda that calls
it on an element of a sequence, under a limit of two calls. -/
theorem loopless_programs_end_recursion :
    let p : Place := ⟨1, 1⟩
    let declaring : Program :=
      [.func "f" [⟨"n", .int, some (.literal (.int 0) p), p⟩] none
        [.expr (.call "f" [.ident "n" p] p)] p]
    let calling : Program :=
      [.assign "xs" .set (.items [.literal (.int 1) p] p) p,
        .expr (.collection .map (.ident "xs" p) [.lambda "x" (.call "f" [.ident "x" p] p) p]
          [("mutate", .literal (.bool true) p)] p)]
    let run := [(19, declaring), (20, calling)]
    (∀ q ∈ [declaring, calling], ∀ st ∈ q, st.loopless = true) ∧
      enough 2 (highest ([declaring, calling].flatten.map Stmt.height)) = 19 ∧
      (∀ o ∈ ((start 2).evaluateAll run).1, o.Ended) ∧
      (start 2).evaluateAll run = (start 2).evaluateAll [(19, declaring), (19, calling)] := by
  intro p declaring calling run
  have hloopless : ∀ q ∈ [declaring, calling], ∀ st ∈ q, st.loopless = true := by decide
  have hends := (loopless_programs_end 2 [declaring, calling] hloopless).1 run rfl (by decide)
  exact ⟨hloopless, by decide, hends⟩

/-- The row that a program was to sort where it ended, if it ended so. -/
def Session.Outcome.unsorted? : Outcome → Option (List Value)
  | disorder row => some row
  | value _ | fault _ | exhausted => none

open Session in
/-- A program without loops that sorts a row of twenty-one numbers, among them the integers
`2 ^ 53 + 1` and `2 ^ 53` and the number `2 ^ 53`, ends with neither a value nor a fault. -/
theorem loopless_program_gives_up :
    let p : Place := ⟨1, 1⟩
    let low : Expr := .literal (.int 9007199254740992) p
    let float : Expr := .literal (.float 9007199254740992.0) p
    let sorting : Program :=
      [.declare "xs" none (some (.items ([.literal (.int 9007199254740993) p, low] ++
          List.replicate 8 float ++ [low, low] ++ List.replicate 9 float) p)) p,
        .expr (.collection .sort (.ident "xs" p) [] [] p), .expr (.literal (.int 0) p)]
    (∀ st ∈ sorting, st.loopless = true) ∧
      (∀ v, ((start standardLimit).evaluate 20 sorting).1 ≠ .value v) ∧
      ∀ f, ((start standardLimit).evaluate 20 sorting).1 ≠ .fault f := by
  intro p low float sorting
  have hunsorted : ((start standardLimit).evaluate 20 sorting).1.unsorted?.isSome = true := by
    decide +kernel
  refine ⟨by decide, ?_, ?_⟩
  · intro v hv
    rw [hv] at hunsorted
    cases hunsorted
  · intro f hf
    rw [hf] at hunsorted
    cases hunsorted

end SeqScript
