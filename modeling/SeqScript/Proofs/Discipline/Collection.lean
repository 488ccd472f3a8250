import SeqScript.Proofs.Discipline

/-!
# Operations on sequences keep every discipline

The functions that are always there, and the operations written behind a dot.
Both take their operands as values and call back only through `map` and `filter`.
Which names an operation binds is the subject of `safe_bindDerived`.
-/

namespace SeqScript

open Discipline

variable {D : Discipline} {self : Doer} {names : Scopes.Names} {m : Machine}

-- ---------------------------------------------------------------------------
-- Rows of values
-- ---------------------------------------------------------------------------

/-- Values computed one after another. -/
theorem safe_cons {first : Run Value} {rest : Run (List Value)}
    (hfirst : D.Safe names false first m D.Val)
    (hrest : ∀ m₁, D.Advance names m m₁ → D.Safe names false rest m₁ D.Vals) :
    D.Safe names false (do let v ← first; return v :: (← rest)) m D.Vals := by
  refine hfirst.bind ?_
  intro v m₁ hadv hv
  refine (hrest m₁ hadv).bind ?_
  intro vs m₂ hadv₂ hvs
  refine .pure hadv₂.standing ?_
  simpa [Vals] using ⟨hadv₂.val hv, hvs⟩

namespace Doer

/-- The run lemma of operands, by induction on those that are left. -/
theorem safe_evalAll (hself : D.Obeyed self) {es : List Expr} (hm : D.Standing m)
    (hnames : untyped (Expr.derivedAll es) ⊆ names) :
    D.Safe names false (self.evalAll es) m D.Vals := by
  induction es generalizing m with
  | nil => exact .pure hm (by simp [Vals])
  | cons e es ih =>
    rw [Expr.derivedAll, untyped_append, Set.union_subset_iff] at hnames
    exact safe_cons (hself.eval hm hnames.1) fun m₁ hadv => ih hadv.standing hnames.2

/-- The run lemma of `map`. The elements that are left stay at hand, as the heap only
grows. -/
theorem safe_mapItems (hself : D.Obeyed self) {f : Value} {line : Nat} {items : List Value}
    (hm : D.Standing m) (hitems : D.Vals items m.heap) :
    D.Safe names false (self.mapItems f line items) m D.Vals := by
  induction items generalizing m with
  | nil => exact .pure hm (by simp [Vals])
  | cons v vs ih =>
    have hv : D.Vals [v] m.heap := by simpa [Vals] using hitems v (List.mem_cons_self ..)
    refine safe_cons (hself.call hm hv) ?_
    intro m₁ hadv
    exact ih hadv.standing (hadv.vals fun x hx => hitems x (List.mem_cons_of_mem _ hx))

/-- The run lemma of `filter`, which hands on elements it was given. -/
theorem safe_filterItems (hself : D.Obeyed self) {f : Value} {line : Nat} {items : List Value}
    (hm : D.Standing m) (hitems : D.Vals items m.heap) :
    D.Safe names false (self.filterItems f line items) m D.Vals := by
  induction items generalizing m with
  | nil => exact .pure hm (by simp [Vals])
  | cons v vs ih =>
    have hv : D.Vals [v] m.heap := by simpa [Vals] using hitems v (List.mem_cons_self ..)
    refine (hself.call hm hv).bind ?_
    intro w m₁ hadv hw
    have hvs : D.Vals vs m₁.heap := hadv.vals fun x hx => hitems x (List.mem_cons_of_mem _ hx)
    split
    · refine (ih hadv.standing hvs).bind ?_
      intro ws m₂ hadv₂ hws
      refine .pure hadv₂.standing ?_
      have hv₂ := hadv₂.vals (hadv.vals hv)
      simpa [Vals] using ⟨hv₂ v (by simp), hws⟩
    · exact ih hadv.standing hvs
    · exact .fail hadv.standing

theorem safe_map (hself : D.Obeyed self) {f : Value} {line : Nat} {items : List Value}
    (hm : D.Standing m) (hitems : D.Vals items m.heap) :
    D.Safe names false (self.map f line items) m D.Vals := by
  unfold Doer.map
  split
  · exact safe_mapItems hself hm hitems
  · exact .fail hm

theorem safe_filter (hself : D.Obeyed self) {f : Value} {line : Nat} {items : List Value}
    (hm : D.Standing m) (hitems : D.Vals items m.heap) :
    D.Safe names false (self.filter f line items) m D.Vals := by
  unfold Doer.filter
  split
  · exact safe_filterItems hself hm hitems
  · exact .fail hm

end Doer

-- ---------------------------------------------------------------------------
-- What is computed from one sequence
-- ---------------------------------------------------------------------------

/-- A number computed from the elements of a sequence: it has no elements, or is
one of them. -/
theorem safe_measure {line : Nat} {cause : Kind → Cause} {v : Value}
    {f : List Value → Except Cause Value} (hm : D.Standing m) (hv : D.Val v m.heap)
    (hf : ∀ xs w, f xs = .ok w → w ∈ xs ∨ w.isData = true) :
    D.Safe names false
      (do let s ← Run.sequence line cause v; Run.charge line (f s.items)) m D.Val := by
  refine .sequence_bind hm ?_
  rintro kind id rfl
  refine .charge hm ?_
  intro w hw
  rcases hf _ w hw with hmem | hdata
  · exact hm.vals_read hv w hmem
  · exact D.val_data hdata

/-- A sequence made of the elements of another and of values without elements. -/
theorem safe_moved {line : Nat} {cause : Kind → Cause} {v k : Value} {name : String}
    {f : List Value → Int64 → List Value} (hm : D.Standing m) (hv : D.Val v m.heap)
    (hf : ∀ xs n w, w ∈ f xs n → w ∈ xs ∨ w.isData = true) :
    D.Safe names false
      (do
        let s ← Run.sequence line cause v
        let n ← Run.charge line (Sequence.amount name k)
        Run.newSeq s.kind (f s.items n)) m D.Val := by
  refine .sequence_bind hm ?_
  rintro kind id rfl
  refine .charge_bind hm ?_
  intro n _
  refine .newSeq hm ?_
  intro w hw
  rcases hf _ n w hw with hmem | hdata
  · exact hm.vals_read hv w hmem
  · exact D.val_data hdata

/-- The line of best fit of two sequences. -/
theorem safe_regression {line : Nat} {cause : Kind → Cause} {v w : Value} (hm : D.Standing m) :
    D.Safe names false
      (do
        let x ← Run.sequence line cause v
        let y ← Run.sequence line cause w
        let r ← Run.charge line (Sequence.regression x.items y.items)
        Run.newSeq .list r.values) m D.Val := by
  refine .sequence_bind hm ?_
  intro _ _ _
  refine .sequence_bind hm ?_
  intro _ _ _
  refine .charge_bind hm ?_
  intro r _
  exact .newSeq hm fun _ hw => D.val_data (Sequence.isData_values hw)

-- ---------------------------------------------------------------------------
-- Functions that are always there
-- ---------------------------------------------------------------------------

namespace Builtin

theorem safe_length {line : Nat} {v : Value} (hm : D.Standing m) :
    D.Safe names false (length line v) m D.Val := by
  unfold length
  split
  · exact .read_bind (.pure hm (D.val_plain rfl))
  · exact .pure hm (D.val_plain rfl)
  · exact .pure hm (D.val_plain rfl)
  · exact .fail hm

theorem safe_apply (hself : D.Obeyed self) {b : Builtin} {args : List Value} {line : Nat}
    (hm : D.Standing m) (hargs : D.Vals args m.heap) :
    D.Safe names false (b.apply self args line) m D.Val := by
  unfold apply
  split
  · -- print
    refine (Safe.print hm).bind ?_
    intro _ m₁ hadv _
    exact .pure hadv.standing (D.val_plain rfl)
  · -- play
    refine .sequence_bind hm ?_
    intro _ _ _
    refine .charge_bind hm ?_
    intro _ _
    refine (Safe.play hm).bind ?_
    intro _ m₁ hadv _
    exact .pure hadv.standing (D.val_plain rfl)
  · exact safe_length hm
  · exact safe_measure hm hargs.head fun _ _ h => Or.inr (Sequence.isData_map_float h)
  · exact safe_measure hm hargs.head fun _ _ h => Sequence.mem_median h
  · exact safe_measure hm hargs.head fun _ _ h => Or.inr (Sequence.isData_map_float h)
  · exact safe_measure hm hargs.head fun _ _ h => Or.inr (Sequence.isData_map_float h)
  · exact safe_measure hm hargs.head fun _ _ h => Or.inr (Sequence.isData_sum h)
  · exact safe_measure hm hargs.head fun _ _ h => Or.inl (Sequence.mem_extreme h)
  · exact safe_measure hm hargs.head fun _ _ h => Or.inl (Sequence.mem_extreme h)
  · exact .charge hm fun _ h => D.val_data (isData_magnitude h)
  · exact .charge hm fun _ h => D.val_data (isData_squareRoot h)
  · exact safe_regression hm
  · -- map
    refine .sequence_bind hm ?_
    rintro kind id rfl
    have hitems := hm.vals_read hargs.head
    refine (Doer.safe_map hself hm hitems).bind ?_
    intro ws m₁ hadv hws
    exact .newSeq hadv.standing hws
  · -- filter
    refine .sequence_bind hm ?_
    rintro kind id rfl
    have hitems := hm.vals_read hargs.head
    refine (Doer.safe_filter hself hm hitems).bind ?_
    intro ws m₁ hadv hws
    exact .newSeq hadv.standing hws
  · exact safe_moved hm hargs.head fun _ _ _ h => Or.inl (Sequence.mem_rotate h)
  · exact safe_moved hm hargs.head fun _ _ _ h => Sequence.mem_shift h
  · exact .fail hm

/-- The arguments are counted before anything is done. -/
theorem safe_call (hself : D.Obeyed self) {b : Builtin} {args : List Value} {line : Nat}
    (hm : D.Standing m) (hargs : D.Vals args m.heap) :
    D.Safe names false (b.call self args line) m D.Val := by
  unfold call
  split
  · exact safe_apply hself hm hargs
  · exact .fail hm

end Builtin

-- ---------------------------------------------------------------------------
-- Writing into a sequence
-- ---------------------------------------------------------------------------

namespace CollectionOp

/-- The elements are made to fit the declared type, and the store is not among them. -/
theorem safe_replaceItems {line : Nat} {s : Run.Snapshot} {declared : Option Ty}
    {items : List Value} (hm : D.Standing m) (hstore : D.Val (.seq s.kind s.id) m.heap)
    (hitems : D.Vals items m.heap) :
    D.Safe names false (replaceItems line s declared items) m fun _ _ => True := by
  refine .heap_bind ?_
  refine .charge_bind hm ?_
  rintro ⟨ws, h⟩ hok
  refine .setHeap hm ?_ (D.holds_replace hm.holds hstore hitems hok)
  show m.heap.size ≤ (h.write s.id ws.toArray).size
  rw [Heap.write, Heap.size_modify]
  exact (insertable_grows hok).size_le

/-- The result goes into the subject itself or into a new sequence. -/
theorem safe_conclude {line : Nat} {target : Value} {s : Run.Snapshot} {mutate : Bool}
    {declared : Option Ty} {items : List Value} (hm : D.Standing m)
    (htarget : target = .seq s.kind s.id) (hval : D.Val target m.heap)
    (hitems : D.Vals items m.heap) :
    D.Safe names false (conclude line target s mutate declared items) m D.Val := by
  unfold conclude
  split
  · refine (safe_replaceItems hm (htarget ▸ hval) hitems).bind ?_
    intro _ m₁ hadv _
    exact .pure hadv.standing (hadv.val hval)
  · exact .newSeq hm hitems

/-- Putting part of a sequence's elements in place of all. -/
theorem safe_part {target : Value} {kind : SeqKind} {id : SeqId} {items : List Value}
    (hm : D.Standing m) (htarget : target = .seq kind id) (hval : D.Val target m.heap)
    (hitems : ∀ v ∈ items, v ∈ (m.heap.read id).toList) :
    D.Safe names false (do Run.update id fun _ => items.toArray; return target) m D.Val := by
  refine (Safe.update hm (D.holds_part hm.holds (htarget ▸ hval) ?_)).bind ?_
  · exact fun v hv => Array.mem_toList_iff.mp (hitems v hv)
  · intro _ m₁ hadv _
    exact .pure hadv.standing (hadv.val hval)

/-- An operation that changes a list sees it as it is, or refuses its subject. -/
theorem listSubject_bind {β : Type} {op : CollectionOp} {line : Nat} {v : Value}
    {next : Run.Snapshot → Run β} {R : β → Heap → Prop} (hm : D.Standing m)
    (h : ∀ id, v = .seq .list id →
      D.Safe names false (next ⟨.list, id, (m.heap.read id).toList⟩) m R) :
    D.Safe names false (op.listSubject line v >>= next) m R := by
  unfold listSubject
  split
  · next id => exact h id rfl
  · exact Safe.fail hm (Q := R)

-- ---------------------------------------------------------------------------
-- Operations behind a dot
-- ---------------------------------------------------------------------------

/-- A matrix is a value and is in no store. -/
theorem matrixOf_bind {β : Type} {line : Nat} {v : Value} {next : DenseMatrix Binary64 → Run β}
    {R : β → Heap → Prop} (hm : D.Standing m) (h : ∀ a, D.Safe names false (next a) m R) :
    D.Safe names false (matrixOf line v >>= next) m R := by
  show D.Safe names false (Run.charge line (m.heap.matrix? v) >>= next) m R
  exact .charge_bind hm fun a _ => h a

theorem safe_matrix {line : Nat} {x : Except Cause (DenseMatrix Binary64)} (hm : D.Standing m) :
    D.Safe names false (do return .matrix (← Run.charge line x)) m D.Val := by
  refine .charge_bind hm ?_
  intro _ _
  exact .pure hm (D.val_plain rfl)

/-- A row is sorted, or the run ends with nothing changed. -/
theorem sorted_bind {β : Type} {line : Nat} {items : List Value} {next : List Value → Run β}
    {R : β → Heap → Prop} (hm : D.Standing m)
    (h : ∀ row, Sequence.sort items = .ok (some row) → D.Safe names false (next row) m R) :
    D.Safe names false (sorted line items >>= next) m R := by
  rw [sorted, bind_assoc]
  refine .charge_bind hm ?_
  intro result hresult
  cases result with
  | none => exact Safe.throw hm
  | some row => exact h row hresult

theorem safe_apply (hself : D.Obeyed self) {op : CollectionOp} {target : Value}
    {args : List Value} {mutate : Bool} {declared : Option Ty} {line : Nat} (hm : D.Standing m)
    (htarget : D.Val target m.heap) (hargs : D.Vals args m.heap) :
    D.Safe names false (op.apply self target args mutate declared line) m D.Val := by
  unfold apply
  split
  · -- sort
    refine .sequence_bind hm ?_
    intro kind id hseq
    refine sorted_bind hm ?_
    intro row hrow
    exact safe_part hm hseq htarget fun v hv => Sequence.mem_sort hrow hv
  · -- append
    next v =>
    refine listSubject_bind hm ?_
    intro id hseq
    refine .heap_bind ?_
    refine .charge_bind hm ?_
    intro _ hcheck
    have hv : D.Val v m.heap := hargs.head
    refine (Safe.update hm (D.holds_append hm.holds (hseq ▸ htarget) hv
      (checkInsertion_eq_ok_iff.mp hcheck))).bind ?_
    intro _ m₁ hadv _
    exact .pure hadv.standing (hadv.val htarget)
  · -- remove
    refine listSubject_bind hm ?_
    intro id hseq
    refine .heap_bind ?_
    refine .charge_bind hm ?_
    intro rest hrest
    exact safe_part hm hseq htarget fun v hv => Sequence.mem_remove hrest hv
  · exact safe_measure hm htarget fun _ _ h => Or.inr (Sequence.isData_map_float h)
  · exact safe_measure hm htarget fun _ _ h => Sequence.mem_median h
  · exact safe_measure hm htarget fun _ _ h => Or.inr (Sequence.isData_map_float h)
  · exact safe_measure hm htarget fun _ _ h => Or.inr (Sequence.isData_map_float h)
  · exact safe_regression hm
  · -- map
    refine .sequence_bind hm ?_
    intro kind id hseq
    refine (Doer.safe_map hself hm (hm.vals_read (hseq ▸ htarget))).bind ?_
    intro ws m₁ hadv hws
    exact safe_conclude hadv.standing hseq (hadv.val htarget) hws
  · -- filter
    refine .sequence_bind hm ?_
    intro kind id hseq
    refine (Doer.safe_filter hself hm (hm.vals_read (hseq ▸ htarget))).bind ?_
    intro ws m₁ hadv hws
    exact safe_conclude hadv.standing hseq (hadv.val htarget) hws
  · exact safe_moved hm htarget fun _ _ _ h => Or.inl (Sequence.mem_rotate h)
  · exact safe_moved hm htarget fun _ _ _ h => Sequence.mem_shift h
  · exact matrixOf_bind hm fun _ => matrixOf_bind hm fun _ => safe_matrix hm
  · exact matrixOf_bind hm fun _ => matrixOf_bind hm fun _ => safe_matrix hm
  · exact matrixOf_bind hm fun _ => safe_matrix hm
  · exact matrixOf_bind hm fun _ => .pure hm (D.val_plain rfl)
  · exact .fail hm

-- ---------------------------------------------------------------------------
-- Evaluating an operation
-- ---------------------------------------------------------------------------

/-- Named arguments are evaluated from left to right. -/
theorem safe_mutateFlag (hself : D.Obeyed self) {op : CollectionOp} {line : Nat} {flag : Bool}
    {named : List (String × Expr)} (hm : D.Standing m)
    (hnames : untyped (Expr.derivedNamed named) ⊆ names) :
    D.Safe names false (mutateFlag self op line flag named) m fun _ _ => True := by
  induction named generalizing flag m with
  | nil => exact .pure hm trivial
  | cons arg rest ih =>
    obtain ⟨name, e⟩ := arg
    rw [Expr.derivedNamed, untyped_append, Set.union_subset_iff] at hnames
    unfold mutateFlag
    split
    · refine (hself.eval hm hnames.1).bind ?_
      intro v m₁ hadv _
      split
      · exact ih hadv.standing hnames.2
      · exact .fail hadv.standing
    · exact .fail hm

/-- The names are those derived from the subject's, and they have no types. -/
theorem safe_bindDerived {op : CollectionOp} {name : String} {result : Value} (hm : D.Standing m)
    (hop : op.isMutating = false) (hnames : untyped (op.derivedNames name) ⊆ names)
    (hresult : D.Val result m.heap) :
    D.Safe names false (bindDerived op name result) m fun _ _ => True := by
  rw [untyped_subset_iff, derivedNames, hop] at hnames
  unfold bindDerived
  refine (Safe.define hm (hnames _ (List.mem_cons_self ..)) hresult (by simp)).bind ?_
  intro _ m₁ hadv _
  split
  · next hlin =>
    split
    · next kind id =>
      refine .read_bind ?_
      refine .defineAll hadv.standing ?_ ?_
      · intro row hrow
        have hpart := (List.of_mem_zip hrow).1
        exact hnames row.1 (by simpa [hlin] using Or.inr hpart)
      · intro row hrow
        exact hadv.standing.vals_read (hadv.val hresult) row.2 (List.of_mem_zip hrow).2
    · exact .pure hadv.standing trivial
  · exact .pure hadv.standing trivial

/-- The declared type of the subject is read and nothing else. -/
theorem subjectType_bind {β : Type} {e : Expr} {next : Option Ty → Run β} {R : β → Heap → Prop}
    (h : ∀ ty, D.Safe names false (next ty) m R) :
    D.Safe names false (subjectType e >>= next) m R := by
  cases e with
  | ident name p => exact .declared?_bind (h _)
  | _ => exact h none

/-- **Operations behind a dot,** from the subject over the arguments to the names they
bind. -/
theorem safe_eval (hself : D.Obeyed self) {op : CollectionOp} {subject : Expr} {args : List Expr}
    {named : List (String × Expr)} {p : Place} {line : Nat} (hm : D.Standing m)
    (hnames : untyped (Expr.collection op subject args named p).derived ⊆ names) :
    D.Safe names false (op.eval self subject args named line) m D.Val := by
  simp only [Expr.derived, untyped_append, Set.union_subset_iff] at hnames
  obtain ⟨⟨⟨hsubject, hargs⟩, hnamed⟩, hderived⟩ := hnames
  unfold eval
  refine (hself.eval hm hsubject).bind ?_
  intro target m₁ h₁ htarget
  split
  · exact .fail h₁.standing
  refine (Doer.safe_evalAll hself h₁.standing hargs).bind ?_
  intro vs m₂ h₂ hvs
  refine (safe_mutateFlag hself h₂.standing hnamed).bind ?_
  intro mutate m₃ h₃ _
  refine subjectType_bind ?_
  intro declared
  refine (safe_apply hself h₃.standing (h₃.val (h₂.val htarget)) (h₃.vals hvs)).bind ?_
  intro result m₄ h₄ hresult
  split
  · next name _ =>
    split
    · exact .pure h₄.standing hresult
    · next hop =>
      simp only [Bool.or_eq_true, not_or, Bool.not_eq_true] at hop
      refine (safe_bindDerived h₄.standing hop.1 hderived hresult).bind ?_
      intro _ m₅ h₅ _
      exact .pure h₅.standing (h₅.val hresult)
  · exact .pure h₄.standing hresult

end CollectionOp

end SeqScript
