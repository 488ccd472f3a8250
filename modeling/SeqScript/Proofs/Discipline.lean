import SeqScript.Eval.Call
import SeqScript.Proofs.Footprint
import SeqScript.Proofs.Provenance

/-!
# Disciplines

A discipline is something that is to be true of the heap and the scopes all the
time, together with something that is to be true of every value at hand, such
as one that a run has just computed and not yet stored. Its laws say that the
few writes the evaluator knows keep it, each under the condition the evaluator
checks first: a value enters a store only if the store does not occur in it, and
a variable only if its declared type admits it. Only the stores of values at hand
are read and written.

`Safe` is what a run under a discipline promises, whether it ends with a value
or is cut off by a fault. The machine it leaves is back in the frame and at the
depth it started from, it has declared nothing but the given names, and the
discipline still holds. A run that is cut off has no return under way either.

The rules of this module are about the operations of the machine. That every
task keeps every discipline is proved from them in the modules that follow, one
for each part of the evaluator. Disciplines themselves are given where something
is to be proved of all runs; `Discipline.vacuous` asks nothing and is used for
what `Safe` says anyway.
-/

namespace SeqScript

/-- Something to be kept by every run. -/
structure Discipline where
  /-- What holds of the heap, the scopes and the current frame. -/
  Holds : Heap → Scopes → FrameId → Prop
  /-- What holds of a value at hand. -/
  Val : Value → Heap → Prop
  -- Where values at hand come from.
  val_grow : ∀ {h h' v}, h.size ≤ h'.size → Val v h → Val v h'
  val_plain : ∀ {h v}, v.store? = none → Val v h
  val_bound : ∀ {h s f g name b}, Holds h s f → s.local? g name = some b → Val b.value h
  val_element : ∀ {h s f kind id v}, Holds h s f → Val (.seq kind id) h → v ∈ h.read id → Val v h
  val_newSeq : ∀ {h s f kind items}, Holds h s f →
    Val (h.newSeq kind items).1 (h.newSeq kind items).2
  val_conform : ∀ {h s f ty v c}, Holds h s f → Val v h → conform ty v h = some c →
    Val c.value c.heap
  -- What may happen to the heap.
  holds_newSeq : ∀ {h s f kind items}, Holds h s f → (∀ v ∈ items, Val v h) →
    Holds (h.newSeq kind items).2 s f
  holds_conform : ∀ {h s f ty v c}, Holds h s f → Val v h → conform ty v h = some c →
    Holds c.heap s f
  holds_part : ∀ {h s f kind id} {items : List Value}, Holds h s f → Val (.seq kind id) h →
    (∀ v ∈ items, v ∈ h.read id) → Holds (h.write id items.toArray) s f
  holds_append : ∀ {h s f kind id v}, Holds h s f → Val (.seq kind id) h → Val v h →
    h.mentions id v = false → Holds (h.modify id (·.push v)) s f
  holds_element : ∀ {h s f kind id declared op index v w}, Holds h s f → Val (.seq kind id) h →
    Val v h → elementWrite h id declared op index v = .ok w →
    Holds (w.heap.modify id (·.setIfInBounds w.index w.value)) s f
  holds_replace : ∀ {h s f kind id declared items ws h'}, Holds h s f → Val (.seq kind id) h →
    (∀ v ∈ items, Val v h) → insertable id declared items h = .ok (ws, h') →
    Holds (h'.write id ws.toArray) s f
  -- What may happen to the scopes.
  holds_enter : ∀ {h s f p}, Holds h s f → Holds h (s.child p).2 (s.child p).1
  holds_leave : ∀ {h h' s s' f g}, Holds h s f → s.size ≤ s'.size → Holds h' s' g → Holds h' s' f
  holds_define : ∀ {h s f name v ty}, Holds h s f → Val v h → (∀ t, ty = some t → t.Admits v) →
    Holds h (s.define f name v ty) f
  /-- The type is asked for before the value is computed, in scopes `s₀`; the
  condition is void if the current frame did not exist then. -/
  holds_assign : ∀ {h₀ s₀ h s f name v}, Holds h₀ s₀ f → Holds h s f → Val v h →
    (f < s₀.size → ∀ t, s.declared? f name = some t → t.Admits v) →
    Holds h (s.assign f name v).2 f

namespace Discipline

variable (D : Discipline)

theorem val_data {v : Value} {h : Heap} (hv : v.isData = true) : D.Val v h :=
  D.val_plain (Value.store?_of_isData hv)

/-- Values that are all at hand. -/
def Vals (vs : List Value) (h : Heap) : Prop := ∀ v ∈ vs, D.Val v h

theorem Vals.head {D : Discipline} {v : Value} {vs : List Value} {h : Heap}
    (hvs : D.Vals (v :: vs) h) : D.Val v h :=
  hvs v (List.mem_cons_self ..)

/-- The discipline holds of a machine. -/
structure Standing (m : Machine) : Prop where
  holds : D.Holds m.heap m.scopes m.frame
  pending : ∀ v, m.pending = some v → D.Val v m.heap

/-- `m'` is a machine that `m` may become while no return is set off. -/
structure Advance (names : Scopes.Names) (m m' : Machine) : Prop where
  step : m.Extends names m'
  standing : D.Standing m'
  pending : m'.pending = m.pending

/-- What a run promises that starts in `m`. If `returns` is true it may set off
a return. -/
def Safe {α : Type} (names : Scopes.Names) (returns : Bool) (act : Run α) (m : Machine)
    (Q : α → Heap → Prop) : Prop :=
  match act m with
  | .ok a m' => m.Extends names m' ∧ D.Standing m' ∧
      (m'.pending = m.pending ∨ returns = true ∧ m'.pending.isSome = true) ∧ Q a m'.heap
  | .error _ m' => D.Advance names m m'

variable {D} {α β : Type} {names : Scopes.Names} {returns : Bool} {m m₁ m₂ : Machine}

-- ---------------------------------------------------------------------------
-- Going on
-- ---------------------------------------------------------------------------

namespace Advance

/-- Doing nothing is going on. -/
theorem refl (names : Scopes.Names) (hm : D.Standing m) : D.Advance names m m :=
  ⟨.refl names m, hm, rfl⟩

/-- Going on twice is going on. -/
theorem trans (h₁ : D.Advance names m m₁) (h₂ : D.Advance names m₁ m₂) : D.Advance names m m₂ :=
  ⟨h₁.step.trans h₂.step, h₂.standing, h₂.pending.trans h₁.pending⟩

/-- A value at hand stays at hand, since the heap only grows. -/
theorem val (h : D.Advance names m m₁) {v : Value} (hv : D.Val v m.heap) : D.Val v m₁.heap :=
  D.val_grow h.step.heap hv

theorem vals (h : D.Advance names m m₁) {vs : List Value} (hvs : D.Vals vs m.heap) :
    D.Vals vs m₁.heap :=
  fun v hv => h.val (hvs v hv)

end Advance

namespace Standing

/-- What a name is bound to is at hand. -/
theorem val_lookup? (hm : D.Standing m) {name : String} {b : Binding}
    (hb : m.scopes.lookup? m.frame name = some b) : D.Val b.value m.heap := by
  obtain ⟨o, -, ho⟩ := Option.bind_eq_some_iff.mp hb
  exact D.val_bound hm.holds ho

/-- So are the elements of a sequence that is. -/
theorem vals_read (hm : D.Standing m) {kind : SeqKind} {id : SeqId}
    (hid : D.Val (.seq kind id) m.heap) : D.Vals (m.heap.read id).toList m.heap :=
  fun _ hv => D.val_element hm.holds hid (Array.mem_toList_iff.mp hv)

end Standing

namespace Safe

variable {act : Run α} {next : α → Run β} {Q Q' : α → Heap → Prop} {R : β → Heap → Prop}

/-- What a run has kept to that ends with a value. -/
theorem of_ok {a : α} (hsafe : D.Safe names returns act m Q) (hok : act m = .ok a m₁) :
    D.Standing m₁ ∧ Q a m₁.heap := by
  unfold Safe at hsafe
  rw [hok] at hsafe
  exact ⟨hsafe.2.1, hsafe.2.2.2⟩

theorem pure {a : α} (hm : D.Standing m) (ha : Q a m.heap) :
    D.Safe names returns (Pure.pure a) m Q :=
  ⟨.refl names m, hm, Or.inl rfl, ha⟩

theorem throw {e : Stop} (hm : D.Standing m) : D.Safe names returns (throw e) m Q :=
  .refl names hm

/-- A fault promises nothing of a value. -/
theorem fail {line : Nat} {cause : Cause} (hm : D.Standing m) :
    D.Safe names returns (Run.fail line cause) m Q :=
  .refl names hm

/-- What a run does that has already come as far as `m₁`. -/
private theorem resume {act act' : Run α} (hadv : D.Advance names m m₁) (heq : act m = act' m₁)
    (h : D.Safe names returns act' m₁ Q) : D.Safe names returns act m Q := by
  unfold Safe at h ⊢
  rw [heq]
  cases hrun : act' m₁ with
  | error e m₂ =>
    rw [hrun] at h
    exact hadv.trans h
  | ok a m₂ =>
    rw [hrun] at h
    obtain ⟨hstep, hstanding, hpending, hQ⟩ := h
    exact ⟨hadv.step.trans hstep, hstanding, hadv.pending ▸ hpending, hQ⟩

/-- A run goes on from the machine that its first part leaves. -/
theorem bind (hact : D.Safe names false act m Q)
    (hnext : ∀ a m₁, D.Advance names m m₁ → Q a m₁.heap → D.Safe names returns (next a) m₁ R) :
    D.Safe names returns (act >>= next) m R := by
  unfold Safe at hact
  cases hrun : act m with
  | error e m₁ =>
    rw [hrun] at hact
    unfold Safe
    simp only [Bind.bind, EStateM.bind, hrun]
    exact hact
  | ok a m₁ =>
    rw [hrun] at hact
    obtain ⟨hstep, hstanding, hpending, hQ⟩ := hact
    have hadv : D.Advance names m m₁ := ⟨hstep, hstanding, by simpa using hpending⟩
    exact resume hadv (by simp [Bind.bind, EStateM.bind, hrun]) (hnext a m₁ hadv hQ)

/-- A run may be said to declare more, to set off a return, and to promise less
of its value. -/
private theorem weaken {names' : Scopes.Names} {returns' : Bool}
    (h : D.Safe names' returns' act m Q) (hsub : names' ⊆ names)
    (hreturns : returns' = true → returns = true) (hQ : ∀ a h, Q a h → Q' a h) :
    D.Safe names returns act m Q' := by
  unfold Safe at h ⊢
  cases hrun : act m with
  | error e m₁ =>
    rw [hrun] at h
    exact ⟨h.step.mono hsub, h.standing, h.pending⟩
  | ok a m₁ =>
    rw [hrun] at h
    obtain ⟨hstep, hstanding, hpending, ha⟩ := h
    exact ⟨hstep.mono hsub, hstanding, hpending.imp_right fun hp => ⟨hreturns hp.1, hp.2⟩,
      hQ a _ ha⟩

/-- A weaker promise about the value. -/
theorem imp (h : D.Safe names returns act m Q) (hQ : ∀ a h, Q a h → Q' a h) :
    D.Safe names returns act m Q' :=
  h.weaken Set.Subset.rfl id hQ

/-- More names may be declared than are. -/
theorem mono {names' : Scopes.Names} (h : D.Safe names' returns act m Q) (hsub : names' ⊆ names) :
    D.Safe names returns act m Q :=
  h.weaken hsub id fun _ _ ha => ha

/-- A run that sets off no return is one that may. -/
theorem lift (h : D.Safe names false act m Q) : D.Safe names returns act m Q :=
  h.weaken Set.Subset.rfl (by simp) fun _ _ ha => ha

/-- A run whose value is replaced at the end. -/
theorem bind_pure {f : α → β} (h : D.Safe names returns act m Q)
    (hR : ∀ a h, Q a h → R (f a) h) :
    D.Safe names returns (do let a ← act; return f a) m R := by
  unfold Safe at h ⊢
  simp only [Bind.bind, EStateM.bind]
  cases hrun : act m with
  | error e m₁ => rwa [hrun] at h
  | ok a m₁ =>
    rw [hrun] at h
    exact ⟨h.1, h.2.1, h.2.2.1, hR _ _ h.2.2.2⟩

-- ---------------------------------------------------------------------------
-- Reading
-- ---------------------------------------------------------------------------

theorem get_bind {next : Machine → Run β} (h : D.Safe names returns (next m) m R) :
    D.Safe names returns (get >>= next) m R := h

theorem heap_bind {next : Heap → Run β} (h : D.Safe names returns (next m.heap) m R) :
    D.Safe names returns (Run.heap >>= next) m R := h

theorem read_bind {id : SeqId} {next : List Value → Run β}
    (h : D.Safe names returns (next (m.heap.read id).toList) m R) :
    D.Safe names returns (Run.read id >>= next) m R := h

theorem lookup?_bind {name : String} {next : Option Binding → Run β}
    (h : D.Safe names returns (next (m.scopes.lookup? m.frame name)) m R) :
    D.Safe names returns (Run.lookup? name >>= next) m R := h

theorem declared?_bind {name : String} {next : Option Ty → Run β}
    (h : D.Safe names returns (next (m.scopes.declared? m.frame name)) m R) :
    D.Safe names returns (Run.declared? name >>= next) m R := h

/-- A computation without effects goes on or faults. -/
theorem charge_bind {line : Nat} {x : Except Cause α} (hm : D.Standing m)
    (h : ∀ a, x = .ok a → D.Safe names returns (next a) m R) :
    D.Safe names returns (Run.charge line x >>= next) m R := by
  cases x with
  | error cause => exact Safe.fail hm (Q := R)
  | ok a => exact h a rfl

theorem charge {line : Nat} {x : Except Cause α} (hm : D.Standing m)
    (h : ∀ a, x = .ok a → Q a m.heap) : D.Safe names returns (Run.charge line x) m Q := by
  cases x with
  | error cause => exact Safe.fail hm
  | ok a => exact Safe.pure hm (h a rfl)

/-- A name that is read gives a value at hand. -/
theorem valueOf {line : Nat} {name : String} {cause : Cause} (hm : D.Standing m) :
    D.Safe names returns (Run.valueOf line name cause) m D.Val := by
  refine lookup?_bind ?_
  cases hb : m.scopes.lookup? m.frame name with
  | none => exact .fail hm
  | some b => exact .pure hm (hm.val_lookup? hb)

/-- A sequence that is looked up shows the elements of its store. -/
theorem sequence_bind {line : Nat} {cause : Kind → Cause} {v : Value}
    {next : Run.Snapshot → Run β} (hm : D.Standing m)
    (h : ∀ kind id, v = .seq kind id →
      D.Safe names returns (next ⟨kind, id, (m.heap.read id).toList⟩) m R) :
    D.Safe names returns (Run.sequence line cause v >>= next) m R := by
  cases v with
  | seq kind id => exact h kind id rfl
  | _ => exact Safe.fail hm (Q := R)

-- ---------------------------------------------------------------------------
-- Writing
-- ---------------------------------------------------------------------------

/-- A run that changes the heap only. -/
private theorem ofHeap {act : Run α} {a : α} {h : Heap} (hm : D.Standing m)
    (hact : act m = .ok a { m with heap := h }) (hsize : m.heap.size ≤ h.size)
    (hholds : D.Holds h m.scopes m.frame) (hQ : Q a h) : D.Safe names returns act m Q := by
  unfold Safe
  rw [hact]
  exact ⟨⟨rfl, rfl, hsize, .refl ..⟩,
    ⟨hholds, fun v hv => D.val_grow hsize (hm.pending v hv)⟩, Or.inl rfl, hQ⟩

/-- A run that changes the scopes only. -/
private theorem ofScopes {act : Run α} {a : α} {s : Scopes} (hm : D.Standing m)
    (hact : act m = .ok a { m with scopes := s })
    (hstep : m.scopes.Extends names m.frame s) (hholds : D.Holds m.heap s m.frame)
    (hQ : Q a m.heap) : D.Safe names returns act m Q := by
  unfold Safe
  rw [hact]
  exact ⟨⟨rfl, rfl, Nat.le_refl _, hstep⟩, ⟨hholds, hm.pending⟩, Or.inl rfl, hQ⟩

/-- A new store may hold what is at hand. -/
theorem newSeq {kind : SeqKind} {items : List Value} (hm : D.Standing m)
    (hitems : D.Vals items m.heap) :
    D.Safe names returns (Run.newSeq kind items) m D.Val := by
  have hholds : D.Holds (m.heap.newSeq kind items).2 m.scopes m.frame :=
    D.holds_newSeq hm.holds hitems
  exact ofHeap hm rfl (Heap.Grows.newSeq m.heap kind items).size_le hholds (D.val_newSeq hm.holds)

/-- A store is changed if the discipline bears it. -/
theorem update {id : SeqId} {f : Array Value → Array Value} (hm : D.Standing m)
    (hholds : D.Holds (m.heap.modify id f) m.scopes m.frame) :
    D.Safe names returns (Run.update id f) m fun _ _ => True :=
  ofHeap hm rfl (by simp) hholds trivial

theorem setHeap {h : Heap} (hm : D.Standing m) (hsize : m.heap.size ≤ h.size)
    (hholds : D.Holds h m.scopes m.frame) :
    D.Safe names returns (Run.setHeap h) m fun _ _ => True :=
  ofHeap hm rfl hsize hholds trivial

/-- The new heap may hold for a moment what the write then puts right. -/
theorem setHeap_update {h : Heap} {id : SeqId} {f : Array Value → Array Value}
    (hm : D.Standing m) (hsize : m.heap.size ≤ h.size)
    (hholds : D.Holds (h.modify id f) m.scopes m.frame) :
    D.Safe names returns (do Run.setHeap h; Run.update id f) m fun _ _ => True :=
  ofHeap hm rfl (by simpa using hsize) hholds trivial

/-- A value made to fit a type is at hand, and the type admits it. -/
theorem assignable {line : Nat} {ty : Ty} {v : Value} (hm : D.Standing m)
    (hv : D.Val v m.heap) :
    D.Safe names returns (Run.assignable line ty v) m fun w h => D.Val w h ∧ ty.Admits w := by
  refine heap_bind ?_
  refine charge_bind hm ?_
  rintro ⟨w, h⟩ hok
  obtain ⟨c, hc, rfl, rfl⟩ := conform_of_assignable hok
  exact ofHeap hm rfl (conform_grows hc).size_le (D.holds_conform hm.holds hv hc)
    ⟨D.val_conform hm.holds hv hc, conform_admits hc⟩

theorem assignable? {line : Nat} {ty : Option Ty} {v : Value} (hm : D.Standing m)
    (hv : D.Val v m.heap) :
    D.Safe names returns (Run.assignable? line ty v) m
      fun w h => D.Val w h ∧ ∀ t, ty = some t → t.Admits w := by
  cases ty with
  | none => exact .pure hm ⟨hv, by simp⟩
  | some t =>
    refine (assignable hm hv).imp ?_
    rintro w h ⟨hw, hadmits⟩
    refine ⟨hw, ?_⟩
    rintro _ ⟨⟩
    exact hadmits

/-- A name is declared with a value that its type admits. -/
theorem define {name : String} {v : Value} {ty : Option Ty} (hm : D.Standing m)
    (hname : (name, ty) ∈ names) (hv : D.Val v m.heap) (hty : ∀ t, ty = some t → t.Admits v) :
    D.Safe names returns (Run.define name v ty) m fun _ _ => True :=
  ofScopes hm rfl (.define hname) (D.holds_define hm.holds hv hty) trivial

/-- The run lemma of binding names, one after the other and without types. -/
theorem defineAll {rows : List (String × Value)} (hm : D.Standing m)
    (hnames : ∀ row ∈ rows, (row.1, none) ∈ names) (hrows : ∀ row ∈ rows, D.Val row.2 m.heap) :
    D.Safe names returns (Run.defineAll rows) m fun _ _ => True := by
  induction rows generalizing m with
  | nil => exact .pure hm trivial
  | cons row rest ih =>
    refine (define hm (hnames row (List.mem_cons_self ..)) (hrows row (List.mem_cons_self ..))
      (by simp)).bind ?_
    intro _ m₁ hadv _
    refine ih hadv.standing (fun r hr => hnames r (List.mem_cons_of_mem _ hr)) ?_
    exact fun r hr => hadv.val (hrows r (List.mem_cons_of_mem _ hr))

/-- `h₀` and `s₀` are those of the moment at which the type was asked for. -/
theorem assign {name : String} {v : Value} {h₀ : Heap} {s₀ : Scopes} (hm : D.Standing m)
    (hbefore : D.Holds h₀ s₀ m.frame)
    (hname : m.scopes.lookup? m.frame name = none → (name, none) ∈ names)
    (hv : D.Val v m.heap)
    (hty : m.frame < s₀.size → ∀ t, m.scopes.declared? m.frame name = some t → t.Admits v) :
    D.Safe names returns (Run.assign name v) m fun _ _ => True :=
  ofScopes hm rfl (.assign hname) (D.holds_assign hbefore hm.holds hv hty) trivial

theorem newClosure {code : Code} (hm : D.Standing m) :
    D.Safe names returns (Run.newClosure code) m D.Val :=
  ⟨⟨rfl, rfl, Nat.le_refl _, .refl ..⟩, ⟨hm.holds, hm.pending⟩, Or.inl rfl, D.val_plain rfl⟩

theorem print {vs : List Value} (hm : D.Standing m) :
    D.Safe names returns (Run.print vs) m fun _ _ => True :=
  ⟨⟨rfl, rfl, Nat.le_refl _, .refl ..⟩, ⟨hm.holds, hm.pending⟩, Or.inl rfl, trivial⟩

theorem play {notes : List Value} (hm : D.Standing m) :
    D.Safe names returns (Run.play notes) m fun _ _ => True :=
  ⟨⟨rfl, rfl, Nat.le_refl _, .refl ..⟩, ⟨hm.holds, hm.pending⟩, Or.inl rfl, trivial⟩

-- ---------------------------------------------------------------------------
-- Returns
-- ---------------------------------------------------------------------------

/-- A return puts aside a value at hand. -/
theorem setPending {v : Value} (hm : D.Standing m) (hv : D.Val v m.heap) :
    D.Safe names true (Run.setPending v) m fun _ _ => True := by
  refine ⟨⟨rfl, rfl, Nat.le_refl _, .refl ..⟩, ⟨hm.holds, ?_⟩, Or.inr ⟨rfl, rfl⟩, trivial⟩
  rintro _ ⟨⟩
  exact hv

/-- After a part that may have set off a return, the rest is done only if it has
not. -/
theorem bind_returning {act : Run α} {stop : α → β} {next : α → Run β} {Q : α → Heap → Prop}
    {R : β → Heap → Prop} (hact : D.Safe names true act m Q)
    (hstop : ∀ a h, Q a h → R (stop a) h)
    (hgo : ∀ a m₁, D.Advance names m m₁ → Q a m₁.heap → D.Safe names true (next a) m₁ R) :
    D.Safe names true
      (do let a ← act; if ← Run.returning then return stop a else next a) m R := by
  unfold Safe at hact
  cases hrun : act m with
  | error e m₁ =>
    rw [hrun] at hact
    unfold Safe
    simp only [Bind.bind, EStateM.bind, hrun]
    exact hact
  | ok a m₁ =>
    rw [hrun] at hact
    obtain ⟨hstep, hstanding, hpending, hQ⟩ := hact
    -- the rest of the run, with the test for a return before it
    have hrest : (do let a ← act; if ← Run.returning then return stop a else next a : Run β) m =
        (if m₁.pending.isSome then (return stop a : Run β) else next a) m₁ := by
      simp only [Bind.bind, EStateM.bind, hrun]
      rfl
    cases hret : m₁.pending.isSome with
    | true =>
      unfold Safe
      rw [hrest, hret]
      exact ⟨hstep, hstanding, hpending, hstop a _ hQ⟩
    | false =>
      have hadv : D.Advance names m m₁ := ⟨hstep, hstanding, by simpa [hret] using hpending⟩
      exact resume hadv (by rw [hrest, hret]; rfl) (hgo a m₁ hadv hQ)

/-- Where no return was under way, none is left once it has been taken up. -/
theorem bind_takePending {act : Run Value} (hm : m.pending = none)
    (hact : D.Safe names true act m D.Val) :
    D.Safe names returns (do let last ← act; Run.takePending last) m D.Val := by
  unfold Safe at hact ⊢
  simp only [Bind.bind, EStateM.bind]
  cases hrun : act m with
  | error e m₁ =>
    rw [hrun] at hact
    exact hact
  | ok a m₁ =>
    rw [hrun] at hact
    obtain ⟨hstep, hstanding, -, ha⟩ := hact
    refine ⟨⟨hstep.frame, hstep.depth, hstep.heap, hstep.scopes⟩, ⟨hstanding.holds, by simp⟩,
      Or.inl hm.symm, ?_⟩
    show D.Val (m₁.pending.getD a) m₁.heap
    cases hp : m₁.pending with
    | none => exact ha
    | some v => exact hstanding.pending v hp

-- ---------------------------------------------------------------------------
-- Frames and calls
-- ---------------------------------------------------------------------------

/-- What is run in a new frame declares nothing in any frame that was there
before, whatever it declares in its own. -/
private theorem leave (names : Scopes.Names) {p : FrameId} (hm : D.Standing m)
    (hscopes : m₁.scopes = (m.scopes.child p).2)
    (hframe : m₁.frame = m.scopes.size) (hheap : m₁.heap = m.heap)
    (hstep : m₁.Extends Set.univ m₂) (hstanding : D.Standing m₂) :
    m.heap.size ≤ m₂.heap.size ∧ m.scopes.Extends names m.frame m₂.scopes ∧
      D.Holds m₂.heap m₂.scopes m.frame := by
  have hinner := hstep.scopes
  rw [hscopes, hframe] at hinner
  have houter : m.scopes.Extends names m.frame m₂.scopes :=
    ((Scopes.Extends.child Set.univ m.scopes.size p m.scopes).trans hinner).of_later
      (Nat.le_refl _)
  exact ⟨hheap ▸ hstep.heap, houter, D.holds_leave hm.holds houter.size_le hstanding.holds⟩

/-- A block may declare any names, since its frame is left behind. -/
theorem scope {act : Run α} {Q : α → Heap → Prop} (hm : D.Standing m)
    (hact : ∀ m₁, D.Standing m₁ → m₁.heap = m.heap → D.Safe Set.univ returns act m₁ Q) :
    D.Safe names returns (do let f ← Run.newFrame; Run.inFrame f act) m Q := by
  obtain ⟨m₁, hm₁⟩ : ∃ m₁ : Machine,
      m₁ = { m with scopes := (m.scopes.child m.frame).2, frame := m.scopes.size } := ⟨_, rfl⟩
  have hin : D.Standing m₁ := hm₁ ▸ ⟨D.holds_enter hm.holds, hm.pending⟩
  have hsafe := hact m₁ hin (by rw [hm₁])
  have heq : (do let f ← Run.newFrame; Run.inFrame f act : Run α) m =
      Run.restoring (fun m' => { m' with frame := m.frame }) act m₁ := by
    rw [hm₁]
    rfl
  have hsame : m₁.pending = m.pending := by rw [hm₁]
  have hback : ∀ m₂, m₁.Extends Set.univ m₂ → D.Standing m₂ →
      m.Extends names { m₂ with frame := m.frame } ∧ D.Standing { m₂ with frame := m.frame } := by
    intro m₂ hstep hstanding
    obtain ⟨hheap, hscopes, hholds⟩ := leave names hm (by rw [hm₁]) (by rw [hm₁])
      (by rw [hm₁]) hstep hstanding
    have hdepth : m₂.depth = m.depth := hstep.depth.trans (by rw [hm₁])
    exact ⟨⟨rfl, hdepth, hheap, hscopes⟩, ⟨hholds, hstanding.pending⟩⟩
  unfold Safe at hsafe ⊢
  rw [heq, Run.restoring]
  cases hrun : act m₁ with
  | error e m₂ =>
    rw [hrun] at hsafe
    obtain ⟨hstep, hstanding⟩ := hback m₂ hsafe.step hsafe.standing
    exact ⟨hstep, hstanding, hsafe.pending.trans hsame⟩
  | ok a m₂ =>
    rw [hrun] at hsafe
    obtain ⟨hstep, hstanding, hpending, hQ⟩ := hsafe
    obtain ⟨hstep, hstanding⟩ := hback m₂ hstep hstanding
    exact ⟨hstep, hstanding, hsame ▸ hpending, hQ⟩

/-- A call begins with no return under way and may set off one, which is ended
by what follows. -/
theorem call {p : FrameId} {act : Run α} {Q : α → Heap → Prop} (hm : D.Standing m)
    (hact : ∀ m₁, D.Standing m₁ → m₁.heap = m.heap → m₁.pending = none →
      D.Safe Set.univ true act m₁ Q) :
    D.Safe names returns (do let f ← Run.childOf p; Run.inCall f act) m Q := by
  obtain ⟨m₁, hm₁⟩ : ∃ m₁ : Machine,
      m₁ = { m with
        scopes := (m.scopes.child p).2, frame := m.scopes.size, depth := m.depth + 1,
        pending := none } := ⟨_, rfl⟩
  have hin : D.Standing m₁ := hm₁ ▸ ⟨D.holds_enter hm.holds, by simp⟩
  have hsafe := hact m₁ hin (by rw [hm₁]) (by rw [hm₁])
  have heq : (do let f ← Run.childOf p; Run.inCall f act : Run α) m =
      Run.restoring
        (fun m' => { m' with frame := m.frame, depth := m'.depth - 1, pending := m.pending })
        act m₁ := by
    rw [hm₁]
    rfl
  -- what the call leaves, with or without a value, once the registers are put back
  have hback : ∀ m₂, m₁.Extends Set.univ m₂ → D.Standing m₂ →
      D.Advance names m
        { m₂ with frame := m.frame, depth := m₂.depth - 1, pending := m.pending } := by
    intro m₂ hstep hstanding
    obtain ⟨hheap, hscopes, hholds⟩ := leave names hm (by rw [hm₁]) (by rw [hm₁])
      (by rw [hm₁]) hstep hstanding
    have hdepth : m₂.depth = m.depth + 1 := hstep.depth.trans (by rw [hm₁])
    refine ⟨⟨rfl, ?_, hheap, hscopes⟩, ⟨hholds, ?_⟩, rfl⟩
    · show m₂.depth - 1 = m.depth
      omega
    · intro v hv
      exact D.val_grow hheap (hm.pending v hv)
  unfold Safe at hsafe ⊢
  rw [heq, Run.restoring]
  cases hrun : act m₁ with
  | error e m₂ =>
    rw [hrun] at hsafe
    exact hback m₂ hsafe.step hsafe.standing
  | ok a m₂ =>
    rw [hrun] at hsafe
    obtain ⟨hstep, hstanding, -, hQ⟩ := hsafe
    have hadv := hback m₂ hstep hstanding
    exact ⟨hadv.step, hadv.standing, Or.inl rfl, hQ⟩

end Safe

end Discipline

-- ---------------------------------------------------------------------------
-- Tasks
-- ---------------------------------------------------------------------------

namespace Task

/-- The values a task is given. -/
def values : Task → List Value
  | call _ args _ => args
  | eval .. | exec .. => []

/-- Only statements set off returns. -/
def returns : Task → Bool
  | exec _ => true
  | eval .. | call .. => false

end Task

namespace Discipline

/-- Every task done in this way keeps the discipline. -/
def Obeyed (D : Discipline) (self : Doer) : Prop :=
  ∀ t m, D.Standing m → D.Vals t.values m.heap → D.Safe (t.names m) t.returns (self t) m D.Val

variable {D : Discipline} {self : Doer} {names : Scopes.Names} {returns : Bool} {m : Machine}

/-- An expression declares the names derived in it at most. -/
theorem Obeyed.eval (hself : D.Obeyed self) {hint : Option Ty} {e : Expr} (hm : D.Standing m)
    (hnames : untyped e.derived ⊆ names) :
    D.Safe names returns (self (.eval hint e)) m D.Val :=
  ((hself (.eval hint e) m hm (by simp [Task.values, Vals])).mono hnames).lift

/-- A call declares none that its caller could see. -/
theorem Obeyed.call (hself : D.Obeyed self) {f : Value} {args : List Value} {line : Nat}
    (hm : D.Standing m) (hargs : D.Vals args m.heap) :
    D.Safe names returns (self (.call f args line)) m D.Val :=
  ((hself (.call f args line) m hm hargs).mono (Set.empty_subset names)).lift

end Discipline

end SeqScript
