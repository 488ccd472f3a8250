import SeqScript.Proofs.Nesting
import SeqScript.Proofs.Reachable

/-!
# No sequence is ever nested in itself

Three writes put values into stores that are there already: an assignment to an
element, `append`, and `map` or `filter` told to write over their subject. Each
asks first whether the store occurs in the value. But between the question and
the write a declared type may ask for copies, and `map` and `filter` ask for one
value after another while copies are made. `StandsIn` says what a copy may hold:
of the stores that were there before, only those that occur in the original. So
the answer stays good, and the write keeps the heap sound (`Inserts.sound`).

The main result is `sequences_never_nested`.
-/

namespace SeqScript

namespace Heap

variable {h h₁ h₂ : Heap} {v w : Value}

-- ---------------------------------------------------------------------------
-- Copies
-- ---------------------------------------------------------------------------

/-- `w` may be stored in the later heap `h'` in place of `v`: of the stores of
`h`, only those occur in it that occur in `v`. -/
structure StandsIn (h : Heap) (v : Value) (h' : Heap) (w : Value) : Prop where
  sound : h'.Sound
  known : h'.Known w
  occurs : ∀ store < h.size, h'.Occurs store w → h.Occurs store v

namespace StandsIn

theorem refl (hs : h.Sound) (hv : h.Known v) : h.StandsIn v h v := ⟨hs, hv, fun _ _ hocc => hocc⟩

theorem plain (hs : h.Sound) (hw : w.store? = none) : h.StandsIn v h w :=
  ⟨hs, known_of_plain hw, fun _ _ hocc => absurd hocc (not_occurs_of_plain hw)⟩

theorem later (hst : h.StandsIn v h₁ w) (hgrows : h₁.Grows h₂) (hs : h₂.Sound) :
    h.StandsIn v h₂ w where
  sound := hs
  known := hst.known.mono hgrows.size_le
  occurs store hstore hocc :=
    hst.occurs store hstore (hst.sound.occurs_of_grows hgrows hst.known hocc)

theorem earlier (hst : h₁.StandsIn v h₂ w) (hgrows : h.Grows h₁) (hs : h.Sound)
    (hv : h.Known v) : h.StandsIn v h₂ w where
  sound := hst.sound
  known := hst.known
  occurs store hstore hocc :=
    hs.occurs_of_grows hgrows hv
      (hst.occurs store (Nat.lt_of_lt_of_le hstore hgrows.size_le) hocc)

end StandsIn

end Heap

open Heap

theorem conformAll_standsIn {f : Value → Heap → Option (Conformed Value)}
    (hgrows : ∀ v h c, f v h = some c → h.Grows c.heap)
    (hf : ∀ v h c, h.Sound → h.Known v → f v h = some c → h.StandsIn v c.heap c.value)
    {vs : List Value} {h : Heap} {c : Conformed (List Value)} (hs : h.Sound)
    (hvs : ∀ v ∈ vs, h.Known v) (hc : conformAll f vs h = some c) :
    c.heap.Sound ∧ ∀ w ∈ c.value, ∃ v ∈ vs, h.StandsIn v c.heap w := by
  induction vs generalizing h c with
  | nil =>
    obtain rfl := Option.some.inj hc
    exact ⟨hs, by simp⟩
  | cons v vs ih =>
    rw [conformAll] at hc
    split at hc
    · simp at hc
    next first hfirst =>
    split at hc
    · simp at hc
    next rest hrest =>
    obtain rfl := Option.some.inj hc
    have hv := hvs v (List.mem_cons_self ..)
    have hvs' : ∀ x ∈ vs, h.Known x := fun x hx => hvs x (List.mem_cons_of_mem _ hx)
    have hst := hf v h first hs hv hfirst
    have hgrow := hgrows v h first hfirst
    have hlater : first.heap.Grows rest.heap := conformAll_grows hgrows hrest
    obtain ⟨hsound, hrests⟩ := ih hst.sound (fun x hx => (hvs' x hx).mono hgrow.size_le) hrest
    refine ⟨hsound, ?_⟩
    intro w hw
    rcases List.mem_cons.mp hw with rfl | hw
    · exact ⟨v, List.mem_cons_self .., hst.later hlater hsound⟩
    · obtain ⟨x, hx, hstx⟩ := hrests w hw
      exact ⟨x, List.mem_cons_of_mem _ hx, hstx.earlier hgrow hs (hvs' x hx)⟩

/-- A new array stands in for another if every element of it stands in for one
of the other's. -/
theorem newSeq_standsIn {h h' : Heap} {id : SeqId} {kind : SeqKind} {items : List Value}
    (hgrows : h.Grows h') (hs : h'.Sound)
    (hitems : ∀ w ∈ items, ∃ v ∈ h.read id, h.StandsIn v h' w) :
    h.StandsIn (.seq kind id) (h'.newSeq kind items).2 (h'.newSeq kind items).1 := by
  have hknown : ∀ w ∈ items, h'.Known w := by
    intro w hw
    obtain ⟨v, -, hst⟩ := hitems w hw
    exact hst.known
  have hs' : (h'.newSeq kind items).2.Sound := hs.newSeq hknown
  refine ⟨hs', ?_, ?_⟩
  · rintro _ ⟨⟩
    simp
  · intro store hstore hocc
    rw [newSeq_fst, occurs_seq_iff] at hocc
    rcases hocc with rfl | ⟨w, hw, hocc⟩
    · exact absurd hgrows.size_le (Nat.not_le.mpr hstore)
    · rw [read_newSeq, if_pos rfl, List.mem_toArray] at hw
      obtain ⟨v, hv, hst⟩ := hitems w hw
      have hold := (hst.later (.newSeq h' kind items) hs').occurs store hstore hocc
      exact occurs_seq_iff.mpr (Or.inr ⟨v, hv, hold⟩)

/-- What a declared type makes of a value may be stored in its place. -/
theorem conform_standsIn {ty : Ty} {v : Value} {h : Heap} {c : Conformed Value} (hs : h.Sound)
    (hv : h.Known v) (hc : conform ty v h = some c) : h.StandsIn v c.heap c.value := by
  induction ty generalizing v h c with
  | array t ih =>
    rcases conform_cases hc with ⟨-, hplain, hheap, -⟩ | ⟨_, _, hty, -⟩ |
      ⟨t', id, items, hty, rfl, hitems, hres⟩
    · rw [hheap]
      exact .plain hs hplain
    · simp at hty
    · obtain rfl := Ty.array.inj hty
      have hgrows : h.Grows items.heap := conformAll_grows (fun _ _ _ => conform_grows) hitems
      obtain ⟨hsound, helems⟩ := conformAll_standsIn (fun _ _ _ => conform_grows)
        (fun _ _ _ hs hv => ih hs hv) hs
        (fun x hx => hs.known id x (Array.mem_toList_iff.mp hx)) hitems
      simp only [Array.mem_toList_iff] at helems
      rcases hres with rfl | rfl
      · exact (StandsIn.refl hs hv).later hgrows hsound
      · exact newSeq_standsIn hgrows hsound helems
  | _ =>
    rcases conform_cases hc with ⟨-, hplain, hheap, -⟩ | ⟨_, _, _, _, rfl⟩ | ⟨_, _, _, hty, _⟩
    · rw [hheap]
      exact .plain hs hplain
    · exact .refl hs hv
    · simp at hty

theorem assignableElement_standsIn {h h' : Heap} {container : Option Ty} {v w : Value}
    (hs : h.Sound) (hv : h.Known v) (hok : assignableElement h container v = .ok (w, h')) :
    h.StandsIn v h' w := by
  rcases conform_of_assignableElement hok with ⟨rfl, rfl⟩ | ⟨t, c, hc, rfl, rfl⟩
  · exact .refl hs hv
  · exact conform_standsIn hs hv hc

/-- Values that have been let in one after another are still free of the store
when the last one has been. -/
theorem insertable_not_occurs {store : SeqId} {declared : Option Ty} {vs ws : List Value}
    {h h' : Heap} (hs : h.Sound) (hstore : store < h.size) (hvs : ∀ v ∈ vs, h.Known v)
    (hok : insertable store declared vs h = .ok (ws, h')) :
    h'.Sound ∧ ∀ w ∈ ws, h'.Known w ∧ ¬ h'.Occurs store w := by
  induction vs generalizing h ws with
  | nil =>
    obtain ⟨rfl, rfl⟩ := Prod.mk.inj (Except.ok.inj hok)
    exact ⟨hs, by simp⟩
  | cons v vs ih =>
    obtain ⟨w, h₁, rest, rfl, hfree, hw, hrest⟩ := insertable_cons hok
    have hst := assignableElement_standsIn hs (hvs v (List.mem_cons_self ..)) hw
    have hgrows := assignableElement_grows hw
    obtain ⟨hsound, hrests⟩ := ih hst.sound (Nat.lt_of_lt_of_le hstore hgrows.size_le)
      (fun x hx => (hvs x (List.mem_cons_of_mem _ hx)).mono hgrows.size_le) hrest
    refine ⟨hsound, ?_⟩
    intro x hx
    rcases List.mem_cons.mp hx with rfl | hx
    · have hlast := hst.later (insertable_grows hrest) hsound
      rw [hs.mentions_eq_false_iff] at hfree
      exact ⟨hlast.known, fun hocc => hfree (hlast.occurs store hstore hocc)⟩
    · exact hrests x hx

-- ---------------------------------------------------------------------------
-- Writes into stores
-- ---------------------------------------------------------------------------

/-- The writes that put values into a store that is there already, each with the
checks that come before it. -/
inductive Heap.Inserts (h : Heap) : Heap → Prop
  /-- `xs[i] = v` and the compound assignments. -/
  | element {id : SeqId} {declared : Option Ty} {op : AssignOp} {index v : Value}
      {w : ElementWrite} : h.Known v → elementWrite h id declared op index v = .ok w →
    Inserts h (w.heap.modify id (·.setIfInBounds w.index w.value))
  /-- `xs.append(v)`. -/
  | append {id : SeqId} {v : Value} : h.Known v → checkInsertion h id v = .ok () →
    Inserts h (h.modify id (·.push v))
  /-- `map` and `filter` that write over their subject. -/
  | replace {id : SeqId} {declared : Option Ty} {items ws : List Value} {h' : Heap} :
    id < h.size → (∀ v ∈ items, h.Known v) → insertable id declared items h = .ok (ws, h') →
    Inserts h (h'.write id ws.toArray)

namespace Heap.Inserts

variable {h h' : Heap}

theorem size_le (hins : h.Inserts h') : h.size ≤ h'.size := by
  cases hins with
  | element _ hok =>
    obtain ⟨u, -, hu, -⟩ := elementWrite_eq_ok hok
    simpa using (assignableElement_grows hu).size_le
  | append _ _ => simp
  | replace _ _ hok => simpa [write] using (insertable_grows hok).size_le

/-- **Every write into a store keeps the heap sound.** -/
theorem sound (hs : h.Sound) (hins : h.Inserts h') : h'.Sound := by
  cases hins with
  | @element id declared op index v w hv hok =>
    obtain ⟨u, hu, hval, hfree⟩ := elementWrite_eq_ok hok
    have hknown : h.Known u :=
      hu.elim (fun heq => heq ▸ hv) fun hdata => known_of_plain (Value.store?_of_isData hdata)
    have hst := assignableElement_standsIn hs hknown hval
    refine hst.sound.modify id ?_
    intro x hx
    rcases Array.mem_or_eq_of_mem_setIfInBounds hx with hx | rfl
    · exact Or.inl hx
    · exact Or.inr ⟨hst.known, hst.sound.mentions_eq_false_iff.mp hfree⟩
  | @append id v hv hok =>
    refine hs.modify id ?_
    intro x hx
    rcases Array.mem_push.mp hx with hx | rfl
    · exact Or.inl hx
    · exact Or.inr ⟨hv, hs.mentions_eq_false_iff.mp (checkInsertion_eq_ok_iff.mp hok)⟩
  | @replace id declared items ws h' hid hitems hok =>
    obtain ⟨hsound, hws⟩ := insertable_not_occurs hs hid hitems hok
    refine hsound.modify id ?_
    intro x hx
    exact Or.inr (hws x (List.mem_toArray.mp hx))

end Heap.Inserts

-- ---------------------------------------------------------------------------
-- All moments
-- ---------------------------------------------------------------------------

/-- Every variable holds a value whose store is there. -/
def Scopes.Known (h : Heap) (s : Scopes) : Prop := s.Every fun b => h.Known b.value

theorem Scopes.Known.mono {h h' : Heap} {s : Scopes} (hs : s.Known h) (hsize : h.size ≤ h'.size) :
    s.Known h' :=
  Every.mono hs fun _ hb => Heap.Known.mono hb hsize

/-- The heap is sound, and variables and values at hand refer to nothing that is
not there. -/
def Discipline.nested : Discipline where
  Holds h s _ := h.Sound ∧ s.Known h
  Val v h := h.Known v
  val_grow hsize hv := hv.mono hsize
  val_plain := known_of_plain
  val_bound hs hb := hs.2.local? hb
  val_element hs _ hv := hs.1.known _ _ hv
  val_newSeq := by
    rintro h s f kind items - _ ⟨⟩
    simp
  val_conform hs hv hc := (conform_standsIn hs.1 hv hc).known
  holds_newSeq hs hitems := ⟨hs.1.newSeq hitems, hs.2.mono (by simp)⟩
  holds_conform hs hv hc :=
    ⟨(conform_standsIn hs.1 hv hc).sound, hs.2.mono (conform_grows hc).size_le⟩
  holds_part hs _ hitems :=
    ⟨hs.1.modify _ fun v hv => Or.inl (hitems v (List.mem_toArray.mp hv)),
      hs.2.mono (by simp [Heap.write])⟩
  holds_append hs _ hv hfree :=
    have hins := Inserts.append hv (checkInsertion_eq_ok_iff.mpr hfree)
    ⟨hins.sound hs.1, hs.2.mono hins.size_le⟩
  holds_element hs _ hv hok :=
    have hins := Inserts.element hv hok
    ⟨hins.sound hs.1, hs.2.mono hins.size_le⟩
  holds_replace hs hstore hitems hok :=
    have hins := Inserts.replace (hstore _ rfl) hitems hok
    ⟨hins.sound hs.1, hs.2.mono hins.size_le⟩
  holds_enter {_ _ _ p} hs := ⟨hs.1, hs.2.push (some p)⟩
  holds_leave _ _ hs' := hs'
  holds_define {_ _ f name _ _} hs hv _ := ⟨hs.1, hs.2.define hv f name⟩
  holds_assign _ hs hv _ := ⟨hs.1, hs.2.assign hv⟩

theorem nested_start (limit : Nat) : Discipline.nested.Standing (Session.start limit).machine where
  holds := ⟨sound_empty, Session.every_start (fun _ => known_of_plain rfl) limit⟩
  pending v hv := by simp [Session.start] at hv

/-- **No sequence is ever nested in itself.** At every moment of every session,
also after programs that failed:
* the relation between stores and the stores of their elements has no cycle;
* no write that puts values into a store makes one;
* the search for a store in a value answers yes exactly if the store is that of
  the value or of something nested in it;
* and so a recursion from values to their elements ends, and the functions that
  read values out, compare them and search them need no bound. Fitting a value to
  a type and matching it with a pattern follow the type and the pattern. -/
theorem sequences_never_nested {m : Machine} (hm : Session.Moment m) :
    m.heap.Acyclic ∧ (∀ h', m.heap.Inserts h' → h'.Acyclic) ∧
      (∀ store v, m.heap.mentions store v = true ↔ m.heap.Occurs store v) ∧
      WellFounded m.heap.ElementOf ∧ m.heap.Unbounded := by
  have hs : m.heap.Sound := (hm.standing nested_start).holds.1
  refine ⟨hs.acyclic, ?_, fun _ _ => hs.mentions_iff, hs.wellFounded_elementOf, hs.unbounded⟩
  intro h' hins
  exact (hins.sound hs).acyclic

/-- After `xs = [[1]]; xs[0] = xs;`, which fails, the inner array is still in the
outer one, and not the other way round. -/
theorem sequences_never_nested_refused :
    let p : Place := ⟨1, 1⟩
    let program : Program :=
      [.assign "xs" .set (.items [.items [.literal (.int 1) p] p] p) p,
        .assignIndex "xs" (.literal (.int 0) p) .set (.ident "xs" p) p]
    let m := ((Session.start 1).evaluate 4 program).2.machine
    Session.Moment m ∧ m.heap.mentions 0 (.seq .array 1) = true ∧
      m.heap.mentions 1 (.seq .array 0) = false ∧
      m.heap.Acyclic ∧ (∀ h', m.heap.Inserts h' → h'.Acyclic) ∧
      (∀ store v, m.heap.mentions store v = true ↔ m.heap.Occurs store v) ∧
      WellFounded m.heap.ElementOf ∧ m.heap.Unbounded := by
  intro p program m
  have hm : Session.Moment m := .between (.evaluate 4 program (.start 1))
  exact ⟨hm, by decide +kernel, by decide +kernel, sequences_never_nested hm⟩

end SeqScript
