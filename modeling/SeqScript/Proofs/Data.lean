import SeqScript.Proofs.Apart
import SeqScript.Proofs.Widening

/-!
# Data on the heap

A value on the heap reads out as a datum (`Heap.datum`). Reading out goes through stores,
so it is said here which: `Heap.Shows own h vs ds` says that the values `vs` read out as
the data `ds` and that only stores among `own` are read, each of which refers to earlier
ones. Then the data do not depend on any other store, nor on how deep the reading goes.

Declared types can be put to data as well as to values. `Ty.stored?` is what a type makes
of a datum, and it agrees with what it makes of a value that is shown: it fits or not, and
what is stored is shown in turn (`conform_shows`).
-/

namespace SeqScript

-- ---------------------------------------------------------------------------
-- Stores of one's own
-- ---------------------------------------------------------------------------

/-- The store of a sequence is among the given ones, and made before `last`. -/
def Value.Among (own : Nat → Prop) (last : Nat) (v : Value) : Prop :=
  ∀ id : Nat, v.store? = some id → own id ∧ id < last

namespace Value

variable {own : Nat → Prop} {last last' : Nat} {v : Value}

theorem Among.mono (hv : v.Among own last) (hle : last ≤ last') : v.Among own last' :=
  fun id hid => ⟨(hv id hid).1, Nat.lt_of_lt_of_le (hv id hid).2 hle⟩

theorem among_of_plain (hv : v.store? = none) : v.Among own last := by
  intro id hid
  rw [hv] at hid
  cases hid

end Value

namespace Heap

/-- The second heap has all stores of the first, and the given ones with the same elements. -/
structure Keeps (own : Nat → Prop) (h h' : Heap) : Prop where
  size_le : h.size ≤ h'.size
  read : ∀ id : Nat, own id → id < h.size → h'.read id = h.read id

/-- The given stores refer only to earlier ones among them, and those that are still to be
made are among them. -/
structure Owns (own : Nat → Prop) (h : Heap) : Prop where
  among : ∀ id : Nat, own id → id < h.size → ∀ v ∈ h.read id, v.Among own id
  fresh : ∀ id : Nat, h.size ≤ id → own id

variable {own : Nat → Prop} {last : Nat} {h h' : Heap} {v : Value}

/-- The stores that are still to be made. -/
theorem owns_size (h : Heap) : h.Owns (h.size ≤ ·) :=
  ⟨fun _ hid hlt => absurd hid (Nat.not_le.mpr hlt), fun _ hid => hid⟩

theorem Grows.keeps (hgrows : h.Grows h') : h.Keeps own h' :=
  ⟨hgrows.size_le, fun id _ hid => hgrows.read id hid⟩

/-- The stores that are apart are kept. -/
theorem Apart.keeps {h h' : Heap} {first : Nat} (ha : h'.Apart (h.since first) h) :
    h.Keeps (first ≤ ·) h' :=
  ⟨ha.size_le, fun id hid hlt => ha.kept id ⟨hid, hlt⟩⟩

/-- A write into another store is not seen. -/
theorem keeps_modify (h : Heap) {id : Nat} (hid : ¬ own id) (f : Array Value → Array Value) :
    h.Keeps own (h.modify id f) := by
  refine ⟨by simp, ?_⟩
  intro other hother _
  rw [read_modify, if_neg]
  rintro ⟨rfl, -⟩
  exact hid hother

/-- A value is read out the same in every heap that keeps its stores, and no deeper than
their numbers. -/
theorem readOut_eq_of_keeps (howns : h.Owns own) (hkeeps : h.Keeps own h') {depth depth' : Nat}
    (hv : v.Among own last) (hlast : last ≤ h.size) (hdepth : last ≤ depth)
    (hdepth' : last ≤ depth') : h'.readOut depth' v = h.readOut depth v := by
  induction last using Nat.strongRecOn generalizing v depth depth' with
  | ind last ih =>
    rcases seq_or_plain v with ⟨kind, id, rfl⟩ | hplain
    · obtain ⟨hown, hid⟩ := hv id rfl
      obtain ⟨k, rfl⟩ : ∃ k, depth = k + 1 := ⟨depth - 1, by omega⟩
      obtain ⟨k', rfl⟩ : ∃ k', depth' = k' + 1 := ⟨depth' - 1, by omega⟩
      rw [readOut, readOut, hkeeps.read id hown (by omega)]
      congr 1
      refine List.map_congr_left ?_
      intro w hw
      have hw' := howns.among id hown (by omega) w (Array.mem_toList_iff.mp hw)
      exact ih id hid hw' (by omega) (by omega) (by omega)
    · rw [readOut_of_plain hplain, readOut_of_plain hplain]

theorem datum_eq_of_keeps (howns : h.Owns own) (hkeeps : h.Keeps own h')
    (hv : v.Among own h.size) : h'.datum v = h.datum v :=
  readOut_eq_of_keeps howns hkeeps hv (Nat.le_refl _) (Nat.le_succ _)
    (Nat.le_succ_of_le hkeeps.size_le)

theorem datum_of_plain (hv : v.store? = none) : h.datum v = .plain v := readOut_of_plain hv _

theorem datum_seq (howns : h.Owns own) {kind : SeqKind} {id : SeqId}
    (hv : (Value.seq kind id).Among own h.size) :
    h.datum (.seq kind id) = .seq kind ((h.read id).toList.map h.datum) := by
  obtain ⟨hown, hid⟩ := hv id rfl
  rw [datum, readOut]
  congr 1
  refine List.map_congr_left ?_
  intro w hw
  have hw' := howns.among id hown hid w (Array.mem_toList_iff.mp hw)
  exact readOut_eq_of_keeps howns (Grows.refl h).keeps hw' (Nat.le_of_lt hid) (by omega) (by omega)

/-- No other store occurs in a value. -/
theorem mentions_eq_false_of_among (howns : h.Owns own) (hv : v.Among own h.size) {store : SeqId}
    (hstore : ¬ own store) : h.mentions store v = false := by
  unfold mentions
  generalize h.size + 1 = depth
  have hne : ∀ {kind id}, (Value.seq kind id).Among own h.size → id ≠ store := by
    rintro kind id hid rfl
    exact hstore (hid _ rfl).1
  induction depth generalizing v with
  | zero =>
    rcases seq_or_plain v with ⟨kind, id, rfl⟩ | hplain
    · simpa [mentionsWithin] using hne hv
    · exact mentionsWithin_of_plain hplain 0
  | succ depth ih =>
    rcases seq_or_plain v with ⟨kind, id, rfl⟩ | hplain
    · obtain ⟨hown, hid⟩ := hv id rfl
      simp only [mentionsWithin, Bool.or_eq_false_iff, beq_eq_false_iff_ne, List.any_eq_false]
      refine ⟨hne hv, ?_⟩
      intro w hw
      have hw' := howns.among id hown hid w (Array.mem_toList_iff.mp hw)
      simp [ih (hw'.mono (Nat.le_of_lt hid))]
    · exact mentionsWithin_of_plain hplain _

theorem owns_newSeq (howns : h.Owns own) (kind : SeqKind) {items : List Value}
    (hitems : ∀ v ∈ items, v.Among own h.size) : (h.newSeq kind items).2.Owns own := by
  refine ⟨?_, fun id hid => howns.fresh id (Nat.le_trans (Grows.newSeq h kind items).size_le hid)⟩
  intro id hown hid v hv
  rw [read_newSeq] at hv
  split at hv
  · next heq =>
    subst heq
    exact hitems v (List.mem_toArray.mp hv)
  · next hne =>
    rw [size_newSeq] at hid
    have hlt : id < h.size := Nat.lt_of_le_of_ne (Nat.lt_succ_iff.mp hid) hne
    exact howns.among id hown hlt v hv

-- ---------------------------------------------------------------------------
-- Data on the heap
-- ---------------------------------------------------------------------------

/-- A row of values reads out as a row of data, from the given stores only. Those that are
still to be made are among them. -/
structure Shows (own : Nat → Prop) (h : Heap) (vs : List Value) (ds : List Datum) : Prop where
  owns : h.Owns own
  among : ∀ v ∈ vs, v.Among own h.size
  data : vs.map h.datum = ds

namespace Shows

variable {vs : List Value} {d : Datum} {ds : List Datum}

theorem nil (howns : h.Owns own) : h.Shows own [] [] :=
  ⟨howns, by simp, rfl⟩

theorem plain (howns : h.Owns own) (hv : v.store? = none) : h.Shows own [v] [.plain v] :=
  ⟨howns, by simpa using Value.among_of_plain hv, by simp [datum_of_plain hv]⟩

theorem head (hs : h.Shows own (v :: vs) (d :: ds)) : h.Shows own [v] [d] :=
  ⟨hs.owns, by simpa using hs.among v (List.mem_cons_self ..),
    by simpa using (List.cons.inj hs.data).1⟩

theorem tail (hs : h.Shows own (v :: vs) (d :: ds)) : h.Shows own vs ds :=
  ⟨hs.owns, fun w hw => hs.among w (List.mem_cons_of_mem _ hw),
    (List.cons.inj hs.data).2⟩

theorem datum_eq (hs : h.Shows own [v] [d]) : h.datum v = d := (List.cons.inj hs.data).1

/-- Data are not changed by what happens to other stores. -/
theorem later (hs : h.Shows own vs ds) (hkeeps : h.Keeps own h') (howns : h'.Owns own) :
    h'.Shows own vs ds := by
  refine ⟨howns, ?_, ?_⟩
  · exact fun v hv => (hs.among v hv).mono hkeeps.size_le
  · rw [← hs.data]
    exact List.map_congr_left fun v hv => datum_eq_of_keeps hs.owns hkeeps (hs.among v hv)

/-- A value shown earlier, before a row that is shown now. -/
theorem cons (hv : h.Shows own [v] [d]) (hkeeps : h.Keeps own h') (hvs : h'.Shows own vs ds) :
    h'.Shows own (v :: vs) (d :: ds) := by
  have hv' := hv.later hkeeps hvs.owns
  refine ⟨hvs.owns, ?_, ?_⟩
  · exact List.forall_mem_cons.mpr ⟨hv'.among v (List.mem_singleton_self v), hvs.among⟩
  · rw [List.map_cons, hvs.data, hv'.datum_eq]

theorem seq {kind : SeqKind} {id : SeqId} (hid : (Value.seq kind id).Among own h.size)
    (hs : h.Shows own (h.read id).toList ds) : h.Shows own [.seq kind id] [.seq kind ds] :=
  ⟨hs.owns, by simpa using hid,
    by rw [List.map_singleton, datum_seq hs.owns hid, hs.data]⟩

theorem newSeq (hs : h.Shows own vs ds) (kind : SeqKind) :
    (h.newSeq kind vs).2.Shows own [(h.newSeq kind vs).1] [.seq kind ds] := by
  have hlater := hs.later (Grows.newSeq h kind vs).keeps (owns_newSeq hs.owns kind hs.among)
  refine .seq ?_ ?_
  · rintro _ ⟨⟩
    exact ⟨hs.owns.fresh _ (Nat.le_refl _), by simp⟩
  · rw [read_newSeq, if_pos rfl]
    exact hlater

/-- What is shown has no elements, or its elements are shown. -/
theorem plain_or_seq (hs : h.Shows own [v] [d]) :
    (v.store? = none ∧ d = .plain v) ∨
      ∃ kind id ds, v = .seq kind id ∧ d = .seq kind ds ∧ h.Shows own (h.read id).toList ds := by
  have hv := hs.among v (List.mem_singleton_self v)
  rcases seq_or_plain v with ⟨kind, id, rfl⟩ | hplain
  · obtain ⟨hown, hid⟩ := hv id rfl
    refine Or.inr ⟨kind, id, _, rfl, hs.datum_eq.symm.trans (datum_seq hs.owns hv), hs.owns,
      ?_, rfl⟩
    intro w hw
    exact (hs.owns.among id hown hid w (Array.mem_toList_iff.mp hw)).mono (Nat.le_of_lt hid)
  · exact Or.inl ⟨hplain, by rw [← hs.datum_eq, datum_of_plain hplain]⟩

/-- A value is shown by its own stores and those still to be made, whatever has been made
since by others. -/
theorem elsewhere {h h' : Heap} {first : Nat} {vs : List Value} {ds : List Datum}
    (hs : h.Shows (first ≤ ·) vs ds) (hkeeps : h.Keeps (first ≤ ·) h') :
    h'.Shows (fun id => h.since first id ∨ h'.size ≤ id) vs ds := by
  refine ⟨⟨?_, fun id hid => Or.inr hid⟩, ?_, ?_⟩
  · rintro id (hown | hge) hid v hv
    · rw [hkeeps.read id hown.1 hown.2] at hv
      intro other hother
      obtain ⟨hfirst, hlt⟩ := hs.owns.among id hown.1 hown.2 v hv other hother
      exact ⟨Or.inl ⟨hfirst, Nat.lt_trans hlt hown.2⟩, hlt⟩
    · exact absurd hid (Nat.not_lt.mpr hge)
  · intro v hv id hid
    obtain ⟨hfirst, hlt⟩ := hs.among v hv id hid
    exact ⟨Or.inl ⟨hfirst, hlt⟩, Nat.lt_of_lt_of_le hlt hkeeps.size_le⟩
  · rw [← hs.data]
    exact List.map_congr_left fun v hv => datum_eq_of_keeps hs.owns hkeeps (hs.among v hv)

end Shows

end Heap

-- ---------------------------------------------------------------------------
-- Data under declared types
-- ---------------------------------------------------------------------------

/-- A datum as it is stored under a type, if it fits. -/
def Ty.stored? : Ty → Datum → Option Datum
  | .array t, .seq .array ds => (ds.mapM t.stored?).map (.seq .array)
  | .list _, .seq .list ds => some (.seq .list ds)
  | _, .seq _ _ => none
  | t, .plain v => (conform t v .empty).map fun c => .plain c.value

/-- The heap does not matter to a value without elements. -/
theorem conform_of_plain {v : Value} (hv : v.store? = none) (ty : Ty) (h h' : Heap) :
    conform ty v h = (conform ty v h').map fun c => ⟨c.value, c.changed, h⟩ := by
  cases v with
  | seq => cases hv
  | matrix a =>
    cases ty with
    | array t =>
      cases t with
      | array u => cases u <;> rfl
      | _ => rfl
    | _ => rfl
  | _ => cases ty <;> rfl

section

variable {own : Nat → Prop} {t : Ty} {v : Value} {vs : List Value} {d d' : Datum}
  {ds : List Datum} {h : Heap}

theorem conformAll_shows
    (ht : ∀ {v d h}, h.Shows own [v] [d] →
      Option.Rel (fun c d => c.heap.Shows own [c.value] [d]) (conform t v h) (t.stored? d))
    (hs : h.Shows own vs ds) :
    Option.Rel (fun c ds => c.heap.Shows own c.value ds) (conformAll (conform t) vs h)
      (ds.mapM t.stored?) := by
  induction vs generalizing ds h with
  | nil =>
    obtain rfl := hs.data
    exact .some (.nil hs.owns)
  | cons v vs ih =>
    cases ds with
    | nil => cases hs.data
    | cons d ds =>
      have hv := ht hs.head
      rw [conformAll, List.mapM_cons]
      generalize hfirst : conform t v h = found at hv ⊢
      generalize t.stored? d = asked at hv ⊢
      cases hv with
      | none => exact .none
      | @some c d' hc =>
        -- the other values are looked at with the copies that the first one has added
        have hrest := ih (hs.tail.later (conform_grows hfirst).keeps hc.owns)
        dsimp only
        generalize hfound : conformAll (conform t) vs c.heap = found at hrest ⊢
        generalize ds.mapM t.stored? = asked at hrest ⊢
        cases hrest with
        | none => exact .none
        | @some cs ds' hcs =>
          have hgrows : c.heap.Grows cs.heap := conformAll_grows (fun _ _ _ => conform_grows) hfound
          exact .some (hc.cons hgrows.keeps hcs)

theorem stored?_plain (t : Ty) (v : Value) :
    t.stored? (.plain v) = (conform t v .empty).map fun c => .plain c.value := by
  cases t <;> rfl

theorem conform_shows_plain (howns : h.Owns own) (hv : v.store? = none) :
    Option.Rel (fun c d => c.heap.Shows own [c.value] [d]) (conform t v h)
      (t.stored? (.plain v)) := by
  rw [conform_of_plain hv t h .empty, stored?_plain]
  cases hc : conform t v .empty with
  | none => exact .none
  | some c =>
    rcases conform_cases hc with ⟨-, hplain, -⟩ | ⟨_, _, -, rfl, -⟩ | ⟨_, _, _, -, rfl, -⟩
    · exact .some (.plain howns hplain)
    all_goals cases hv

/-- What a type makes of a value that is shown, it makes of the datum. -/
theorem conform_shows (hs : h.Shows own [v] [d]) :
    Option.Rel (fun c d => c.heap.Shows own [c.value] [d]) (conform t v h) (t.stored? d) := by
  induction t generalizing v d h with
  | array t ih =>
    rcases hs.plain_or_seq with ⟨hplain, rfl⟩ | ⟨kind, id, ds, rfl, rfl, helems⟩
    · exact conform_shows_plain hs.owns hplain
    · cases kind with
      | list => exact .none
      | array =>
        have hrows := conformAll_shows ih helems
        rw [conform_array, Ty.stored?]
        generalize hfound : conformAll (conform t) (h.read id).toList h = found at hrows ⊢
        generalize ds.mapM t.stored? = asked at hrows ⊢
        cases hrows with
        | none => exact .none
        | @some items ds' hitems =>
          have hgrows : h.Grows items.heap := conformAll_grows (fun _ _ _ => conform_grows) hfound
          refine .some ?_
          unfold arrayOf
          split
          · exact hitems.newSeq .array
          · next hsame =>
            -- no element has changed, so the array is the one that was given
            have hid := hs.among _ (List.mem_singleton_self _)
            have hread := hgrows.read id (hid id rfl).2
            rw [conformAll_kept (fun _ _ _ => conform_kept) hfound (by simpa using hsame),
              ← hread] at hitems
            exact .seq (hid.mono hgrows.size_le) hitems
  | list t ih =>
    rcases hs.plain_or_seq with ⟨hplain, rfl⟩ | ⟨kind, id, ds, rfl, rfl, helems⟩
    · exact conform_shows_plain hs.owns hplain
    · cases kind with
      | list => exact .some hs
      | array => exact .none
  | _ =>
    rcases hs.plain_or_seq with ⟨hplain, rfl⟩ | ⟨kind, id, ds, rfl, rfl, helems⟩
    · exact conform_shows_plain hs.owns hplain
    · cases kind <;> exact .none

theorem assignable_shown (hs : h.Shows own [v] [d]) (hd : t.stored? d = some d') :
    ∃ w h', h.Grows h' ∧ h'.Shows own [w] [d'] ∧ assignable h t v = .ok (w, h') := by
  have hrel := conform_shows (t := t) hs
  rw [hd] at hrel
  generalize hc : conform t v h = found at hrel
  cases hrel with
  | @some c _ hshown => exact ⟨c.value, c.heap, conform_grows hc, hshown, assignable_of_conform hc⟩

theorem assignable_refused (hs : h.Shows own [v] [d]) (hd : t.stored? d = none) :
    assignable h t v = .error (.mismatch t v.kind d.text) := by
  have hrel := conform_shows (t := t) hs
  rw [hd] at hrel
  generalize hc : conform t v h = found at hrel
  cases hrel with
  | none => rw [assignable, hc, Heap.text, hs.datum_eq]

end

end SeqScript
