import Mathlib.Data.Finset.Card
import Mathlib.Data.Finset.Range
import Mathlib.Logic.Relation
import Mathlib.Order.WellFounded
import SeqScript.Proofs.Conform
import SeqScript.Value.Equality

/-!
# Nesting of sequences

`Inside` relates a store to the stores that have it among their elements. A heap
is `Sound` if it holds no reference to a store that is not there and if the
relation is well-founded, which rules out cycles (`Sound.acyclic`).

The functions that follow references do so at most as often as there are stores.
In a sound heap that is often enough: a store has more stores below it than any
store inside it (`Sound.rank_lt`), and never more than there are. From this come

* `Sound.mentions_iff` — the search for a store in a value finds it exactly if it
  occurs there, at any depth;
* `Sound.unbounded` — reading out, comparing and searching obey the equations of
  the same functions without a bound;
* `Sound.wellFounded_elementOf` — such recursions, from values to their elements,
  come to an end.

`Sound.change` is the step on which all writes rest: new elements of one store
keep the heap sound if that store does not occur in them.
-/

namespace SeqScript

namespace Heap

-- ---------------------------------------------------------------------------
-- Stores inside stores
-- ---------------------------------------------------------------------------

/-- The store `b` is that of an element of the store `a`. -/
def Inside (h : Heap) (b a : SeqId) : Prop := ∃ v ∈ h.read a, v.store? = some b

/-- No store is inside itself, at any depth. -/
def Acyclic (h : Heap) : Prop := ∀ id, ¬ Relation.TransGen h.Inside id id

/-- A store is that of a value or of something nested in it. -/
def Occurs (h : Heap) (store : SeqId) (v : Value) : Prop :=
  ∃ id, v.store? = some id ∧ Relation.ReflTransGen h.Inside store id

/-- The store of a value, if the value has one, is there. -/
def Known (h : Heap) (v : Value) : Prop := ∀ id, v.store? = some id → id < h.size

structure Sound (h : Heap) : Prop where
  known : ∀ id, ∀ v ∈ h.read id, h.Known v
  wellFounded : WellFounded h.Inside

variable {h h' : Heap} {id store : SeqId} {v : Value}

theorem sound_empty : empty.Sound where
  known id v hv := by simp [read, empty] at hv
  wellFounded := by
    refine ⟨fun a => ⟨a, ?_⟩⟩
    rintro b ⟨v, hv, -⟩
    simp [read, empty] at hv

theorem occurs_seq_iff {kind : SeqKind} :
    h.Occurs store (.seq kind id) ↔ id = store ∨ ∃ v ∈ h.read id, h.Occurs store v := by
  constructor
  · rintro ⟨_, ⟨⟩, hpath⟩
    rcases Relation.ReflTransGen.cases_tail_iff .. |>.mp hpath with heq | ⟨b, hb, v, hv, hstore⟩
    · exact Or.inl heq
    · exact Or.inr ⟨v, hv, b, hstore, hb⟩
  · rintro (rfl | ⟨v, hv, b, hstore, hpath⟩)
    · exact ⟨id, rfl, .refl⟩
    · exact ⟨id, rfl, hpath.tail ⟨v, hv, hstore⟩⟩

theorem not_occurs_of_plain (hv : v.store? = none) : ¬ h.Occurs store v := by
  rintro ⟨id, hid, -⟩
  simp [hv] at hid

theorem Known.mono (hv : h.Known v) (hsize : h.size ≤ h'.size) : h'.Known v :=
  fun id hid => Nat.lt_of_lt_of_le (hv id hid) hsize

theorem known_of_plain (hv : v.store? = none) : h.Known v := by
  intro id hid
  simp [hv] at hid

namespace Sound

theorem acyclic (hs : h.Sound) : h.Acyclic :=
  fun id hloop => hs.wellFounded.transGen.irrefl.irrefl id hloop

theorem inside_lt (hs : h.Sound) {a b : SeqId} (hin : h.Inside b a) : b < h.size := by
  obtain ⟨v, hv, hb⟩ := hin
  exact hs.known a v hv b hb

/-- What occurs in a value that is known is known. -/
theorem occurs_lt (hs : h.Sound) (hv : h.Known v) (hocc : h.Occurs store v) : store < h.size := by
  obtain ⟨id, hid, hpath⟩ := hocc
  rcases Relation.ReflTransGen.cases_head hpath with rfl | ⟨c, hc, -⟩
  · exact hv _ hid
  · exact hs.inside_lt hc

/-- A store does not occur in its elements. -/
theorem not_occurs_element (hs : h.Sound) (hv : v ∈ h.read id) : ¬ h.Occurs id v := by
  rintro ⟨b, hb, hpath⟩
  exact hs.acyclic id (Relation.TransGen.tail' hpath ⟨v, hv, hb⟩)

end Sound

-- ---------------------------------------------------------------------------
-- Following references to their ends
-- ---------------------------------------------------------------------------

section

open scoped Classical

/-- How many stores there are below a store. -/
noncomputable def rank (h : Heap) (id : SeqId) : Nat :=
  ((Finset.range h.size).filter fun b => Relation.TransGen h.Inside b id).card

theorem rank_le (h : Heap) (id : SeqId) : h.rank id ≤ h.size := by
  have hle := Finset.card_filter_le (Finset.range h.size) fun b => Relation.TransGen h.Inside b id
  rwa [Finset.card_range] at hle

theorem Sound.rank_lt (hs : h.Sound) {a b : SeqId} (hin : h.Inside b a) : h.rank b < h.rank a := by
  -- `b` itself is below `a`, but not below `b`
  refine Finset.card_lt_card ⟨?_, ?_⟩
  · intro c hc
    rw [Finset.mem_filter] at hc ⊢
    exact ⟨hc.1, hc.2.tail hin⟩
  · intro hsub
    have hmem := hsub (Finset.mem_filter.mpr
      ⟨Finset.mem_range.mpr (hs.inside_lt hin), Relation.TransGen.single hin⟩)
    exact hs.acyclic b (Finset.mem_filter.mp hmem).2

end

/-- So many references lead from a value to all its ends. -/
def Within (h : Heap) (depth : Nat) (v : Value) : Prop :=
  ∀ id, v.store? = some id → h.rank id < depth

theorem within_full (h : Heap) (v : Value) : h.Within (h.size + 1) v :=
  fun id _ => Nat.lt_succ_of_le (h.rank_le id)

theorem Within.plain (hw : h.Within 0 v) : v.store? = none := by
  cases hv : v.store? with
  | none => rfl
  | some id => exact absurd (hw id hv) (Nat.not_lt_zero _)

theorem Sound.within_element (hs : h.Sound) {kind : SeqKind} {depth : Nat}
    (hw : h.Within (depth + 1) (.seq kind id)) (hv : v ∈ h.read id) : h.Within depth v := by
  intro b hb
  have hlt := hs.rank_lt ⟨v, hv, hb⟩
  have hle := hw id rfl
  omega

theorem Sound.within_size (hs : h.Sound) (hv : v ∈ h.read id) : h.Within h.size v :=
  hs.within_element (h.within_full (.seq .array id)) hv

-- ---------------------------------------------------------------------------
-- The bounds cut nothing off
-- ---------------------------------------------------------------------------

/-- A value is a sequence or holds no references. -/
theorem seq_or_plain (v : Value) : (∃ kind id, v = .seq kind id) ∨ v.store? = none := by
  cases v with
  | seq kind id => exact Or.inl ⟨kind, id, rfl⟩
  | _ => exact Or.inr rfl

theorem mentionsWithin_of_plain (hv : v.store? = none) (depth : Nat) :
    h.mentionsWithin store depth v = false := by
  cases v with
  | seq => simp [Value.store?] at hv
  | _ => cases depth <;> rfl

theorem readOut_of_plain (hv : v.store? = none) (depth : Nat) : h.readOut depth v = .plain v := by
  cases v with
  | seq => simp [Value.store?] at hv
  | _ => cases depth <;> rfl

/-- Only two sequences are compared element by element. -/
theorem equalWithin_of_plain {v w : Value} (hplain : v.store? = none ∨ w.store? = none)
    (depth : Nat) : h.equalWithin depth v w = h.equalWithin 0 v w := by
  cases depth with
  | zero => rfl
  | succ depth =>
    cases v with
    | seq kind id =>
      cases w with
      | seq => simp [Value.store?] at hplain
      | _ => rfl
    | _ => cases w <;> rfl

theorem pairwise_congr {same same' : Value → Value → Bool} {vs ws : List Value}
    (heq : ∀ v ∈ vs, ∀ w ∈ ws, same v w = same' v w) :
    pairwise same vs ws = pairwise same' vs ws := by
  induction vs generalizing ws with
  | nil => cases ws <;> rfl
  | cons v vs ih =>
    cases ws with
    | nil => rfl
    | cons w ws =>
      have hhead := heq v (List.mem_cons_self ..) w (List.mem_cons_self ..)
      have htail := ih fun x hx y hy =>
        heq x (List.mem_cons_of_mem _ hx) y (List.mem_cons_of_mem _ hy)
      rw [pairwise, pairwise, hhead, htail]

namespace Sound

theorem mentionsWithin_iff (hs : h.Sound) {depth : Nat} (hw : h.Within depth v) :
    h.mentionsWithin store depth v = true ↔ h.Occurs store v := by
  induction depth generalizing v with
  | zero =>
    have hplain := hw.plain
    simp [mentionsWithin_of_plain hplain, not_occurs_of_plain hplain]
  | succ depth ih =>
    rcases seq_or_plain v with ⟨kind, id, rfl⟩ | hplain
    · rw [mentionsWithin, occurs_seq_iff, Bool.or_eq_true, beq_iff_eq, List.any_eq_true]
      refine or_congr_right ?_
      constructor
      · rintro ⟨v, hv, hfound⟩
        rw [Array.mem_toList_iff] at hv
        exact ⟨v, hv, (ih (hs.within_element hw hv)).mp hfound⟩
      · rintro ⟨v, hv, hocc⟩
        exact ⟨v, Array.mem_toList_iff.mpr hv, (ih (hs.within_element hw hv)).mpr hocc⟩
    · simp [mentionsWithin_of_plain hplain, not_occurs_of_plain hplain]

/-- **The search finds what is there**, at any depth. -/
theorem mentions_iff (hs : h.Sound) : h.mentions store v = true ↔ h.Occurs store v :=
  hs.mentionsWithin_iff (h.within_full v)

theorem mentions_eq_false_iff (hs : h.Sound) :
    h.mentions store v = false ↔ ¬ h.Occurs store v := by
  rw [← hs.mentions_iff, Bool.not_eq_true]

theorem readOut_eq (hs : h.Sound) {depth depth' : Nat} (hw : h.Within depth v)
    (hw' : h.Within depth' v) : h.readOut depth v = h.readOut depth' v := by
  induction depth generalizing depth' v with
  | zero => rw [readOut_of_plain hw.plain, readOut_of_plain hw.plain]
  | succ depth ih =>
    rcases seq_or_plain v with ⟨kind, id, rfl⟩ | hplain
    · cases depth' with
      | zero => exact absurd hw'.plain (by simp [Value.store?])
      | succ depth' =>
        rw [readOut, readOut]
        refine congrArg (Datum.seq kind) (List.map_congr_left ?_)
        intro v hv
        rw [Array.mem_toList_iff] at hv
        exact ih (hs.within_element hw hv) (hs.within_element hw' hv)
    · rw [readOut_of_plain hplain, readOut_of_plain hplain]

theorem equalWithin_eq (hs : h.Sound) {v w : Value} {depth depth' : Nat}
    (hv : h.Within depth v) (hv' : h.Within depth' v) :
    h.equalWithin depth v w = h.equalWithin depth' v w := by
  induction depth generalizing depth' v w with
  | zero => exact (equalWithin_of_plain (Or.inl hv.plain) depth').symm
  | succ depth ih =>
    rcases seq_or_plain v with ⟨kind, a, rfl⟩ | hplain
    · rcases seq_or_plain w with ⟨kind', b, rfl⟩ | hplain
      · cases depth' with
        | zero => exact absurd hv'.plain (by simp [Value.store?])
        | succ depth' =>
          rw [equalWithin, equalWithin]
          congr 1
          refine pairwise_congr fun x hx y _ => ?_
          rw [Array.mem_toList_iff] at hx
          exact ih (hs.within_element hv hx) (hs.within_element hv' hx)
      · rw [equalWithin_of_plain (Or.inr hplain), equalWithin_of_plain (Or.inr hplain) depth']
    · rw [equalWithin_of_plain (Or.inl hplain), equalWithin_of_plain (Or.inl hplain) depth']

end Sound

/-- The functions that follow references obey the equations that they would obey
without a bound on how far they go. -/
structure Unbounded (h : Heap) : Prop where
  datum : ∀ kind id, h.datum (.seq kind id) = .seq kind ((h.read id).toList.map h.datum)
  equal : ∀ kind kind' a b, h.equal (.seq kind a) (.seq kind' b) =
    (a == b || pairwise h.equal (h.read a).toList (h.read b).toList)
  mentions : ∀ store kind id, h.mentions store (.seq kind id) =
    (id == store || (h.read id).toList.any (h.mentions store))

theorem Sound.unbounded (hs : h.Sound) : h.Unbounded where
  datum kind id := by
    rw [Heap.datum, readOut]
    refine congrArg (Datum.seq kind) (List.map_congr_left ?_)
    intro v hv
    rw [Array.mem_toList_iff] at hv
    exact hs.readOut_eq (hs.within_size hv) (h.within_full v)
  equal kind kind' a b := by
    rw [Heap.equal, equalWithin]
    congr 1
    refine pairwise_congr fun v hv w _ => ?_
    rw [Array.mem_toList_iff] at hv
    exact hs.equalWithin_eq (hs.within_size hv) (h.within_full v)
  mentions store kind id := by
    rw [Bool.eq_iff_iff, hs.mentions_iff, occurs_seq_iff, Bool.or_eq_true, beq_iff_eq,
      List.any_eq_true]
    simp only [hs.mentions_iff, Array.mem_toList_iff]

/-- A value is an element of a sequence. -/
def ElementOf (h : Heap) (v seq : Value) : Prop := ∃ id, seq.store? = some id ∧ v ∈ h.read id

/-- A recursion that goes from a value to its elements ends. -/
theorem Sound.wellFounded_elementOf (hs : h.Sound) : WellFounded h.ElementOf := by
  have hplain : ∀ v : Value, v.store? = none → Acc h.ElementOf v := by
    intro v hv
    refine ⟨v, ?_⟩
    rintro w ⟨id, hid, -⟩
    simp [hv] at hid
  have hseq : ∀ id, ∀ v : Value, v.store? = some id → Acc h.ElementOf v := by
    intro id
    induction id using hs.wellFounded.induction with
    | _ id ih =>
      intro v hv
      refine ⟨v, ?_⟩
      rintro w ⟨id', hid', hw⟩
      obtain rfl := Option.some.inj (hv.symm.trans hid')
      cases hb : w.store? with
      | none => exact hplain w hb
      | some b => exact ih b ⟨w, hw, hb⟩ w hb
  refine ⟨fun v => ?_⟩
  cases hv : v.store? with
  | none => exact hplain v hv
  | some id => exact hseq id v hv

-- ---------------------------------------------------------------------------
-- Writes
-- ---------------------------------------------------------------------------

/-- Giving one store new elements in which it does not occur makes no cycle. A
store in which it does not occur is as well-founded as before; so then is the
store itself, whose elements are of that kind; and so then is every other. -/
theorem wellFounded_of_change (hwf : WellFounded h.Inside)
    (hread : ∀ a, a ≠ id → h'.read a = h.read a)
    (hnew : ∀ b, h'.Inside b id → ¬ Relation.ReflTransGen h.Inside id b) :
    WellFounded h'.Inside := by
  have hother : ∀ a b, a ≠ id → h'.Inside b a → h.Inside b a := by
    rintro a b ha ⟨v, hv, hb⟩
    rw [hread a ha] at hv
    exact ⟨v, hv, hb⟩
  have haway : ∀ a, ¬ Relation.ReflTransGen h.Inside id a → Acc h'.Inside a := by
    intro a
    induction a using hwf.induction with
    | _ a ih =>
      intro hno
      refine ⟨a, fun b hb => ?_⟩
      have ha : a ≠ id := by
        rintro rfl
        exact hno .refl
      have hba := hother a b ha hb
      exact ih b hba fun hb' => hno (hb'.tail hba)
  have hid : Acc h'.Inside id := ⟨id, fun b hb => haway b (hnew b hb)⟩
  refine ⟨fun a => ?_⟩
  induction a using hwf.induction with
  | _ a ih =>
    by_cases ha : a = id
    · rw [ha]
      exact hid
    · exact ⟨a, fun b hb => ih b (hother a b ha hb)⟩

namespace Sound

/-- **A store may be given new elements if it does not occur in them.** -/
theorem change (hs : h.Sound) (id : SeqId) (hsize : h.size ≤ h'.size)
    (hread : ∀ a, a ≠ id → h'.read a = h.read a)
    (hitems : ∀ v ∈ h'.read id, h.Known v ∧ ¬ h.Occurs id v) : h'.Sound where
  known a v hv := by
    by_cases ha : a = id
    · rw [ha] at hv
      exact (hitems v hv).1.mono hsize
    · rw [hread a ha] at hv
      exact (hs.known a v hv).mono hsize
  wellFounded := by
    refine wellFounded_of_change hs.wellFounded hread ?_
    rintro b ⟨v, hv, hb⟩ hpath
    exact (hitems v hv).2 ⟨b, hb, hpath⟩

theorem newSeq (hs : h.Sound) {kind : SeqKind} {items : List Value}
    (hitems : ∀ v ∈ items, h.Known v) : (h.newSeq kind items).2.Sound := by
  refine hs.change h.size (by simp) ?_ ?_
  · intro a ha
    rw [read_newSeq, if_neg ha]
  · intro v hv
    rw [read_newSeq, if_pos rfl, List.mem_toArray] at hv
    -- the new number occurs in nothing that was there
    exact ⟨hitems v hv, fun hocc => Nat.lt_irrefl _ (hs.occurs_lt (hitems v hv) hocc)⟩

theorem modify (hs : h.Sound) (id : SeqId) {f : Array Value → Array Value}
    (hitems : ∀ v ∈ f (h.read id), v ∈ h.read id ∨ h.Known v ∧ ¬ h.Occurs id v) :
    (h.modify id f).Sound := by
  refine hs.change id (by simp) ?_ ?_
  · intro a ha
    rw [read_modify, if_neg fun hc => ha hc.1.symm]
  · intro v hv
    have hold : v ∈ h.read id → h.Known v ∧ ¬ h.Occurs id v :=
      fun hmem => ⟨hs.known id v hmem, hs.not_occurs_element hmem⟩
    rw [read_modify] at hv
    split at hv
    · exact (hitems v hv).elim hold fun hnew => hnew
    · exact hold hv

/-- In a heap that has grown nothing more occurs in the old values. -/
theorem occurs_of_grows (hs : h.Sound) (hgrows : h.Grows h') (hv : h.Known v)
    (hocc : h'.Occurs store v) : h.Occurs store v := by
  obtain ⟨id, hid, hpath⟩ := hocc
  have hback : id < h.size → Relation.ReflTransGen h.Inside store id := by
    clear hid
    induction hpath with
    | refl => exact fun _ => .refl
    | @tail b c _ hbc ih =>
      intro hc
      obtain ⟨w, hw, hb⟩ := hbc
      rw [hgrows.read c hc] at hw
      exact (ih (hs.known c w hw b hb)).tail ⟨w, hw, hb⟩
  exact ⟨id, hid, hback (hv id hid)⟩

end Sound

/-- What occurs in a value still does when the heap has grown. -/
theorem Occurs.later (hgrows : h.Grows h') (hocc : h.Occurs store v) : h'.Occurs store v := by
  obtain ⟨id, hid, hpath⟩ := hocc
  refine ⟨id, hid, Relation.ReflTransGen.mono ?_ _ _ hpath⟩
  rintro b a ⟨w, hw, hb⟩
  have ha : a < h.size := lt_size_of_read (Array.size_pos_of_mem hw)
  exact ⟨w, (hgrows.read a ha).symm ▸ hw, hb⟩

end Heap

end SeqScript
