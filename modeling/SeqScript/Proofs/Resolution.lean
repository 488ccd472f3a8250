import SeqScript.Proofs.Declarations

/-!
# What a name means, through every handle

Frames are shared: a frame is reached from all frames that stand in it, and by
everyone who holds a handle on one of these. `Forest` has the frames together with
the handles that have been given out, and `Forest.take` is one thing done through
a handle. Every forest is built so (`Forest.built`), whatever was done in which
order.

* `Chain` — the frames from one outwards, as the links of the frames themselves
  say it. It is not made from the functions that walk.
* `chain_exists` — in a forest that was built so, every walk outwards ends.
* `Chain.lookup?_eq`, `Chain.depth_eq` — what a name means is its binding in the
  first frame of the chain that has one; the depth is the chain's length.
* `Meets` — on the way outwards a frame comes before all others that bind a name.
* `Written` — one binding has been set, and who sees that: exactly the handles from
  which its frame is met.

The main result is `names_resolve_outwards`: an assignment sets one binding, the
nearest or else one in the frame it is made from, and nothing else is changed.
-/

namespace SeqScript

namespace Scopes

-- ---------------------------------------------------------------------------
-- Forests
-- ---------------------------------------------------------------------------

/-- The frames and the handles on them, in the order in which they were given
out. -/
structure Forest where
  scopes : Scopes
  handles : List FrameId

/-- Something done to a forest. Handles are called by their number. -/
inductive Move where
  /-- A frame that stands in no other. -/
  | root
  /-- A frame that stands in another. -/
  | child (handle : Nat)
  /-- One more handle on the same frame. -/
  | clone (handle : Nat)
  /-- Binds a name, with or without a declared type. -/
  | define (handle : Nat) (name : String) (value : Value) (ty : Option Ty)
  | assign (handle : Nat) (name : String) (value : Value)

namespace Forest

/-- A forest in which a frame and the handle on it have been added. -/
def grown (forest : Forest) : FrameId × Scopes → Forest
  | (f, s) => ⟨s, forest.handles ++ [f]⟩

/-- What is done through a handle that has been given out. -/
def through (forest : Forest) (handle : Nat) (act : FrameId → Forest) : Forest :=
  match forest.handles[handle]? with
  | some f => act f
  | none => forest

def take (forest : Forest) : Move → Forest
  | .root => forest.grown forest.scopes.root
  | .child handle => forest.through handle fun f => forest.grown (forest.scopes.child f)
  | .clone handle => forest.through handle fun f => { forest with handles := forest.handles ++ [f] }
  | .define handle name value ty =>
    forest.through handle fun f => { forest with scopes := forest.scopes.define f name value ty }
  | .assign handle name value =>
    forest.through handle fun f => { forest with scopes := (forest.scopes.assign f name value).2 }

/-- The forest after some moves. -/
def built (moves : List Move) : Forest := moves.foldl take ⟨.empty, []⟩

end Forest

-- ---------------------------------------------------------------------------
-- Links
-- ---------------------------------------------------------------------------

/-- What a frame itself says about where it stands; nothing if there is no such
frame. -/
def link? (s : Scopes) (f : FrameId) : Option (Option FrameId) := s.frames[f]?.map Frame.parent

/-- Every frame stands in one made before it. -/
def Ordered (s : Scopes) : Prop := ∀ f p, s.link? f = some (some p) → p < f

theorem link?_push (s : Scopes) (parent : Option FrameId) (f : FrameId) :
    (s.push parent).2.link? f = if f = s.size then some parent else s.link? f := by
  by_cases hf : f = s.size
  · rw [if_pos hf, hf]
    simp [link?, push, size]
  · have hne : f ≠ s.frames.size := hf
    rw [if_neg hf]
    simp [link?, push, Array.getElem?_push, hne]

theorem link?_define (s : Scopes) (f g : FrameId) (name : String) (v : Value) (ty : Option Ty) :
    (s.define f name v ty).link? g = s.link? g := by
  simp only [link?, define, Array.getElem?_modify]
  by_cases hg : f = g
  · subst hg
    cases s.frames[f]? <;> simp [Frame.set]
  · simp [hg]

theorem link?_assign (s : Scopes) (f g : FrameId) (name : String) (v : Value) :
    (s.assign f name v).2.link? g = s.link? g := by
  unfold assign
  split <;> exact link?_define ..

theorem exists_link? {s : Scopes} {f : FrameId} (h : f < s.size) : ∃ l, s.link? f = some l := by
  have hframe : s.frames[f]? = some s.frames[f] := Array.getElem?_eq_getElem h
  exact ⟨s.frames[f].parent, by rw [link?, hframe]; rfl⟩

theorem Ordered.push {s : Scopes} (hs : s.Ordered) {parent : Option FrameId}
    (hparent : ∀ p, parent = some p → p < s.size) : (s.push parent).2.Ordered := by
  intro f p hlink
  rw [link?_push] at hlink
  split at hlink
  · next hf =>
    rw [hf]
    exact hparent p (Option.some.inj hlink)
  · exact hs f p hlink

theorem Ordered.congr {s s' : Scopes} (hs : s.Ordered) (h : ∀ f, s'.link? f = s.link? f) :
    s'.Ordered := by
  intro f p hlink
  rw [h] at hlink
  exact hs f p hlink

-- The walk asks for the number of a parent to be below; in scopes with that order
-- it sees the links as they are.

theorem parent?_of_link {s : Scopes} (hs : s.Ordered) {f p : FrameId}
    (h : s.link? f = some (some p)) : ∃ hp, s.parent? f = some ⟨p, hp⟩ := by
  obtain ⟨frame, hframe, hparent⟩ := Option.map_eq_some_iff.mp h
  have hp : p < f := hs f p h
  refine ⟨hp, ?_⟩
  simp only [parent?, hframe, hparent, dif_pos hp]

theorem parent?_of_root {s : Scopes} {f : FrameId} (h : s.link? f = some none) :
    s.parent? f = none := by
  obtain ⟨frame, hframe, hparent⟩ := Option.map_eq_some_iff.mp h
  simp only [parent?, hframe, hparent]

-- ---------------------------------------------------------------------------
-- Chains
-- ---------------------------------------------------------------------------

/-- The frames from one outwards to a root, as the links say. -/
inductive Chain (s : Scopes) : FrameId → List FrameId → Prop
  | root {f : FrameId} : s.link? f = some none → Chain s f [f]
  | inner {f p : FrameId} {chain : List FrameId} : s.link? f = some (some p) → Chain s p chain →
    Chain s f (f :: chain)

theorem chain_exists {s : Scopes} (hs : s.Ordered) {f : FrameId} (hf : f < s.size) :
    ∃ chain, s.Chain f chain := by
  induction f using Nat.strong_induction_on with
  | _ f ih =>
    obtain ⟨l, hlink⟩ := exists_link? hf
    cases l with
    | none => exact ⟨[f], .root hlink⟩
    | some p =>
      have hp : p < f := hs f p hlink
      obtain ⟨chain, hchain⟩ := ih p hp (Nat.lt_trans hp hf)
      exact ⟨f :: chain, .inner hlink hchain⟩

namespace Chain

variable {s s' : Scopes} {f : FrameId} {chain : List FrameId}

theorem congr (h : ∀ g, s'.link? g = s.link? g) (hchain : s.Chain f chain) : s'.Chain f chain := by
  induction hchain with
  | root hlink => exact .root (by rw [h, hlink])
  | inner hlink _ ih => exact .inner (by rw [h, hlink]) ih

/-- There is one way outwards only. -/
theorem unique {other : List FrameId} (hchain : s.Chain f chain) (hother : s.Chain f other) :
    other = chain := by
  induction hchain generalizing other with
  | root hlink =>
    cases hother with
    | root => rfl
    | inner hlink' => simp [hlink] at hlink'
  | inner hlink _ ih =>
    cases hother with
    | root hlink' => simp [hlink] at hlink'
    | inner hlink' hrest =>
      obtain rfl : _ = _ := Option.some.inj (Option.some.inj (hlink.symm.trans hlink'))
      rw [ih hrest]

theorem depth_eq (hs : s.Ordered) (hchain : s.Chain f chain) : s.depth f = chain.length := by
  induction hchain with
  | root hlink =>
    rw [depth, parent?_of_root hlink]
    rfl
  | inner hlink _ ih =>
    obtain ⟨hp, hparent⟩ := parent?_of_link hs hlink
    rw [depth, hparent, List.length_cons, ← ih]

/-- The frame that owns a name is the first on the chain that binds it. -/
theorem owner?_eq (hs : s.Ordered) (hchain : s.Chain f chain) (name : String) :
    s.owner? f name = chain.find? fun g => (s.local? g name).isSome := by
  induction hchain with
  | @root f hlink =>
    by_cases hlocal : (s.local? f name).isSome
    · rw [owner?_of_local hlocal]
      simp [hlocal]
    · rw [owner?_of_root hlocal (parent?_of_root hlink)]
      simp [hlocal]
  | @inner f p chain hlink _ ih =>
    obtain ⟨hp, hparent⟩ := parent?_of_link hs hlink
    by_cases hlocal : (s.local? f name).isSome
    · rw [owner?_of_local hlocal]
      simp [hlocal]
    · rw [owner?_of_parent hlocal hparent, ih]
      simp [hlocal]

/-- What a name means is its binding in the first frame that has one. -/
theorem lookup?_eq (hs : s.Ordered) (hchain : s.Chain f chain) (name : String) :
    s.lookup? f name = chain.findSome? fun g => s.local? g name := by
  rw [lookup?, hchain.owner?_eq hs]
  clear hchain
  induction chain with
  | nil => rfl
  | cons g chain ih =>
    cases hlocal : s.local? g name with
    | some b =>
      rw [List.find?_cons_of_pos (by simp [hlocal]), List.findSome?_cons, hlocal]
      exact hlocal
    | none =>
      rw [List.find?_cons_of_neg (by simp [hlocal]), List.findSome?_cons, hlocal]
      exact ih

end Chain

-- ---------------------------------------------------------------------------
-- Meeting a frame
-- ---------------------------------------------------------------------------

/-- On the way outwards from `h`, no frame binds the name before `f` is met. -/
def Meets (s : Scopes) (h : FrameId) (name : String) (f : FrameId) : Prop :=
  ∃ nearer farther, s.Chain h (nearer ++ f :: farther) ∧ ∀ g ∈ nearer, s.local? g name = none

variable {s s' : Scopes} {f h : FrameId} {name : String}

theorem owner?_of_meets (hs : s.Ordered) (hmeets : s.Meets h name f)
    (hbound : (s.local? f name).isSome) : s.owner? h name = some f := by
  obtain ⟨nearer, farther, hchain, hnearer⟩ := hmeets
  have hnone : nearer.find? (fun g => (s.local? g name).isSome) = none := by
    rw [List.find?_eq_none]
    intro g hg
    simp [hnearer g hg]
  rw [hchain.owner?_eq hs, List.find?_append, hnone]
  simp [hbound]

theorem meets_of_owner? (hs : s.Ordered) (hh : h < s.size) (howner : s.owner? h name = some f) :
    s.Meets h name f := by
  obtain ⟨chain, hchain⟩ := chain_exists hs hh
  rw [hchain.owner?_eq hs] at howner
  obtain ⟨-, nearer, farther, rfl, hnearer⟩ := List.find?_eq_some_iff_append.mp howner
  exact ⟨nearer, farther, hchain, fun g hg => by simpa using hnearer g hg⟩

-- ---------------------------------------------------------------------------
-- Setting one binding
-- ---------------------------------------------------------------------------

/-- From `s` to `s'` the binding of a name in frame `f` has been set, and nothing
else has been changed. -/
structure Written (s s' : Scopes) (f : FrameId) (name : String) (b : Binding) : Prop where
  size : s'.size = s.size
  link : ∀ g, s'.link? g = s.link? g
  here : s'.local? f name = some b
  elsewhere : ∀ g other, g ≠ f ∨ other ≠ name → s'.local? g other = s.local? g other

theorem written_define (hf : f < s.size) (v : Value) (ty : Option Ty) :
    s.Written (s.define f name v ty) f name ⟨v, ty⟩ where
  size := size_define ..
  link g := link?_define ..
  here := by rw [local?_define, if_pos ⟨rfl, hf, rfl⟩]
  elsewhere g other hne := by
    rw [local?_define, if_neg]
    rintro ⟨rfl, -, rfl⟩
    simp at hne

namespace Written

variable {b : Binding} {chain : List FrameId}

theorem ordered (hw : s.Written s' f name b) (hs : s.Ordered) : s'.Ordered := hs.congr hw.link

theorem chain_iff (hw : s.Written s' f name b) : s'.Chain h chain ↔ s.Chain h chain :=
  ⟨.congr fun g => (hw.link g).symm, .congr hw.link⟩

theorem depth_eq (hw : s.Written s' f name b) (hs : s.Ordered) (hh : h < s.size) :
    s'.depth h = s.depth h := by
  obtain ⟨chain, hchain⟩ := chain_exists hs hh
  rw [hchain.depth_eq hs, (hw.chain_iff.mpr hchain).depth_eq (hw.ordered hs)]

/-- The binding is seen from where its frame is met. -/
theorem lookup?_of_meets (hw : s.Written s' f name b) (hs : s.Ordered)
    (hmeets : s.Meets h name f) : s'.lookup? h name = some b := by
  obtain ⟨nearer, farther, hchain, hnearer⟩ := hmeets
  rw [(hw.chain_iff.mpr hchain).lookup?_eq (hw.ordered hs)]
  clear hchain
  induction nearer with
  | nil => rw [List.nil_append, List.findSome?_cons, hw.here]
  | cons g nearer ih =>
    rw [List.cons_append, List.findSome?_cons]
    by_cases hg : g = f
    · rw [hg, hw.here]
    · have hnone : s'.local? g name = none := by
        rw [hw.elsewhere g name (Or.inl hg)]
        exact hnearer g (List.mem_cons_self ..)
      rw [hnone]
      exact ih fun e he => hnearer e (List.mem_cons_of_mem _ he)

/-- A row of frames in which `f` stands only behind one that binds the name gives
the name the meaning it had. -/
private theorem findSome?_eq (hw : s.Written s' f name b)
    (hbehind : ∀ nearer farther, chain = nearer ++ f :: farther →
      ∃ g ∈ nearer, s.local? g name ≠ none) :
    (chain.findSome? fun g => s'.local? g name) = chain.findSome? fun g => s.local? g name := by
  induction chain with
  | nil => rfl
  | cons g chain ih =>
    have hg : g ≠ f := by
      rintro rfl
      obtain ⟨e, he, -⟩ := hbehind [] chain rfl
      simp at he
    rw [List.findSome?_cons, List.findSome?_cons, hw.elsewhere g name (Or.inl hg)]
    cases hlocal : s.local? g name with
    | some c => rfl
    | none =>
      refine ih ?_
      rintro nearer farther rfl
      obtain ⟨e, he, hbound⟩ := hbehind (g :: nearer) farther rfl
      rcases List.mem_cons.mp he with rfl | he
      · exact absurd hlocal hbound
      · exact ⟨e, he, hbound⟩

/-- Other names, and the name itself where the frame is not met, mean what they
meant. -/
theorem lookup?_of_not_meets (hw : s.Written s' f name b) (hs : s.Ordered) (hh : h < s.size)
    {other : String} (hunseen : other ≠ name ∨ ¬ s.Meets h name f) :
    s'.lookup? h other = s.lookup? h other := by
  obtain ⟨chain, hchain⟩ := chain_exists hs hh
  rw [hchain.lookup?_eq hs, (hw.chain_iff.mpr hchain).lookup?_eq (hw.ordered hs)]
  by_cases hother : other = name
  · subst hother
    refine findSome?_eq hw ?_
    rintro nearer farther rfl
    have hnot : ¬ s.Meets h other f := hunseen.resolve_left fun hne => hne rfl
    by_contra hnone
    push Not at hnone
    exact hnot ⟨nearer, farther, hchain, hnone⟩
  · have hsame : (fun g => s'.local? g other) = fun g => s.local? g other := by
      funext g
      exact hw.elsewhere g other (Or.inr hother)
    rw [hsame]

end Written

-- ---------------------------------------------------------------------------
-- What is kept by every move
-- ---------------------------------------------------------------------------

namespace Forest

/-- The frames are in order, and every handle is on one of them. -/
structure Sound (forest : Forest) : Prop where
  ordered : forest.scopes.Ordered
  known : ∀ f ∈ forest.handles, f < forest.scopes.size

variable {forest : Forest}

theorem sound_through {handle : Nat} {act : FrameId → Forest} (hforest : forest.Sound)
    (hact : ∀ f ∈ forest.handles, (act f).Sound) : (forest.through handle act).Sound := by
  unfold through
  split
  · next f hf => exact hact f (List.mem_of_getElem? hf)
  · exact hforest

theorem sound_grown (hforest : forest.Sound) {parent : Option FrameId}
    (hparent : ∀ p, parent = some p → p < forest.scopes.size) :
    (forest.grown (forest.scopes.push parent)).Sound where
  ordered := hforest.ordered.push hparent
  known f hf := by
    have hsize : (forest.scopes.push parent).2.size = forest.scopes.size + 1 := by
      simp [push, size]
    show f < (forest.scopes.push parent).2.size
    rw [hsize]
    rcases List.mem_append.mp hf with hf | hf
    · exact Nat.lt_succ_of_lt (hforest.known f hf)
    · rw [List.mem_singleton.mp hf]
      exact Nat.lt_succ_self _

/-- A move keeps the order of frames, and handles good. -/
theorem sound_take (hforest : forest.Sound) (move : Move) : (forest.take move).Sound := by
  cases move with
  | root => exact sound_grown hforest (by simp)
  | child handle =>
    refine sound_through hforest ?_
    intro f hf
    refine sound_grown hforest ?_
    rintro p ⟨⟩
    exact hforest.known f hf
  | clone handle =>
    refine sound_through hforest ?_
    intro f hf
    refine ⟨hforest.ordered, ?_⟩
    intro g hg
    rcases List.mem_append.mp hg with hg | hg
    · exact hforest.known g hg
    · rw [List.mem_singleton.mp hg]
      exact hforest.known f hf
  | define handle name value ty =>
    refine sound_through hforest ?_
    intro f _
    exact ⟨hforest.ordered.congr fun g => link?_define ..,
      fun g hg => by simpa using hforest.known g hg⟩
  | assign handle name value =>
    refine sound_through hforest ?_
    intro f _
    exact ⟨hforest.ordered.congr fun g => link?_assign ..,
      fun g hg => by simpa using hforest.known g hg⟩

theorem sound_built (moves : List Move) : (built moves).Sound := by
  have hfold : ∀ forest : Forest, forest.Sound → (moves.foldl take forest).Sound := by
    induction moves with
    | nil => exact fun forest hforest => hforest
    | cons move moves ih => exact fun forest hforest => ih _ (sound_take hforest move)
  refine hfold _ ⟨?_, by simp⟩
  intro f p hlink
  simp [link?, empty] at hlink

end Forest

-- ---------------------------------------------------------------------------
-- Main result
-- ---------------------------------------------------------------------------

/-- What is seen of an assignment through the handles of a forest: one binding has
been set, in a frame `f`. The name means that binding wherever `f` is met first,
and everything else is as it was. -/
structure Assigned (forest : Forest) (s' : Scopes) (f : FrameId) (name : String) (b : Binding) :
    Prop where
  written : forest.scopes.Written s' f name b
  seen : ∀ h ∈ forest.handles, forest.scopes.Meets h name f → s'.lookup? h name = some b
  unseen : ∀ h ∈ forest.handles, ∀ other, other ≠ name ∨ ¬ forest.scopes.Meets h name f →
    s'.lookup? h other = forest.scopes.lookup? h other
  depth : ∀ h ∈ forest.handles, s'.depth h = forest.scopes.depth h

theorem Forest.Sound.assigned {forest : Forest} (hforest : forest.Sound) {s' : Scopes} {b : Binding}
    (hw : forest.scopes.Written s' f name b) : Assigned forest s' f name b where
  written := hw
  seen _ _ hmeets := hw.lookup?_of_meets hforest.ordered hmeets
  unseen h hh _ hunseen := hw.lookup?_of_not_meets hforest.ordered (hforest.known h hh) hunseen
  depth h hh := hw.depth_eq hforest.ordered (hforest.known h hh)

end Scopes

open Scopes

/-- **Names are resolved outwards, and assignments with them.** Take any forest,
built by any moves, and any handle on a frame of it.
* The way outwards ends. What a name means is its binding in the first frame on the
  way that has one, and nothing if there is none; the depth is the number of frames.
* An assignment to a name that is bound on the way sets the value of the nearest
  binding, keeps its declared type, and says so. Through a handle the name means
  something new exactly if that binding is the nearest from there.
* An assignment to another name binds it, without a type, in the frame it is made
  from, and says so. The name is seen through the handles from which that frame is
  met before any binding of the name.
* No other name, frame, type or depth is changed. -/
theorem names_resolve_outwards (moves : List Move) :
    let forest := Forest.built moves
    (∀ h ∈ forest.handles, ∃ chain, (∀ other, forest.scopes.Chain h other ↔ other = chain) ∧
      forest.scopes.depth h = chain.length ∧
      ∀ name, forest.scopes.lookup? h name =
        chain.findSome? fun g => forest.scopes.local? g name) ∧
    (∀ e ∈ forest.handles, ∀ name v,
      (∀ f b, forest.scopes.Meets e name f → forest.scopes.local? f name = some b →
        ∃ s', forest.scopes.assign e name v = (true, s') ∧
          Assigned forest s' f name ⟨v, b.ty⟩) ∧
      ((∀ f, forest.scopes.Meets e name f → forest.scopes.local? f name = none) →
        ∃ s', forest.scopes.assign e name v = (false, s') ∧
          Assigned forest s' e name ⟨v, none⟩)) := by
  intro forest
  have hforest : forest.Sound := Forest.sound_built moves
  have hs : forest.scopes.Ordered := hforest.ordered
  refine ⟨?_, ?_⟩
  · intro h hh
    obtain ⟨chain, hchain⟩ := chain_exists hs (hforest.known h hh)
    refine ⟨chain, ?_, hchain.depth_eq hs, hchain.lookup?_eq hs⟩
    intro other
    exact ⟨hchain.unique, fun heq => heq ▸ hchain⟩
  · intro e he name v
    have hsize : e < forest.scopes.size := hforest.known e he
    refine ⟨?_, ?_⟩
    · intro f b hmeets hbound
      have howner : forest.scopes.owner? e name = some f :=
        owner?_of_meets hs hmeets (by simp [hbound])
      refine ⟨forest.scopes.define f name v b.ty, ?_, ?_⟩
      · simp [assign, howner, hbound]
      · exact hforest.assigned (written_define (lt_size_of_local? hbound) v b.ty)
    · intro hnone
      have howner : forest.scopes.owner? e name = none := by
        cases howner : forest.scopes.owner? e name with
        | none => rfl
        | some o =>
          obtain ⟨b, hb⟩ := local?_of_owner? howner
          simp [hnone o (meets_of_owner? hs hsize howner)] at hb
      refine ⟨forest.scopes.define e name v none, ?_, ?_⟩
      · simp [assign, howner]
      · exact hforest.assigned (written_define hsize v none)

/-- A root that binds `x` as an `int`, two frames in it of which the second has an
`x` of its own, and a frame in the first of these, with two handles on it. An
assignment to `x` from there sets the `x` of the root, which the second frame does
not see. -/
theorem names_resolve_outwards_shadowed :
    let forest := Forest.built
      [.root, .define 0 "x" (.int 1) (some .int), .child 0, .child 0, .define 2 "x" (.int 2) none,
        .child 1, .clone 3]
    forest.handles = [0, 1, 2, 3, 3] ∧ forest.scopes.Meets 3 "x" 0 ∧
      ∃ s', forest.scopes.assign 3 "x" (.int 5) = (true, s') ∧
        s'.lookup? 1 "x" = some ⟨.int 5, some .int⟩ ∧
        s'.lookup? 2 "x" = forest.scopes.lookup? 2 "x" ∧ s'.depth 3 = forest.scopes.depth 3 := by
  intro forest
  have hchain : forest.scopes.Chain 1 [1, 0] := .inner rfl (.root rfl)
  have hinner : forest.scopes.Meets 3 "x" 0 :=
    ⟨[3, 1], [], .inner rfl hchain, by decide +kernel⟩
  have houter : forest.scopes.Meets 1 "x" 0 := ⟨[1], [], hchain, by decide +kernel⟩
  have hhidden : ¬ forest.scopes.Meets 2 "x" 0 := by
    intro hmeets
    have howner := owner?_of_meets (Forest.sound_built _).ordered hmeets rfl
    exact absurd howner (by decide +kernel)
  obtain ⟨s', hassign, hs'⟩ := ((names_resolve_outwards _).2 3 (by decide) "x" (.int 5)).1 0
    ⟨.int 1, some .int⟩ hinner rfl
  exact ⟨rfl, hinner, s', hassign, hs'.seen 1 (by decide) houter,
    hs'.unseen 2 (by decide) "x" (Or.inr hhidden), hs'.depth 3 (by decide)⟩

end SeqScript
