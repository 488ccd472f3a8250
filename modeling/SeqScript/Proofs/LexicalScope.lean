import SeqScript.Proofs.Effects

/-!
# Calls do not see their caller

A name in the body of a function means what it means in the frame the function was
created in. The frame from which the function is called plays no part, neither in
what the call gives nor in what it leaves behind.

`Run.Blind` says this of a run: put it in another frame, and it does the same and
comes back to that frame. A call of a function made by a program is blind whatever
its body does, because the frame of the caller is out of sight as soon as the body
begins (`Blind.inCall`). The functions that are always there are blind because
nothing they do looks at the current frame, and `map` and `filter` because the
calls they make are; that is an induction on the budget (`blind_perform_call`).
-/

namespace SeqScript

open Run

namespace Run

variable {α β : Type}

/-- How a run ends, apart from the machine. -/
def outcome (act : Run α) (m : Machine) : Except Stop α :=
  match act m with
  | .ok a _ => .ok a
  | .error e _ => .error e

/-- The run neither looks at the current frame nor leaves it: in another frame it
does the same and comes back to that frame. -/
def Blind (act : Run α) : Prop :=
  ∀ (m : Machine) (g : FrameId),
    act { m with frame := g } = restoring (fun n => { n with frame := g }) act m

namespace Blind

variable {act : Run α} {next : α → Run β}

theorem pure (a : α) : Blind (Pure.pure a : Run α) := fun _ _ => rfl

theorem fail (line : Nat) (cause : Cause) : Blind (Run.fail line cause : Run α) := fun _ _ => rfl

/-- A computation without effects knows no frame. -/
theorem charge (line : Nat) (x : Except Cause α) : Blind (Run.charge line x) := by
  cases x with
  | error cause => exact fail line cause
  | ok a => exact pure a

/-- If no part of a run looks at the frame, the run does not. -/
theorem bind (hact : Blind act) (hnext : ∀ a, Blind (next a)) : Blind (act >>= next) := by
  intro m g
  have hfirst := hact m g
  simp only [Bind.bind, EStateM.bind, restoring] at hfirst ⊢
  cases hrun : act m with
  | error e n =>
    rw [hrun] at hfirst
    rw [hfirst]
  | ok a n =>
    rw [hrun] at hfirst
    rw [hfirst]
    exact hnext a n g

theorem read (id : SeqId) : Blind (Run.read id) := fun _ _ => rfl

/-- A new store goes into the heap, which is not part of any frame. -/
theorem newSeq (kind : SeqKind) (items : List Value) : Blind (Run.newSeq kind items) :=
  fun _ _ => rfl

theorem print (vs : List Value) : Blind (Run.print vs) := fun _ _ => rfl

theorem play (notes : List Value) : Blind (Run.play notes) := fun _ _ => rfl

/-- A sequence is looked up in the heap, not by name. -/
theorem sequence (line : Nat) (cause : Kind → Cause) (v : Value) :
    Blind (Run.sequence line cause v) := by
  cases v with
  | seq kind id => exact bind (read id) fun items => pure _
  | _ => exact fail line _

/-- **The body of a call cannot tell where the call was made.** -/
theorem inCall (p : FrameId) (act : Run α) : Blind (do let f ← childOf p; Run.inCall f act) := by
  intro m g
  -- the machine in which the body begins has no trace of the caller's frame
  let inside : Machine :=
    { m with
      scopes := (m.scopes.child p).2, frame := (m.scopes.child p).1, depth := m.depth + 1,
      pending := none }
  have hhere : (do let f ← childOf p; Run.inCall f act : Run α) m =
      restoring (fun n => { n with frame := m.frame, depth := n.depth - 1, pending := m.pending })
        act inside := rfl
  have hthere : (do let f ← childOf p; Run.inCall f act : Run α) { m with frame := g } =
      restoring (fun n => { n with frame := g, depth := n.depth - 1, pending := m.pending })
        act inside := rfl
  rw [hthere, restoring, restoring, hhere, restoring]
  cases act inside <;> rfl

end Blind

end Run

-- ---------------------------------------------------------------------------
-- Calls
-- ---------------------------------------------------------------------------

variable {self : Doer}

namespace Doer

/-- The body begins in a frame below the one that the function was made in. -/
theorem blind_callClosure (limit : Nat) (f : Closure) (args : List Value) (line : Nat) :
    Blind (self.callClosure limit f args line) := by
  intro m g
  by_cases hlimit : limit ≤ m.depth
  · have hrefused : ∀ n : Machine, n.depth = m.depth →
        self.callClosure limit f args line n = Run.fail line (.callDepth limit) n := by
      intro n hn
      show (if limit ≤ n.depth then Run.fail line (.callDepth limit) else _ : Run Value) n = _
      rw [hn, if_pos hlimit]
    rw [hrefused { m with frame := g } rfl, restoring, hrefused m rfl]
    rfl
  · have hentered : ∀ n : Machine, n.depth = m.depth →
        self.callClosure limit f args line n =
          (do let frame ← childOf f.frame; inCall frame (self.runCode f.code args line) :
            Run Value) n := by
      intro n hn
      show (if limit ≤ n.depth then _ else _ : Run Value) n = _
      rw [hn, if_neg hlimit]
    rw [hentered { m with frame := g } rfl, restoring, hentered m rfl]
    exact Blind.inCall f.frame (self.runCode f.code args line) m g

/-- Calls done in this way are blind. -/
def CallsBlindly (self : Doer) : Prop := ∀ f args line, Blind (self (.call f args line))

variable (h : self.CallsBlindly)

include h

/-- The run lemma of `map`, by induction on the elements that are left. -/
theorem blind_mapItems (f : Value) (line : Nat) (items : List Value) :
    Blind (self.mapItems f line items) := by
  induction items with
  | nil => exact .pure []
  | cons v vs ih => exact (h f [v] line).bind fun w => ih.bind fun ws => .pure (w :: ws)

/-- The run lemma of `filter`. -/
theorem blind_filterItems (f : Value) (line : Nat) (items : List Value) :
    Blind (self.filterItems f line items) := by
  induction items with
  | nil => exact .pure []
  | cons v vs ih =>
    refine (h f [v] line).bind fun w => ?_
    split
    · exact ih.bind fun ws => .pure (v :: ws)
    · exact ih
    · exact .fail line _

theorem blind_map (f : Value) (line : Nat) (items : List Value) :
    Blind (self.map f line items) := by
  unfold Doer.map
  split
  · exact blind_mapItems h f line items
  · exact .fail line _

theorem blind_filter (f : Value) (line : Nat) (items : List Value) :
    Blind (self.filter f line items) := by
  unfold Doer.filter
  split
  · exact blind_filterItems h f line items
  · exact .fail line _

end Doer

namespace Builtin

theorem blind_length (line : Nat) (v : Value) : Blind (length line v) := by
  unfold length
  split
  · exact (Blind.read _).bind fun items => .pure _
  · exact .pure _
  · exact .pure _
  · exact .fail line _

/-- A statistic reads a sequence and computes. -/
theorem blind_measure (b : Builtin) (line : Nat) (v : Value)
    (f : List Value → Except Cause Value) : Blind (b.measure line v f) :=
  (Blind.sequence line _ v).bind fun s => .charge line (f s.items)

/-- Rotating and shifting read a sequence and make a new one. -/
theorem blind_moved (b : Builtin) (line : Nat) (v k : Value)
    (f : List Value → Int64 → List Value) : Blind (b.moved line v k f) :=
  (Blind.sequence line _ v).bind fun s =>
    (Blind.charge line _).bind fun n => .newSeq s.kind (f s.items n)

/-- No built-in function reads a name, and those that call back do it blindly.
-/
theorem blind_apply (h : self.CallsBlindly) (b : Builtin) (args : List Value) (line : Nat) :
    Blind (b.apply self args line) := by
  unfold apply
  split
  · exact (Blind.print _).bind fun _ => .pure _
  · -- play
    refine (Blind.sequence line _ _).bind fun s => ?_
    exact (Blind.charge line _).bind fun _ => (Blind.play s.items).bind fun _ => .pure _
  · exact blind_length line _
  · exact blind_measure _ line _ _
  · exact blind_measure _ line _ _
  · exact blind_measure _ line _ _
  · exact blind_measure _ line _ _
  · exact blind_measure _ line _ _
  · exact blind_measure _ line _ _
  · exact blind_measure _ line _ _
  · exact .charge line _
  · exact .charge line _
  · -- linreg
    refine (Blind.sequence line _ _).bind fun x => (Blind.sequence line _ _).bind fun y => ?_
    exact (Blind.charge line _).bind fun r => .newSeq .list r.values
  · -- map
    refine (Blind.sequence line _ _).bind fun s => ?_
    exact (Doer.blind_map h _ line s.items).bind fun items => .newSeq s.kind items
  · -- filter
    refine (Blind.sequence line _ _).bind fun s => ?_
    exact (Doer.blind_filter h _ line s.items).bind fun items => .newSeq s.kind items
  · exact blind_moved _ line _ _ _
  · exact blind_moved _ line _ _ _
  · exact .fail line _

/-- Nor does the check of how many arguments there are. -/
theorem blind_call (h : self.CallsBlindly) (b : Builtin) (args : List Value) (line : Nat) :
    Blind (b.call self args line) := by
  unfold call
  split
  · exact blind_apply h b args line
  · exact .fail line _

end Builtin

/-- Whatever is called: a function of a program, a built-in one, or a value that
is none. -/
theorem Doer.blind_callValue (h : self.CallsBlindly) (limit : Nat) (f : Value)
    (args : List Value) (line : Nat) : Blind (self.callValue limit f args line) := by
  cases f with
  | func c => exact blind_callClosure limit c args line
  | builtin b => exact Builtin.blind_call h b args line
  | _ => exact .fail line _

/-- Calls are blind, however deep they call back. -/
theorem blind_perform_call (limit budget : Nat) : (perform limit budget).CallsBlindly := by
  induction budget with
  | zero => exact fun _ _ _ _ _ => rfl
  | succ budget ih => exact fun f args line => Doer.blind_callValue ih limit f args line

/-- **Scoping is lexical.** Call any value with any arguments on two machines that
differ only in the frame that is current. The calls end alike, with the same value
or the same fault, and the machines they leave differ only in that each is back in
its own frame. -/
theorem calls_lexical (limit budget : Nat) (f : Value) (args : List Value) (line : Nat)
    (m : Machine) (g : FrameId) :
    let call := perform limit budget (.call f args line)
    call.outcome { m with frame := g } = call.outcome m ∧
      (call.after m).frame = m.frame ∧
      call.after { m with frame := g } = { call.after m with frame := g } := by
  intro call
  have hblind : call { m with frame := g } =
      restoring (fun n => { n with frame := g }) call m :=
    blind_perform_call limit budget f args line m g
  have hframe : (call.after m).frame = m.frame :=
    (safe_perform limit budget (.call f args line) m).after.1.frame
  unfold outcome Run.after at *
  rw [hblind, restoring]
  cases hrun : call m with
  | ok v n =>
    rw [hrun] at hframe
    exact ⟨rfl, hframe, rfl⟩
  | error e n =>
    rw [hrun] at hframe
    exact ⟨rfl, hframe, rfl⟩

end SeqScript
