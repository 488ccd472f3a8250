import SeqScript.Program.Parser

/-!
# What readers do

A reader is followed over a row of tokens that ends with its only end mark.
`Reads` says what it may do there, whether it succeeds or fails:

* it leaves a cursor in the same row, no further to the front than it began;
* it never gives up for want of steps;
* a problem lies at a token between the one where reading began and the one that
  the reader stopped at.

A `Reader` moreover takes a token at least if it succeeds. Steps cannot run out
because the bounds count tokens, and each round of a reader that repeats, as each
level of one that nests, goes through a `Reader`.

What a reader gives is `Writable`: the grammar has casts to the four plain types
only. The specifications follow the functions of the grammar one by one, down to
`reader_stmt`.
-/

namespace SeqScript

-- ---------------------------------------------------------------------------
-- Rows
-- ---------------------------------------------------------------------------

/-- A row of tokens that ends with its only end mark. -/
def Closed (ls : List Lexeme) : Prop :=
  ∃ body place, ls = body ++ [⟨.eof, place⟩] ∧ ∀ l ∈ body, l.token ≠ .eof

/-- A closed row is its end mark alone, or it begins with another token and goes
on closed. -/
theorem closed_cons {l : Lexeme} {ls : List Lexeme} :
    Closed (l :: ls) ↔ (ls = [] ∧ l.token = .eof) ∨ (l.token ≠ .eof ∧ Closed ls) := by
  constructor
  · rintro ⟨body, place, hls, hbody⟩
    cases body with
    | nil =>
      obtain ⟨rfl, rfl⟩ := List.cons.inj hls
      exact Or.inl ⟨rfl, rfl⟩
    | cons b body =>
      obtain ⟨rfl, rfl⟩ := List.cons.inj hls
      rw [List.forall_mem_cons] at hbody
      exact Or.inr ⟨hbody.1, body, place, rfl, hbody.2⟩
  · rintro (⟨rfl, hl⟩ | ⟨hl, body, place, rfl, hbody⟩)
    · exact ⟨[], l.place, by rw [← hl]; rfl, by simp⟩
    · exact ⟨l :: body, place, rfl, List.forall_mem_cons.2 ⟨hl, hbody⟩⟩

/-- What is left of a closed row is closed, as long as something is left. -/
theorem Closed.of_suffix {l : Lexeme} {ls ts : List Lexeme} (h : Closed ls)
    (hsuffix : l :: ts <:+ ls) : Closed (l :: ts) := by
  obtain ⟨front, rfl⟩ := hsuffix
  induction front with
  | nil => exact h
  | cons b front ih =>
    rcases closed_cons.1 h with ⟨hnil, -⟩ | ⟨-, hrest⟩
    · simp at hnil
    · exact ih hrest

namespace Cursor

/-- The tokens from a cursor on. -/
def row (c : Cursor) : List Lexeme := c.current :: c.rest

/-- A cursor is told by the tokens it still has before it. -/
theorem row_injective {c d : Cursor} (h : c.row = d.row) : c = d := by
  obtain ⟨hcurrent, hrest⟩ := List.cons.inj h
  cases c
  cases d
  simp_all

/-- The bound of a cursor counts the tokens before it, the end mark included. -/
theorem length_row (c : Cursor) : c.row.length = c.bound := rfl

theorem not_bound_le_zero (c : Cursor) : ¬ c.bound ≤ 0 := Nat.not_succ_le_zero _

/-- Taking a token never goes back, and at the last one it stays. -/
theorem suffix_next (c : Cursor) : c.next.row <:+ c.row := by
  rcases c with ⟨l, _ | ⟨t, ts⟩⟩
  · exact List.suffix_refl _
  · exact List.suffix_cons l (t :: ts)

/-- Further on there are fewer tokens to read. -/
theorem bound_le {c d : Cursor} (h : d.row <:+ c.row) : d.bound ≤ c.bound := h.length_le

/-- A cursor in a row that ends with its only end mark, at the token where `o`
stands or behind it. -/
structure Within (c o : Cursor) : Prop where
  closed : Closed o.row
  suffix : c.row <:+ o.row

namespace Within

variable {c d o : Cursor}

theorem refl (h : Closed c.row) : c.Within c := ⟨h, List.suffix_refl _⟩

/-- Being in a row is kept by going on in it. -/
theorem of_suffix (hc : c.Within o) (h : d.row <:+ c.row) : d.Within o :=
  ⟨hc.closed, h.trans hc.suffix⟩

theorem next (hc : c.Within o) : c.next.Within o := hc.of_suffix c.suffix_next

/-- The end mark is always ahead. -/
theorem closed_row (hc : c.Within o) : Closed c.row := hc.closed.of_suffix hc.suffix

/-- Only the end mark is never left. -/
theorem bound_next (hc : c.Within o) (ht : c.current.token ≠ .eof) :
    c.next.bound < c.bound := by
  rcases closed_cons.1 hc.closed_row with ⟨-, heof⟩ | ⟨-, hrest⟩
  · exact absurd heof ht
  · obtain ⟨l, _ | ⟨t, ts⟩⟩ := c
    · obtain ⟨body, place, hnil, -⟩ := hrest
      simp at hnil
    · exact Nat.lt_succ_self _

end Within

end Cursor

-- ---------------------------------------------------------------------------
-- What can be written
-- ---------------------------------------------------------------------------

/-- The types that a cast can name. -/
def Ty.isPlain : Ty → Bool
  | .int | .float | .bool | .string => true
  | _ => false

/-- An expression with casts to plain types only. -/
inductive Expr.Writable : Expr → Prop
  | literal (v : Literal) (p : Place) : (Expr.literal v p).Writable
  | ident (name : String) (p : Place) : (Expr.ident name p).Writable
  | binary {l r : Expr} (op : BinaryOp) (p : Place) :
    l.Writable → r.Writable → (Expr.binary op l r p).Writable
  | unary {e : Expr} (op : UnaryOp) (p : Place) : e.Writable → (Expr.unary op e p).Writable
  | cast {t : Ty} {e : Expr} (p : Place) :
    t.isPlain = true → e.Writable → (Expr.cast t e p).Writable
  | call {args : List Expr} (name : String) (p : Place) :
    (∀ e ∈ args, e.Writable) → (Expr.call name args p).Writable
  | index {e i : Expr} (p : Place) : e.Writable → i.Writable → (Expr.index e i p).Writable
  | collection {e : Expr} {args : List Expr} {named : List (String × Expr)} (op : CollectionOp)
      (p : Place) : e.Writable → (∀ a ∈ args, a.Writable) → (∀ a ∈ named, a.2.Writable) →
    (Expr.collection op e args named p).Writable
  | items {es : List Expr} (p : Place) : (∀ e ∈ es, e.Writable) → (Expr.items es p).Writable
  | lambda {e : Expr} (x : String) (p : Place) : e.Writable → (Expr.lambda x e p).Writable

/-- A parameter whose default can be written. -/
def Param.Writable (q : Param) : Prop := ∀ e ∈ q.default, e.Writable

/-- A statement whose expressions can be written. -/
inductive Stmt.Writable : Stmt → Prop
  | declare {value : Option Expr} (name : String) (t : Option Ty) (p : Place) :
    (∀ e ∈ value, e.Writable) → (Stmt.declare name t value p).Writable
  | assign {e : Expr} (name : String) (op : AssignOp) (p : Place) :
    e.Writable → (Stmt.assign name op e p).Writable
  | assignIndex {i e : Expr} (name : String) (op : AssignOp) (p : Place) :
    i.Writable → e.Writable → (Stmt.assignIndex name i op e p).Writable
  | func {params : List Param} {body : List Stmt} (name : String) (result : Option Ty)
      (p : Place) : (∀ q ∈ params, q.Writable) → (∀ s ∈ body, s.Writable) →
    (Stmt.func name params result body p).Writable
  | branch {e : Expr} {onTrue : List Stmt} {onFalse : Option (List Stmt)} (p : Place) :
    e.Writable → (∀ s ∈ onTrue, s.Writable) → (∀ ss ∈ onFalse, ∀ s ∈ ss, s.Writable) →
    (Stmt.branch e onTrue onFalse p).Writable
  | loop {e : Expr} {body : List Stmt} (p : Place) :
    e.Writable → (∀ s ∈ body, s.Writable) → (Stmt.loop e body p).Writable
  | select {e : Expr} {cases : List MatchCase} (p : Place) :
    e.Writable → (∀ k ∈ cases, k.body.Writable) → (Stmt.select e cases p).Writable
  | ret {value : Option Expr} (p : Place) :
    (∀ e ∈ value, e.Writable) → (Stmt.ret value p).Writable
  | block {body : List Stmt} (p : Place) :
    (∀ s ∈ body, s.Writable) → (Stmt.block body p).Writable
  | expr {e : Expr} : e.Writable → (Stmt.expr e).Writable

-- ---------------------------------------------------------------------------
-- Readers
-- ---------------------------------------------------------------------------

namespace Parser

variable {α β : Type}

/-- What a reader does at the cursor `c`, for reading that began at `o`. -/
def Reads (o : Cursor) (p : Parser α) (c : Cursor) (Q : α → Cursor → Prop) : Prop :=
  match p c with
  | .ok a c' => c'.row <:+ c.row ∧ Q a c'
  | .error d c' => c'.row <:+ c.row ∧ d.problem ≠ .exhausted ∧
      ∃ t : Cursor, t.row <:+ o.row ∧ c'.row <:+ t.row ∧ d.place = t.current.place

/-- A reader that takes a token at least, wherever no more than `n` are left. -/
def Reader (o : Cursor) (n : Nat) (p : Parser α) (G : α → Prop) : Prop :=
  ∀ c : Cursor, c.Within o → c.bound ≤ n → Reads o p c fun a c' => c'.bound < c.bound ∧ G a

-- ---------------------------------------------------------------------------
-- Single tokens
-- ---------------------------------------------------------------------------

section Tokens

variable {c : Cursor} {t : Token}

/-- A token that is asked for is taken. -/
theorem accept_of_eq (h : c.current.token = t) : accept t c = .ok true c.next := by
  show (if decide (c.current.token = t) = true then _ else _ : Parser Bool) c = _
  rw [if_pos (decide_eq_true h)]
  rfl

/-- Any other one stays. -/
theorem accept_of_ne (h : c.current.token ≠ t) : accept t c = .ok false c := by
  show (if decide (c.current.token = t) = true then _ else _ : Parser Bool) c = _
  rw [if_neg (by simp [h])]
  rfl

theorem expect_of_eq (h : c.current.token = t) : expect t c = .ok () c.next := by
  show (if decide (c.current.token = t) = true then _ else _ : Parser Unit) c = _
  rw [if_pos (decide_eq_true h)]
  rfl

theorem ident_of_eq {name : String} (h : c.current.token = .ident name) :
    ident c = .ok name c.next := by
  obtain ⟨⟨t, place⟩, ls⟩ := c
  obtain rfl : t = .ident name := h
  rfl

end Tokens

-- ---------------------------------------------------------------------------
-- Rules
-- ---------------------------------------------------------------------------

variable {o c t : Cursor} {p : Parser α} {f : α → Parser β} {Q : α → Cursor → Prop}
  {R : β → Cursor → Prop} {G : α → Prop} {n : Nat}

namespace Reads

/-- A weaker postcondition, which may use that reading went on in the row. -/
theorem imp {Q' : α → Cursor → Prop} (hp : Reads o p c Q)
    (h : ∀ a c', c'.row <:+ c.row → Q a c' → Q' a c') : Reads o p c Q' := by
  unfold Reads at *
  cases hrun : p c with
  | ok a c' =>
    rw [hrun] at hp
    exact ⟨hp.1, h a c' hp.1 hp.2⟩
  | error d c' =>
    rw [hrun] at hp
    exact hp

theorem pure {a : α} (h : Q a c) : Reads o (pure a) c Q := ⟨List.suffix_refl _, h⟩

/-- Failing is right at any token between the one where reading began and the
next one. -/
theorem failAt {problem : Problem} (hc : c.row <:+ t.row) (ht : t.row <:+ o.row)
    (hproblem : problem ≠ .exhausted) :
    Reads o (Parser.failAt t.current.place problem) c Q :=
  ⟨List.suffix_refl _, hproblem, t, ht, hc, rfl⟩

/-- The token that is next is always such a one. -/
theorem unexpected (hc : c.Within o) (wanted : String) :
    Reads o (Parser.unexpected wanted) c Q :=
  ⟨List.suffix_refl _, Problem.noConfusion, c, hc.suffix, List.suffix_refl _, rfl⟩

/-- Reading one thing after the other. The second begins further on in the same
row, so its problems are in place for both. -/
theorem bind (hp : Reads o p c Q) (hc : c.Within o)
    (hf : ∀ a (c' : Cursor), c'.Within o → c'.bound ≤ c.bound → Q a c' → Reads o (f a) c' R) :
    Reads o (p >>= f) c R := by
  unfold Reads at hp
  cases hrun : p c with
  | ok a c' =>
    rw [hrun] at hp
    obtain ⟨hsuffix, hQ⟩ := hp
    have hcont := hf a c' (hc.of_suffix hsuffix) (Cursor.bound_le hsuffix) hQ
    have heq : (p >>= f) c = f a c' := by simp only [Bind.bind, EStateM.bind, hrun]
    unfold Reads at hcont ⊢
    rw [heq]
    cases hrun' : f a c' with
    | ok b c'' =>
      rw [hrun'] at hcont
      exact ⟨hcont.1.trans hsuffix, hcont.2⟩
    | error d c'' =>
      rw [hrun'] at hcont
      exact ⟨hcont.1.trans hsuffix, hcont.2⟩
  | error d c' =>
    rw [hrun] at hp
    have heq : (p >>= f) c = .error d c' := by simp only [Bind.bind, EStateM.bind, hrun]
    unfold Reads
    rw [heq]
    exact hp

theorem get_bind {f : Cursor → Parser β} (h : Reads o (f c) c R) : Reads o (get >>= f) c R := h

theorem peek_bind {f : Token → Parser β} (h : Reads o (f c.current.token) c R) :
    Reads o (peek >>= f) c R := h

theorem here_bind {f : Place → Parser β} (h : Reads o (f c.current.place) c R) :
    Reads o (here >>= f) c R := h

theorem check_bind {f : Bool → Parser β} {t : Token}
    (h : Reads o (f (decide (c.current.token = t))) c R) : Reads o (check t >>= f) c R := h

/-- Taking a token, whatever it is. -/
theorem advance_bind {f : Lexeme → Parser β} (h : Reads o (f c.current) c.next R) :
    Reads o (advance >>= f) c R := by
  have heq : (advance >>= f) c = f c.current c.next := rfl
  unfold Reads at *
  rw [heq]
  cases hrun : f c.current c.next with
  | ok b c' =>
    rw [hrun] at h
    exact ⟨h.1.trans c.suffix_next, h.2⟩
  | error d c' =>
    rw [hrun] at h
    exact ⟨h.1.trans c.suffix_next, h.2⟩

/-- A choice by the next token, which stays. -/
theorem check_ite {p q : Parser β} {t : Token} (hyes : c.current.token = t → Reads o p c R)
    (hno : c.current.token ≠ t → Reads o q c R) :
    Reads o (check t >>= fun b => if b = true then p else q) c R := by
  refine check_bind ?_
  by_cases htoken : c.current.token = t
  · rw [if_pos (decide_eq_true htoken)]
    exact hyes htoken
  · rw [if_neg (by simp [htoken])]
    exact hno htoken

/-- Up to a token that closes something, or to the end mark. -/
theorem close_ite {p q : Parser β} {t : Token} (hyes : Reads o p c R)
    (hno : c.current.token ≠ .eof → Reads o q c R) :
    Reads o (do if (← check t) || (← atEnd) then p else q) c R := by
  refine check_bind (check_bind ?_)
  split
  · exact hyes
  · rename_i hmore
    exact hno fun heof => hmore (by simp [heof])

/-- Where a token that is not the end mark is taken, or something else goes on. -/
theorem accept_ite {p q : Parser β} {t : Token} (hc : c.Within o) (ht : t ≠ .eof)
    (hyes : ∀ c' : Cursor, c'.Within o → c'.bound < c.bound → Reads o p c' R)
    (hno : Reads o q c R) :
    Reads o (accept t >>= fun b => if b = true then p else q) c R := by
  have haccept : Reads o (accept t) c fun b c' =>
      b = true ∧ c'.bound < c.bound ∨ b = false ∧ c' = c := by
    unfold Reads
    by_cases htoken : c.current.token = t
    · rw [accept_of_eq htoken]
      exact ⟨c.suffix_next, Or.inl ⟨rfl, hc.bound_next (by rwa [htoken])⟩⟩
    · rw [accept_of_ne htoken]
      exact ⟨List.suffix_refl _, Or.inr ⟨rfl, rfl⟩⟩
  refine haccept.bind hc fun b c' hc' _ hb => ?_
  rcases hb with ⟨rfl, hlt⟩ | ⟨rfl, rfl⟩
  · exact hyes c' hc' hlt
  · exact hno

end Reads

/-- Behind a reader a token fewer is left, which is what pays for a round of a
repetition. -/
theorem Reader.bind (hp : Reader o n p G) (hc : c.Within o) (hn : c.bound ≤ n)
    (hf : ∀ a (c' : Cursor), c'.Within o → c'.bound < c.bound → G a → Reads o (f a) c' R) :
    Reads o (p >>= f) c R :=
  (hp c hc hn).bind hc fun a c' hc' _ hQ => hf a c' hc' hQ.1 hQ.2

/-- A sign that has to come is taken, and is not the end mark. -/
theorem reader_expect {t : Token} (ht : t ≠ .eof) : Reader o n (expect t) fun _ => True := by
  intro c hc _
  by_cases htoken : c.current.token = t
  · unfold Reads
    rw [expect_of_eq htoken]
    exact ⟨c.suffix_next, hc.bound_next (by rwa [htoken]), trivial⟩
  · rw [expect]
    refine .check_ite (fun h => absurd h htoken) fun _ => ?_
    exact .here_bind (.peek_bind (.failAt (List.suffix_refl _) hc.suffix Problem.noConfusion))

/-- A name is a token. -/
theorem reader_ident : Reader o n ident fun _ => True := by
  intro c hc _
  rw [ident]
  refine .advance_bind ?_
  split
  · next heq => exact .pure ⟨hc.bound_next (by simp [heq]), trivial⟩
  · exact .failAt c.suffix_next hc.suffix Problem.noConfusion

-- ---------------------------------------------------------------------------
-- Types and patterns
-- ---------------------------------------------------------------------------

/-- The types that take more than the word for a plain type. -/
def opensType : Token → Bool
  | .typeWord .array | .typeWord .list | .keyword .funcK => true
  | _ => false

/-- By induction on the levels of nesting. A type that begins with no word for
sequences or functions is plain. -/
theorem reads_tyAt (n : Nat) (c : Cursor) (hc : c.Within o) (hn : c.bound ≤ n) :
    Reads o (tyAt n) c fun t c' =>
      c'.bound < c.bound ∧ (opensType c.current.token = true ∨ t.isPlain = true) := by
  induction n generalizing c with
  | zero => exact absurd hn c.not_bound_le_zero
  | succ n ih =>
    have hinner (heof : c.current.token ≠ .eof) (make : Ty → Ty)
        (hopens : opensType c.current.token = true) :
        Reads o (do
          expect (.sign .lt)
          let t ← tyAt n
          expect (.sign .gt)
          return make t) c.next fun t c' =>
            c'.bound < c.bound ∧ (opensType c.current.token = true ∨ t.isPlain = true) := by
      have hnext := hc.bound_next heof
      refine (reader_expect Token.noConfusion).bind hc.next (Nat.le_refl _) fun _ c₁ hc₁ h₁ _ => ?_
      refine (ih c₁ hc₁ (by omega)).bind hc₁ fun t c₂ hc₂ h₂ _ => ?_
      refine (reader_expect Token.noConfusion).bind hc₂ (Nat.le_refl _) fun _ c₃ hc₃ h₃ _ => ?_
      exact .pure ⟨by omega, Or.inl hopens⟩
    rw [tyAt]
    refine .advance_bind ?_
    split
    case h_6 heq => exact hinner (by simp [heq]) .array (by rw [heq]; rfl)
    case h_7 heq => exact hinner (by simp [heq]) .list (by rw [heq]; rfl)
    case h_8 => exact .failAt c.suffix_next hc.suffix Problem.noConfusion
    case h_5 heq => exact .pure ⟨hc.bound_next (by simp [heq]), Or.inl (by rw [heq]; rfl)⟩
    all_goals
      next heq => exact .pure ⟨hc.bound_next (by simp [heq]), Or.inr rfl⟩

theorem reads_ty (hc : c.Within o) :
    Reads o ty c fun t c' =>
      c'.bound < c.bound ∧ (opensType c.current.token = true ∨ t.isPlain = true) :=
  .get_bind (reads_tyAt c.bound c hc (Nat.le_refl _))

/-- A type takes at least its first word. -/
theorem reader_ty : Reader o n ty fun _ => True :=
  fun _ hc _ => (reads_ty hc).imp fun _ _ _ h => ⟨h.1, trivial⟩

/-- The run lemma of rows between commas: each round takes an item, so the
rounds suffice. -/
theorem reads_itemsAt {item : Parser α} (hitem : Reader o n item G) (close : Token) (m : Nat)
    (c : Cursor) (hc : c.Within o) (hn : c.bound ≤ n) (hm : c.bound ≤ m) :
    Reads o (itemsAt item close m) c fun xs _ => ∀ x ∈ xs, G x := by
  induction m generalizing c with
  | zero => exact absurd hm c.not_bound_le_zero
  | succ m ih =>
    rw [itemsAt]
    refine .close_ite (.pure (by simp)) fun _ => ?_
    refine hitem.bind hc hn fun x c₁ hc₁ h₁ hx => ?_
    refine .accept_ite hc₁ Token.noConfusion (fun c₂ hc₂ h₂ => ?_) (.pure (by simpa))
    refine (ih c₂ hc₂ (by omega) (by omega)).bind hc₂ fun xs _ _ _ hxs => ?_
    exact .pure (List.forall_mem_cons.2 ⟨hx, hxs⟩)

/-- With as many rounds as tokens. -/
theorem reads_items {item : Parser α} (hitem : Reader o n item G) (close : Token)
    (hc : c.Within o) (hn : c.bound ≤ n) :
    Reads o (items item close) c fun xs _ => ∀ x ∈ xs, G x :=
  .get_bind (reads_itemsAt hitem close c.bound c hc hn (Nat.le_refl _))

/-- A sign and a number behind it. -/
theorem reader_negativeLiteral : Reader o n negativeLiteral fun _ => True := by
  intro c hc _
  rw [negativeLiteral]
  refine .advance_bind ?_
  split
  case h_3 => exact .failAt c.suffix_next hc.suffix Problem.noConfusion
  all_goals next heq => exact .pure ⟨hc.bound_next (by simp [heq]), trivial⟩

/-- By induction on the levels of nesting, each of which takes a bracket. -/
theorem reader_patternAt (n : Nat) : Reader o n (patternAt n) fun _ => True := by
  induction n with
  | zero => exact fun c _ hn => absurd hn c.not_bound_le_zero
  | succ n ih =>
    intro c hc hn
    refine .advance_bind ?_
    cases htoken : c.current.token with
    | int | float | bool | str | ident =>
      exact .pure ⟨hc.bound_next (by simp [htoken]), trivial⟩
    | keyword | typeWord | eof => exact .failAt c.suffix_next hc.suffix Problem.noConfusion
    | sign s =>
      have hnext := hc.bound_next (by simp [htoken])
      cases s with
      | underscore => exact .pure ⟨hnext, trivial⟩
      | minus =>
        exact (reader_negativeLiteral c.next hc.next (Nat.le_refl _)).imp fun _ _ _ h =>
          ⟨by omega, trivial⟩
      | lbracket =>
        refine (reads_items ih _ hc.next (by omega)).bind hc.next fun ps c₁ hc₁ h₁ _ => ?_
        refine (reader_expect Token.noConfusion).bind hc₁ (Nat.le_refl _) fun _ c₂ _ h₂ _ => ?_
        exact .pure ⟨by omega, trivial⟩
      | _ => exact .failAt c.suffix_next hc.suffix Problem.noConfusion

theorem reader_pattern : Reader o n pattern fun _ => True :=
  fun c hc _ => .get_bind (reader_patternAt c.bound c hc (Nat.le_refl _))

-- ---------------------------------------------------------------------------
-- Expressions
-- ---------------------------------------------------------------------------

section Expressions

variable {expr operand : Parser Expr} {op? : Token → Option BinaryOp}

/-- The run lemma of operators of one level: each round takes an operator and
its right operand. -/
theorem reads_chainAt (hop : op? .eof = none) (hoperand : Reader o n operand Expr.Writable)
    (m : Nat) (c : Cursor) (left : Expr) (hc : c.Within o) (hn : c.bound ≤ n)
    (hm : c.bound ≤ m) (hleft : left.Writable) :
    Reads o (chainAt op? operand m left) c fun e _ => e.Writable := by
  induction m generalizing c left with
  | zero => exact absurd hm c.not_bound_le_zero
  | succ m ih =>
    rw [chainAt]
    refine .peek_bind ?_
    split
    · exact .pure hleft
    · next op heq =>
      have hnext := hc.bound_next (fun h => by simp [h, hop] at heq)
      refine .advance_bind ?_
      refine hoperand.bind hc.next (by omega) fun right c₁ hc₁ h₁ hright => ?_
      exact ih c₁ _ hc₁ (by omega) (by omega) (.binary op _ hleft hright)

/-- The first operand pays for the whole chain. -/
theorem reader_chain (hop : op? .eof = none) (hoperand : Reader o n operand Expr.Writable) :
    Reader o n (chain op? operand) Expr.Writable := by
  intro c hc hn
  rw [chain]
  refine hoperand.bind hc hn fun left c₁ hc₁ h₁ hleft => .get_bind ?_
  refine (reads_chainAt hop hoperand _ c₁ left hc₁ (by omega) (Nat.le_refl _) hleft).imp ?_
  exact fun e c₂ hsuffix he => ⟨Nat.lt_of_le_of_lt (Cursor.bound_le hsuffix) h₁, he⟩

/-- From the tightest operators to the loosest, one chain around the other. -/
theorem reader_levels {unary : Parser Expr} (h : Reader o n unary Expr.Writable) :
    Reader o n (levels unary) Expr.Writable :=
  reader_chain rfl <| reader_chain rfl <| reader_chain rfl <| reader_chain rfl <|
    reader_chain rfl <| reader_chain rfl h

/-- A word for a plain type opens a cast. This is where a cast to another type
would have to come from. -/
theorem reads_castExpr (hexpr : Reader o n expr Expr.Writable) (hc : c.Within o)
    (hn : c.bound ≤ n + 1) (hplain : opensType c.current.token = false) (p : Place) :
    Reads o (castExpr expr p) c fun e c' => c'.bound < c.bound ∧ e.Writable := by
  refine .get_bind ?_
  show Reads o (if _ then _ else _) c _
  split
  · refine (reads_ty hc).bind hc fun t c₁ hc₁ _ ht => ?_
    obtain ⟨h₁, ht⟩ := ht
    refine (reader_expect Token.noConfusion).bind hc₁ (Nat.le_refl _) fun _ c₂ hc₂ h₂ _ => ?_
    refine hexpr.bind hc₂ (by omega) fun e c₃ hc₃ h₃ he => ?_
    refine (reader_expect Token.noConfusion).bind hc₃ (Nat.le_refl _) fun _ c₄ _ h₄ _ => ?_
    exact .pure ⟨by omega, .cast p (ht.resolve_left (by simp [hplain])) he⟩
  · exact .unexpected hc _

/-- A name alone, or with its arguments. -/
theorem reads_named (hexpr : Reader o n expr Expr.Writable) (hc : c.Within o)
    (hn : c.bound ≤ n + 1) (hident : c.current.token ≠ .eof) (name : String) (p : Place) :
    Reads o (named expr name p) c fun e c' => c'.bound < c.bound ∧ e.Writable := by
  have hnext := hc.bound_next hident
  rw [named]
  refine .advance_bind (.accept_ite hc.next Token.noConfusion (fun c₁ hc₁ h₁ => ?_) ?_)
  · refine hexpr.bind hc₁ (by omega) fun body c₂ _ h₂ hbody => ?_
    exact .pure ⟨by omega, .lambda name p hbody⟩
  refine .accept_ite hc.next Token.noConfusion (fun c₁ hc₁ h₁ => ?_) ?_
  · refine (reads_items hexpr _ hc₁ (by omega)).bind hc₁ fun args c₂ hc₂ h₂ hargs => ?_
    refine (reader_expect Token.noConfusion).bind hc₂ (Nat.le_refl _) fun _ c₃ _ h₃ _ => ?_
    exact .pure ⟨by omega, .call name p hargs⟩
  · exact .pure ⟨hnext, .ident name p⟩

/-- What stands inside of brackets is one level deeper, and the bracket has paid
for it. -/
theorem reader_primary (hexpr : Reader o n expr Expr.Writable) :
    Reader o (n + 1) (primary expr) Expr.Writable := by
  intro c hc hn
  have hliteral (v : Literal) (heof : c.current.token ≠ .eof) :
      Reads o (literal v c.current.place) c fun e c' => c'.bound < c.bound ∧ e.Writable :=
    .advance_bind (.pure ⟨hc.bound_next heof, .literal v _⟩)
  refine .here_bind (.peek_bind ?_)
  cases htoken : c.current.token with
  | int v => exact hliteral (.int v) (by simp [htoken])
  | float x => exact hliteral (.float x) (by simp [htoken])
  | bool b => exact hliteral (.bool b) (by simp [htoken])
  | str s => exact hliteral (.str s) (by simp [htoken])
  | ident name => exact reads_named hexpr hc hn (by simp [htoken]) _ _
  | keyword | eof => exact .unexpected hc _
  | typeWord w =>
    cases w with
    | array | list => exact .unexpected hc _
    | int | float | bool | string => exact reads_castExpr hexpr hc hn (by rw [htoken]; rfl) _
  | sign s =>
    have hnext := hc.bound_next (by simp [htoken])
    cases s with
    | lparen =>
      refine .advance_bind ?_
      refine hexpr.bind hc.next (by omega) fun e c₁ hc₁ h₁ he => ?_
      refine (reader_expect Token.noConfusion).bind hc₁ (Nat.le_refl _) fun _ c₂ _ h₂ _ => ?_
      exact .pure ⟨by omega, he⟩
    | lbracket =>
      refine .advance_bind ?_
      refine (reads_items hexpr _ hc.next (by omega)).bind hc.next fun es c₁ hc₁ h₁ hes => ?_
      refine (reader_expect Token.noConfusion).bind hc₁ (Nat.le_refl _) fun _ c₂ _ h₂ _ => ?_
      exact .pure ⟨by omega, .items _ hes⟩
    | _ => exact .unexpected hc _

/-- The run lemma of arguments: those without a name come first, each round
takes a token. -/
theorem reads_argumentsAt (hexpr : Reader o n expr Expr.Writable) (m : Nat) (begun : Bool)
    (c : Cursor) (hc : c.Within o) (hn : c.bound ≤ n) (hm : c.bound ≤ m) :
    Reads o (argumentsAt expr m begun) c fun r _ =>
      (∀ e ∈ r.1, e.Writable) ∧ ∀ a ∈ r.2, a.2.Writable := by
  induction m generalizing c begun with
  | zero => exact absurd hm c.not_bound_le_zero
  | succ m ih =>
    rw [argumentsAt]
    refine .close_ite (.pure (by simp)) fun _ => .get_bind ?_
    show Reads o (if _ then _ else _) c _
    split
    · refine reader_ident.bind hc (Nat.le_refl _) fun name c₁ hc₁ h₁ _ => .advance_bind ?_
      have h₂ := Cursor.bound_le c₁.suffix_next
      refine hexpr.bind hc₁.next (by omega) fun e c₃ hc₃ h₃ he => ?_
      refine .accept_ite hc₃ Token.noConfusion (fun c₄ hc₄ h₄ => ?_) (.pure (by simpa))
      refine (ih true c₄ hc₄ (by omega) (by omega)).bind hc₄ fun r _ _ _ hr => ?_
      exact .pure ⟨hr.1, List.forall_mem_cons.2 ⟨he, hr.2⟩⟩
    · split
      · exact .unexpected hc _
      · refine hexpr.bind hc hn fun e c₁ hc₁ h₁ he => ?_
        refine .accept_ite hc₁ Token.noConfusion (fun c₂ hc₂ h₂ => ?_) (.pure (by simpa))
        refine (ih false c₂ hc₂ (by omega) (by omega)).bind hc₂ fun r _ _ _ hr => ?_
        exact .pure ⟨List.forall_mem_cons.2 ⟨he, hr.1⟩, hr.2⟩

/-- A point, the name of an operation and its arguments. -/
theorem reads_operation (hexpr : Reader o n expr Expr.Writable) (hc : c.Within o)
    (hn : c.bound ≤ n) {subject : Expr} (hsubject : subject.Writable) :
    Reads o (operation expr subject) c fun e c' => c'.bound < c.bound ∧ e.Writable := by
  rw [operation]
  refine .here_bind ?_
  -- an unknown name is reported where it stands, although it has been taken
  refine (reader_ident c hc (Nat.le_refl _)).imp (fun _ c₁ hsuffix h => And.intro hsuffix h.1)
    |>.bind hc fun name c₁ hc₁ _ h₁ => ?_
  obtain ⟨hsuffix, h₁⟩ := h₁
  split
  · exact .failAt hsuffix hc.suffix Problem.noConfusion
  · next op _ =>
    refine (reader_expect Token.noConfusion).bind hc₁ (Nat.le_refl _) fun _ c₂ hc₂ h₂ _ => ?_
    refine .get_bind ?_
    refine (reads_argumentsAt hexpr _ false c₂ hc₂ (by omega) (Nat.le_refl _)).bind hc₂
      fun r c₃ hc₃ h₃ hr => ?_
    refine (reader_expect Token.noConfusion).bind hc₃ (Nat.le_refl _) fun _ c₄ _ h₄ _ => ?_
    exact .pure ⟨by omega, .collection op _ hsubject hr.1 hr.2⟩

/-- The run lemma of indices and operations behind an expression. -/
theorem reads_suffixesAt (hexpr : Reader o n expr Expr.Writable) (m : Nat) (c : Cursor)
    (subject : Expr) (hc : c.Within o) (hn : c.bound ≤ n) (hm : c.bound ≤ m)
    (hsubject : subject.Writable) :
    Reads o (suffixesAt expr m subject) c fun e _ => e.Writable := by
  induction m generalizing c subject with
  | zero => exact absurd hm c.not_bound_le_zero
  | succ m ih =>
    rw [suffixesAt]
    refine .peek_bind ?_
    split
    · next heq =>
      have hnext := hc.bound_next (by simp [heq])
      refine .advance_bind ?_
      refine (reads_operation hexpr hc.next (by omega) hsubject).bind hc.next
        fun e c₁ hc₁ _ he => ?_
      obtain ⟨h₁, he⟩ := he
      exact ih c₁ e hc₁ (by omega) (by omega) he
    · next heq =>
      have hnext := hc.bound_next (by simp [heq])
      refine .advance_bind ?_
      refine hexpr.bind hc.next (by omega) fun i c₁ hc₁ h₁ hi => ?_
      refine (reader_expect Token.noConfusion).bind hc₁ (Nat.le_refl _) fun _ c₂ hc₂ h₂ _ => ?_
      exact ih c₂ _ hc₂ (by omega) (by omega) (.index _ hsubject hi)
    · exact .pure hsubject

/-- An expression and what follows it. -/
theorem reader_suffixed (hexpr : Reader o n expr Expr.Writable) :
    Reader o (n + 1) (suffixed expr) Expr.Writable := by
  intro c hc hn
  rw [suffixed]
  refine (reader_primary hexpr).bind hc hn fun subject c₁ hc₁ h₁ hsubject => .get_bind ?_
  refine (reads_suffixesAt hexpr _ c₁ subject hc₁ (by omega) (Nat.le_refl _) hsubject).imp ?_
  exact fun e c₂ hsuffix he => ⟨Nat.lt_of_le_of_lt (Cursor.bound_le hsuffix) h₁, he⟩

/-- By induction on the levels of nesting. Every sign in front of an operand is
a level. -/
theorem reader_unaryAt (n : Nat) : Reader o n (unaryAt n) Expr.Writable := by
  induction n with
  | zero => exact fun c _ hn => absurd hn c.not_bound_le_zero
  | succ n ih =>
    intro c hc hn
    have hoperand (op : UnaryOp) (htoken : c.current.token ≠ .eof) :
        Reads o (do
          let _ ← advance
          return Expr.unary op (← unaryAt n) c.current.place) c fun e c' =>
            c'.bound < c.bound ∧ e.Writable := by
      have hnext := hc.bound_next htoken
      refine .advance_bind (ih.bind hc.next (by omega) fun e c₁ _ h₁ he => ?_)
      exact .pure ⟨by omega, .unary op _ he⟩
    rw [unaryAt]
    refine .here_bind (.peek_bind ?_)
    split
    · next heq => exact hoperand .negate (by simp [heq])
    · next heq => exact hoperand .not (by simp [heq])
    · exact reader_suffixed (reader_levels ih) c hc hn

end Expressions

/-- **Expressions.** With as many levels as tokens. -/
theorem reader_expr : Reader o n expr Expr.Writable :=
  fun c hc _ => .get_bind (reader_levels (reader_unaryAt c.bound) c hc (Nat.le_refl _))

-- ---------------------------------------------------------------------------
-- Statements
-- ---------------------------------------------------------------------------

/-- The run lemma of rows up to a closing sign. The end mark stops them as well.
-/
theorem reads_untilAt {item : Parser α} (hitem : Reader o n item G) (close : Token) (m : Nat)
    (c : Cursor) (hc : c.Within o) (hn : c.bound ≤ n) (hm : c.bound ≤ m) :
    Reads o (untilAt item close m) c fun xs _ => ∀ x ∈ xs, G x := by
  induction m generalizing c with
  | zero => exact absurd hm c.not_bound_le_zero
  | succ m ih =>
    rw [untilAt]
    refine .close_ite (.pure (by simp)) fun _ => ?_
    refine hitem.bind hc hn fun x c₁ hc₁ h₁ hx => ?_
    refine (ih c₁ hc₁ (by omega) (by omega)).bind hc₁ fun xs _ _ _ hxs => ?_
    exact .pure (List.forall_mem_cons.2 ⟨hx, hxs⟩)

/-- What is read only behind a certain token. -/
theorem reads_after {item : Parser α} {t : Token} (ht : t ≠ .eof)
    (hitem : Reader o n item G) (hc : c.Within o) (hn : c.bound ≤ n) :
    Reads o (after t item) c fun r _ => ∀ a ∈ r, G a := by
  rw [after]
  refine .accept_ite hc ht (fun c₁ hc₁ h₁ => ?_) (.pure (by simp))
  exact hitem.bind hc₁ (by omega) fun a _ _ _ ha => .pure (by simpa)

theorem reader_assignOp : Reader o n assignOp fun _ => True := by
  intro c hc _
  rw [assignOp]
  refine .peek_bind ?_
  split
  · next op heq =>
    have htoken : c.current.token ≠ .eof := fun h => by simp [h, assignOp?] at heq
    exact .advance_bind (.pure ⟨hc.bound_next htoken, trivial⟩)
  · exact .unexpected hc _

/-- A declaration, with a type and a value that may both be missing. -/
theorem reader_declare : Reader o n declare Stmt.Writable := by
  intro c hc _
  rw [declare]
  refine .here_bind ?_
  refine (reader_expect Token.noConfusion).bind hc (Nat.le_refl _) fun _ c₁ hc₁ h₁ _ => ?_
  refine reader_ident.bind hc₁ (Nat.le_refl _) fun name c₂ hc₂ h₂ _ => ?_
  refine (reads_after Token.noConfusion reader_ty hc₂ (Nat.le_refl _)).bind hc₂
    fun t c₃ hc₃ h₃ _ => ?_
  refine (reads_after Token.noConfusion reader_expr hc₃ (Nat.le_refl _)).bind hc₃
    fun value c₄ hc₄ h₄ hvalue => ?_
  refine (reader_expect Token.noConfusion).bind hc₄ (Nat.le_refl _) fun _ c₅ _ h₅ _ => ?_
  exact .pure ⟨by omega, .declare name t _ hvalue⟩

/-- An assignment takes the name of its target. -/
theorem reader_assign : Reader o n assign Stmt.Writable := by
  intro c hc _
  rw [assign]
  refine .here_bind ?_
  refine reader_ident.bind hc (Nat.le_refl _) fun name c₁ hc₁ h₁ _ => ?_
  refine reader_assignOp.bind hc₁ (Nat.le_refl _) fun op c₂ hc₂ h₂ _ => ?_
  refine reader_expr.bind hc₂ (Nat.le_refl _) fun value c₃ hc₃ h₃ hvalue => ?_
  refine (reader_expect Token.noConfusion).bind hc₃ (Nat.le_refl _) fun _ c₄ _ h₄ _ => ?_
  exact .pure ⟨by omega, .assign name op _ hvalue⟩

/-- So does one to an element. -/
theorem reader_assignIndex : Reader o n assignIndex Stmt.Writable := by
  intro c hc _
  rw [assignIndex]
  refine .here_bind ?_
  refine reader_ident.bind hc (Nat.le_refl _) fun name c₁ hc₁ h₁ _ => ?_
  refine (reader_expect Token.noConfusion).bind hc₁ (Nat.le_refl _) fun _ c₂ hc₂ h₂ _ => ?_
  refine reader_expr.bind hc₂ (Nat.le_refl _) fun i c₃ hc₃ h₃ hi => ?_
  refine (reader_expect Token.noConfusion).bind hc₃ (Nat.le_refl _) fun _ c₄ hc₄ h₄ _ => ?_
  refine reader_assignOp.bind hc₄ (Nat.le_refl _) fun op c₅ hc₅ h₅ _ => ?_
  refine reader_expr.bind hc₅ (Nat.le_refl _) fun value c₆ hc₆ h₆ hvalue => ?_
  refine (reader_expect Token.noConfusion).bind hc₆ (Nat.le_refl _) fun _ c₇ _ h₇ _ => ?_
  exact .pure ⟨by omega, .assignIndex name op _ hi hvalue⟩

theorem reader_param : Reader o n param Param.Writable := by
  intro c hc _
  rw [param]
  refine .here_bind ?_
  refine reader_ident.bind hc (Nat.le_refl _) fun name c₁ hc₁ h₁ _ => ?_
  refine (reader_expect Token.noConfusion).bind hc₁ (Nat.le_refl _) fun _ c₂ hc₂ h₂ _ => ?_
  refine reader_ty.bind hc₂ (Nat.le_refl _) fun t c₃ hc₃ h₃ _ => ?_
  refine (reads_after Token.noConfusion reader_expr hc₃ (Nat.le_refl _)).bind hc₃
    fun default c₄ _ h₄ hdefault => ?_
  exact .pure ⟨by omega, hdefault⟩

/-- A return, with or without a value. -/
theorem reader_ret : Reader o n ret Stmt.Writable := by
  intro c hc _
  rw [ret]
  refine .here_bind ?_
  refine (reader_expect Token.noConfusion).bind hc (Nat.le_refl _) fun _ c₁ hc₁ h₁ _ => ?_
  refine .check_ite (fun _ => ?_) fun _ => ?_
  · refine (reader_expect Token.noConfusion).bind hc₁ (Nat.le_refl _) fun _ c₂ _ h₂ _ => ?_
    exact .pure ⟨by omega, .ret _ (by simp)⟩
  · refine reader_expr.bind hc₁ (Nat.le_refl _) fun e c₂ hc₂ h₂ he => ?_
    refine (reader_expect Token.noConfusion).bind hc₂ (Nat.le_refl _) fun _ c₃ _ h₃ _ => ?_
    exact .pure ⟨by omega, .ret _ (by simpa)⟩

/-- An expression as a statement. -/
theorem reader_exprStmt : Reader o n exprStmt Stmt.Writable := by
  intro c hc _
  rw [exprStmt]
  refine reader_expr.bind hc (Nat.le_refl _) fun e c₁ hc₁ h₁ he => ?_
  refine (reader_expect Token.noConfusion).bind hc₁ (Nat.le_refl _) fun _ c₂ _ h₂ _ => ?_
  exact .pure ⟨by omega, .expr he⟩

section Nested

variable {stmt : Parser Stmt}

/-- A body takes its opening brace before its statements are read one level
deeper. -/
theorem reader_braced (hstmt : Reader o n stmt Stmt.Writable) :
    Reader o (n + 1) (braced stmt) fun body => ∀ s ∈ body, s.Writable := by
  intro c hc hn
  rw [braced]
  refine (reader_expect Token.noConfusion).bind hc (Nat.le_refl _) fun _ c₁ hc₁ h₁ _ => ?_
  refine .get_bind ?_
  refine (reads_untilAt hstmt _ _ c₁ hc₁ (by omega) (Nat.le_refl _)).bind hc₁
    fun body c₂ hc₂ h₂ hbody => ?_
  refine (reader_expect Token.noConfusion).bind hc₂ (Nat.le_refl _) fun _ c₃ _ h₃ _ => ?_
  exact .pure ⟨by omega, hbody⟩

theorem reader_func (hstmt : Reader o n stmt Stmt.Writable) :
    Reader o (n + 1) (func stmt) Stmt.Writable := by
  intro c hc hn
  rw [func]
  refine .here_bind ?_
  refine (reader_expect Token.noConfusion).bind hc (Nat.le_refl _) fun _ c₁ hc₁ h₁ _ => ?_
  refine reader_ident.bind hc₁ (Nat.le_refl _) fun name c₂ hc₂ h₂ _ => ?_
  refine (reader_expect Token.noConfusion).bind hc₂ (Nat.le_refl _) fun _ c₃ hc₃ h₃ _ => ?_
  refine (reads_items reader_param _ hc₃ (Nat.le_refl _)).bind hc₃
    fun params c₄ hc₄ h₄ hparams => ?_
  refine (reader_expect Token.noConfusion).bind hc₄ (Nat.le_refl _) fun _ c₅ hc₅ h₅ _ => ?_
  refine (reads_after Token.noConfusion reader_ty hc₅ (Nat.le_refl _)).bind hc₅
    fun result c₆ hc₆ h₆ _ => ?_
  refine (reader_braced hstmt).bind hc₆ (by omega) fun body c₇ _ h₇ hbody => ?_
  exact .pure ⟨by omega, .func name result _ hparams hbody⟩

theorem reader_branch (hstmt : Reader o n stmt Stmt.Writable) :
    Reader o (n + 1) (branch stmt) Stmt.Writable := by
  intro c hc hn
  rw [branch]
  refine .here_bind ?_
  refine (reader_expect Token.noConfusion).bind hc (Nat.le_refl _) fun _ c₁ hc₁ h₁ _ => ?_
  refine reader_expr.bind hc₁ (Nat.le_refl _) fun e c₂ hc₂ h₂ he => ?_
  refine (reader_braced hstmt).bind hc₂ (by omega) fun onTrue c₃ hc₃ h₃ htrue => ?_
  refine .accept_ite hc₃ Token.noConfusion (fun c₄ hc₄ h₄ => ?_) ?_
  · refine .check_ite (fun _ => ?_) fun _ => ?_
    · refine hstmt.bind hc₄ (by omega) fun s c₅ _ h₅ hs => ?_
      exact .pure ⟨by omega, .branch _ he htrue (by simpa)⟩
    · refine (reader_braced hstmt).bind hc₄ (by omega) fun onFalse c₅ _ h₅ hfalse => ?_
      exact .pure ⟨by omega, .branch _ he htrue (by simpa)⟩
  · exact .pure ⟨by omega, .branch _ he htrue (by simp)⟩

theorem reader_loop (hstmt : Reader o n stmt Stmt.Writable) :
    Reader o (n + 1) (loop stmt) Stmt.Writable := by
  intro c hc hn
  rw [loop]
  refine .here_bind ?_
  refine (reader_expect Token.noConfusion).bind hc (Nat.le_refl _) fun _ c₁ hc₁ h₁ _ => ?_
  refine reader_expr.bind hc₁ (Nat.le_refl _) fun e c₂ hc₂ h₂ he => ?_
  refine (reader_braced hstmt).bind hc₂ (by omega) fun body c₃ _ h₃ hbody => ?_
  exact .pure ⟨by omega, .loop _ he hbody⟩

/-- A case has a pattern in front of its body. -/
theorem reader_matchCase (hstmt : Reader o n stmt Stmt.Writable) :
    Reader o (n + 1) (matchCase stmt) fun k => k.body.Writable := by
  intro c hc hn
  rw [matchCase]
  refine .here_bind ?_
  refine (reader_expect Token.noConfusion).bind hc (Nat.le_refl _) fun _ c₁ hc₁ h₁ _ => ?_
  refine reader_pattern.bind hc₁ (Nat.le_refl _) fun p c₂ hc₂ h₂ _ => ?_
  refine (reader_expect Token.noConfusion).bind hc₂ (Nat.le_refl _) fun _ c₃ hc₃ h₃ _ => ?_
  refine hstmt.bind hc₃ (by omega) fun body c₄ _ h₄ hbody => ?_
  exact .pure ⟨by omega, hbody⟩

theorem reader_select (hstmt : Reader o n stmt Stmt.Writable) :
    Reader o (n + 1) (select stmt) Stmt.Writable := by
  intro c hc hn
  rw [select]
  refine .here_bind ?_
  refine (reader_expect Token.noConfusion).bind hc (Nat.le_refl _) fun _ c₁ hc₁ h₁ _ => ?_
  refine reader_expr.bind hc₁ (Nat.le_refl _) fun e c₂ hc₂ h₂ he => ?_
  refine (reader_expect Token.noConfusion).bind hc₂ (Nat.le_refl _) fun _ c₃ hc₃ h₃ _ => ?_
  refine .get_bind ?_
  refine (reads_untilAt (reader_matchCase hstmt) _ _ c₃ hc₃ (by omega) (Nat.le_refl _)).bind hc₃
    fun cases c₄ hc₄ h₄ hcases => ?_
  refine (reader_expect Token.noConfusion).bind hc₄ (Nat.le_refl _) fun _ c₅ _ h₅ _ => ?_
  exact .pure ⟨by omega, .select _ he hcases⟩

end Nested

/-- By induction on the levels of nesting. Every statement begins with a token
of its own. -/
theorem reader_stmtAt (n : Nat) : Reader o n (stmtAt n) Stmt.Writable := by
  induction n with
  | zero => exact fun c _ hn => absurd hn c.not_bound_le_zero
  | succ n ih =>
    intro c hc hn
    rw [stmtAt]
    refine .peek_bind ?_
    split
    · exact reader_declare c hc hn
    · exact reader_func ih c hc hn
    · exact reader_branch ih c hc hn
    · exact reader_loop ih c hc hn
    · exact reader_select ih c hc hn
    · exact reader_ret c hc hn
    · refine .here_bind ((reader_braced ih).bind hc hn fun body c₁ _ h₁ hbody => ?_)
      exact .pure ⟨h₁, .block _ hbody⟩
    · refine .get_bind ?_
      split
      · exact reader_assign c hc hn
      · exact reader_assignIndex c hc hn
      · exact reader_exprStmt c hc hn
    · exact reader_exprStmt c hc hn

/-- **A statement is read without a want of steps.** It takes a token at least,
and where it fails the problem is one of the tokens it has looked at. -/
theorem reader_stmt : Reader o n stmt Stmt.Writable :=
  fun c hc _ => .get_bind (reader_stmtAt c.bound c hc (Nat.le_refl _))

end Parser

end SeqScript
