import SeqScript.Proofs.Parsing
import SeqScript.Proofs.RoundTrip

/-!
# Reading back what is written: statements and programs

A statement that begins with a name is told by looking ahead: an assignment sign
stands behind the name, or behind the brackets that follow it. The tokens of an
expression are `Inert`, that is, they have no assignment sign and their brackets
come in pairs, and so the look-ahead finds the sign of the statement and no other.

A statement is read back in front of any token but `else`, which would be taken
for a part of it. All that `compile` gives can be written (`writable_of_parse`),
so every program is had back from its tokens: `compile_reread`.
-/

namespace SeqScript

namespace Parser

-- ---------------------------------------------------------------------------
-- Looking ahead
-- ---------------------------------------------------------------------------

/-- Tokens without an assignment sign, and with brackets in pairs. -/
structure Inert (ts : List Token) : Prop where
  quiet : ∀ t ∈ ts, t.isAssignment = false
  balanced : ∀ (ls rest : List Lexeme) (k : Nat), ls.map Lexeme.token = ts →
    indexThenAssign (k + 1) (ls ++ rest) = indexThenAssign (k + 1) rest

/-- The tokens that looking ahead passes over. -/
def isNeutral : Token → Bool
  | .sign .lbracket | .sign .rbracket | .sign .semicolon | .eof => false
  | t => !t.isAssignment

namespace Inert

variable {t : Token} {ts us : List Token} {tss : List (List Token)} {e : Expr}

theorem nil : Inert [] where
  quiet := by simp
  balanced ls rest k hls := by rw [List.map_eq_nil_iff.1 hls, List.nil_append]

/-- A neutral token in front is passed over by the look-ahead. -/
theorem cons (ht : isNeutral t = true) (h : Inert ts) : Inert (t :: ts) where
  quiet := by
    refine List.forall_mem_cons.2 ⟨?_, h.quiet⟩
    unfold isNeutral at ht
    split at ht <;> simp_all
  balanced ls rest k hls := by
    obtain ⟨l, ls', rfl, rfl, hls'⟩ := List.map_eq_cons_iff.1 hls
    rw [← h.balanced ls' rest k hls', List.cons_append, indexThenAssign]
    split <;> simp_all [isNeutral]

/-- Rows that the look-ahead passes over can be put together. -/
theorem append (h : Inert ts) (h' : Inert us) : Inert (ts ++ us) where
  quiet t ht := (List.mem_append.1 ht).elim (h.quiet t) (h'.quiet t)
  balanced ls rest k hls := by
    obtain ⟨front, back, rfl, hfront, hback⟩ := List.map_eq_append_iff.1 hls
    rw [List.append_assoc, h.balanced front _ k hfront, h'.balanced back rest k hback]

/-- A pair of brackets opens a level and closes it again. -/
theorem brackets (h : Inert ts) : Inert (.sign .lbracket :: ts ++ [.sign .rbracket]) where
  quiet t ht := by
    simp only [List.cons_append, List.mem_cons, List.mem_append, List.not_mem_nil, or_false] at ht
    rcases ht with rfl | ht | rfl
    · rfl
    · exact h.quiet t ht
    · rfl
  balanced ls rest k hls := by
    obtain ⟨l, front, rfl, hl, hfront⟩ := List.map_eq_cons_iff.1 hls
    obtain ⟨inner, back, rfl, hinner, hback⟩ := List.map_eq_append_iff.1 hfront
    obtain ⟨r, none, rfl, hr, hnone⟩ := List.map_eq_cons_iff.1 hback
    rw [List.map_eq_nil_iff.1 hnone, List.cons_append, List.append_assoc, indexThenAssign, hl]
    show indexThenAssign (k + 1 + 1) (inner ++ ([r] ++ rest)) = _
    rw [h.balanced inner _ (k + 1) hinner, List.singleton_append, indexThenAssign, hr]
    show (if k + 1 + 1 ≤ 1 then _ else indexThenAssign (k + 1) rest) = _
    rw [if_neg (by omega)]

theorem parens (h : Inert ts) : Inert (.sign .lparen :: ts ++ [.sign .rparen]) :=
  .cons rfl (h.append (.cons rfl .nil))

theorem commas (h : ∀ ts ∈ tss, Inert ts) : Inert (commas tss) := by
  induction tss with
  | nil => exact .nil
  | cons ts tss ih =>
    obtain ⟨hts, htss⟩ := List.forall_mem_cons.1 h
    cases tss with
    | nil => exact hts
    | cons us tss => exact hts.append (.cons rfl (ih htss))

/-- Parentheses around an expression change nothing. -/
theorem tokensAt (h : Inert e.tokens) (k : Nat) : Inert (e.tokensAt k) := by
  unfold Expr.tokensAt Expr.enclose
  split
  · exact h.parens
  · exact h

theorem tokensAll {es : List Expr} (h : ∀ e ∈ es, Inert e.tokens) :
    ∀ ts ∈ Expr.tokensAll es, Inert ts := by
  rw [Expr.tokensAll_eq_map]
  exact List.forall_mem_map.2 h

end Inert

/-- **The look-ahead never stops inside an expression.** -/
theorem inert_tokens {e : Expr} (he : e.Writable) : Inert e.tokens := by
  induction he with
  | literal v => cases v <;> exact .cons rfl .nil
  | ident name => exact .cons rfl .nil
  | binary op _ _ _ ihl ihr =>
    exact (ihl.tokensAt _).append (.cons (by cases op <;> rfl) (ihr.tokensAt _))
  | unary op _ _ ih => exact .cons (by cases op <;> rfl) (ih.tokensAt _)
  | @cast t _ _ ht _ ih =>
    cases t with
    | int | float | bool | string => exact .cons rfl ih.parens
    | array | list | func => exact absurd ht Bool.false_ne_true
  | call name _ _ ih => exact .cons rfl (Inert.commas (.tokensAll ih)).parens
  | index _ _ _ ihe ihi =>
    rw [Expr.tokens, List.append_assoc]
    exact (ihe.tokensAt _).append ihi.brackets
  | @collection _ _ named op _ _ _ _ ihe ihargs ihnamed =>
    have hnamed : ∀ ts ∈ Expr.tokensNamed named, Inert ts := by
      rw [Expr.tokensNamed_eq_map]
      exact List.forall_mem_map.2 fun a ha => .cons rfl (.cons rfl (ihnamed a ha))
    have hrow := Inert.commas (List.forall_mem_append.2 ⟨.tokensAll ihargs, hnamed⟩)
    rw [Expr.tokens, List.append_assoc]
    exact (ihe.tokensAt _).append (.cons rfl (.cons rfl hrow.parens))
  | items _ _ ih => exact (Inert.commas (.tokensAll ih)).brackets
  | lambda x _ _ ih => exact .cons rfl (.cons rfl ih)

/-- Without an assignment sign up to the semicolon nothing is found. -/
theorem indexThenAssign_of_quiet {ls rest : List Lexeme} {l : Lexeme}
    (hls : ∀ l ∈ ls, l.token.isAssignment = false) (hl : l.token = .sign .semicolon) (k : Nat) :
    indexThenAssign k (ls ++ l :: rest) = false := by
  induction ls generalizing k with
  | nil => rw [List.nil_append, indexThenAssign, hl]
  | cons l' ls ih =>
    obtain ⟨-, hls⟩ := List.forall_mem_cons.1 hls
    rw [List.cons_append, indexThenAssign]
    split
    · exact ih hls _
    · split
      · cases ls with
        | nil => simp [hl, Token.isAssignment]
        | cons l'' ls => simpa using hls l'' List.mem_cons_self
      · exact ih hls _
    · rfl
    · rfl
    · exact ih hls _

section NameForm

variable {c d : Cursor} {e i : Expr}

theorem rest_of_lt (h : c.next.bound < c.bound) : c.rest = c.next.row := by
  obtain ⟨l, _ | ⟨l', ls⟩⟩ := c
  · exact absurd h (Nat.lt_irrefl _)
  · rfl

theorem isAssignment_token (op : AssignOp) : op.token.isAssignment = true := by cases op <;> rfl

/-- An assignment sign behind a name is seen at once. -/
theorem nameForm_assign {op : AssignOp} (h : c.next.bound < c.bound)
    (hop : c.next.current.token = op.token) : Cursor.nameForm c = .assign := by
  rw [Cursor.nameForm, rest_of_lt h]
  show (if c.next.current.token.isAssignment = true then _ else _) = _
  rw [hop, if_pos (isAssignment_token op)]

/-- Behind brackets it is seen after the position, which is an expression. -/
theorem nameForm_assignIndex {op : AssignOp} (hi : i.Writable) (h₁ : c.next.bound < c.bound)
    (hopen : c.next.current.token = .sign .lbracket) (h₂ : c.next.next.bound < c.next.bound)
    (hposition : c.next.next.Takes i.tokens d) (hclose : d.current.token = .sign .rbracket)
    (h₃ : d.next.bound < d.bound) (hop : d.next.current.token = op.token) :
    Cursor.nameForm c = .assignIndex := by
  obtain ⟨ls, hls, hrow⟩ := hposition.exists_row
  have hahead : indexThenAssign 1 c.next.rest = true := by
    rw [rest_of_lt h₂, hrow, (inert_tokens hi).balanced ls d.row 0 hls, Cursor.row,
      indexThenAssign, hclose]
    show (if 1 ≤ 1 then d.rest.head?.any fun l => l.token.isAssignment else _) = true
    rw [if_pos (Nat.le_refl 1), rest_of_lt h₃]
    show d.next.current.token.isAssignment = true
    rw [hop, isAssignment_token]
  rw [Cursor.nameForm, rest_of_lt h₁]
  show (if c.next.current.token.isAssignment = true then _
    else if (c.next.current.token = .sign .lbracket && indexThenAssign 1 c.next.rest) = true then _
    else _) = _
  rw [hopen, hahead]
  rfl

/-- In an expression there is none before the semicolon. -/
theorem nameForm_expr (he : e.Writable) (h : c.Takes e.tokens d)
    (hd : d.current.token = .sign .semicolon) : Cursor.nameForm c = .other := by
  obtain ⟨ls, hls, hrow⟩ := h.exists_row
  have hquiet : ∀ l ∈ ls, l.token.isAssignment = false := fun l hl =>
    (inert_tokens he).quiet l.token (hls ▸ List.mem_map_of_mem hl)
  obtain ⟨t, us, htokens, -⟩ := (headed_tokens he).opens
  obtain ⟨l, ls', rfl, -, -⟩ := List.map_eq_cons_iff.1 (hls.trans htokens)
  obtain ⟨-, hrest⟩ := List.cons.inj hrow
  rw [Cursor.nameForm, hrest]
  cases ls' with
  | nil =>
    show (if d.current.token.isAssignment = true then _
      else if (d.current.token = .sign .lbracket && _) = true then _ else _) = _
    rw [hd]
    rfl
  | cons l' ls' =>
    obtain ⟨-, hl', hquiet⟩ := List.forall_mem_cons.1 hquiet |>.imp_right List.forall_mem_cons.1
    have hahead : indexThenAssign 1 (ls' ++ d.row) = false :=
      indexThenAssign_of_quiet hquiet hd 1
    show (if l'.token.isAssignment = true then _
      else if (l'.token = .sign .lbracket && indexThenAssign 1 (ls' ++ d.row)) = true then _
      else _) = _
    rw [hl', hahead, Bool.and_false]
    rfl

end NameForm

-- ---------------------------------------------------------------------------
-- Parts of statements
-- ---------------------------------------------------------------------------

section Parts

variable {α β : Type} {item : Parser α} {text : α → List Token} (key : α → β) {t close : Token}
  {n : Nat} {c d : Cursor}

/-- A part that may be missing is told by the token in front of it. -/
theorem yields_after {o : Option α} (h : c.Takes (optional t text o) d)
    (hd : d.current.token ≠ t)
    (hitem : ∀ a ∈ o, ∀ c : Cursor, c.Takes (text a) d → Yields item c d fun a' => key a' = key a) :
    Yields (after t item) c d fun o' => o'.map key = o.map key := by
  rw [after]
  cases o with
  | none =>
    obtain rfl : c = d := h
    exact .accept_no hd (.pure rfl)
  | some a =>
    obtain ⟨htoken, -, htext⟩ := h
    refine .accept_yes htoken ((hitem a rfl _ htext).bind fun a' ha => ?_)
    exact .pure (by simp [ha])

/-- Nothing that is written begins with `else`. -/
theorem ne_else_of_takes {xs : List α} (hxs : ∀ x ∈ xs, Begins (text x))
    (h : c.Takes (xs.flatMap text) d) (hd : d.current.token ≠ .keyword .elseK) :
    c.current.token ≠ .keyword .elseK := by
  cases xs with
  | nil =>
    obtain rfl : c = d := h
    exact hd
  | cons x xs =>
    have hbegins := (hxs x List.mem_cons_self).append (xs.flatMap text)
    exact ne_of_isClosing (hbegins.current h) rfl

/-- The run lemma of rows up to a closing sign, by induction on what was written. -/
theorem yields_untilAt {xs : List α} (hclose : isClosing close = true)
    (helse : close ≠ .keyword .elseK)
    (hitem : ∀ x ∈ xs, Begins (text x) ∧ ∀ c d : Cursor, c.Takes (text x) d → c.bound ≤ n →
      d.current.token ≠ .keyword .elseK → Yields item c d fun a => key a = key x)
    (h : c.Takes (xs.flatMap text) d) (hd : d.current.token = close) (hn : c.bound ≤ n) {m : Nat}
    (hm : c.bound ≤ m) :
    Yields (untilAt item close m) c d fun as => as.map key = xs.map key := by
  induction xs generalizing c m with
  | nil =>
    obtain _ | m := m
    · exact absurd hm c.not_bound_le_zero
    obtain rfl : c = d := h
    rw [untilAt]
    exact .close_yes hd (.pure rfl)
  | cons x xs ih =>
    obtain _ | m := m
    · exact absurd hm c.not_bound_le_zero
    obtain ⟨⟨hbegins, hx⟩, hxs⟩ := List.forall_mem_cons.1 hitem
    obtain ⟨c₁, htext, hrest⟩ := Cursor.takes_append.1 h
    have hc := hbegins.current htext
    have h₁ := hbegins.bound_lt htext
    have hnext := ne_else_of_takes (fun x hx => (hxs x hx).1) hrest (hd ▸ helse)
    rw [untilAt]
    refine .close_no (ne_of_isClosing hc hclose) (ne_of_isClosing hc rfl) ?_
    refine (hx c c₁ htext hn hnext).bind fun a ha => ?_
    refine (ih hxs hrest (by omega) (by omega)).bind fun as has => ?_
    exact .pure (by simp [ha, has])

end Parts

/-- A reader of statements reads `s` back, where no more than `n` tokens are left. -/
def RereadsStmt (n : Nat) (stmt : Parser Stmt) (s : Stmt) : Prop :=
  ∀ c d : Cursor, c.Takes s.tokens d → c.bound ≤ n → d.current.token ≠ .keyword .elseK →
    Yields stmt c d fun s' => s'.erase = s.erase

/-- No statement begins with a closing sign, so a row goes on with it. -/
theorem begins_stmt {s : Stmt} (hs : s.Writable) : Begins s.tokens := by
  cases hs with
  | expr he => exact (headed_tokens he).begins.append _
  | @branch _ _ onFalse => cases onFalse <;> exact ⟨_, _, rfl, rfl⟩
  | @ret value => cases value <;> exact ⟨_, _, rfl, rfl⟩
  | _ => exact ⟨_, _, rfl, rfl⟩

section Simple

variable {e i : Expr} {n : Nat} {c d : Cursor} {place : Place}

theorem yields_assignOp {op : AssignOp} (h : c.current.token = op.token) :
    Yields assignOp c c.next (· = op) := by
  rw [assignOp]
  refine .peek_bind ?_
  rw [h]
  cases op <;> exact .advance_bind (.pure rfl)

/-- A declaration is read back, with its type and value or without. -/
theorem yields_declare {name : String} {t : Option Ty} {value : Option Expr}
    (hvalue : ∀ e ∈ value, e.Writable) (h : c.Takes (Stmt.declare name t value place).tokens d) :
    Yields declare c d fun s => s.erase = (Stmt.declare name t value place).erase := by
  obtain ⟨c₂, hfront, hsemicolon, -, rfl⟩ := Cursor.takes_append.1 h
  obtain ⟨c₁, ⟨hlet, -, hname, -, hty⟩, hexpr⟩ := Cursor.takes_append.1 hfront
  have hcolon : c₁.current.token ≠ .sign .colon := by
    cases value with
    | none =>
      obtain rfl : c₁ = c₂ := hexpr
      rw [hsemicolon]
      decide
    | some e =>
      rw [hexpr.1]
      decide
  rw [declare]
  refine .here_bind (.expect_bind hlet (.ident_bind hname ?_))
  refine (yields_after id hty hcolon fun t _ c h => yields_ty h).bind fun t' ht => ?_
  refine (yields_after Expr.erase hexpr (by rw [hsemicolon]; decide) fun e he c h =>
    yields_expr (hvalue e he) h (by rw [hsemicolon]; rfl)).bind fun value' hvalue' => ?_
  refine .expect_bind hsemicolon (.pure ?_)
  simp only [Option.map_id, id] at ht
  simp [Stmt.erase, ht, hvalue']

/-- An assignment is read back. -/
theorem yields_assign {name : String} {op : AssignOp} (he : e.Writable)
    (h : c.Takes (Stmt.assign name op e place).tokens d) :
    Yields assign c d fun s => s.erase = (Stmt.assign name op e place).erase := by
  obtain ⟨hname, -, hop, -, hrest⟩ := h
  obtain ⟨c₁, hexpr, hsemicolon, -, rfl⟩ := Cursor.takes_append.1 hrest
  rw [assign]
  refine .here_bind (.ident_bind hname ((yields_assignOp hop).bind fun op' hop' => ?_))
  refine (yields_expr he hexpr (by rw [hsemicolon]; rfl)).bind fun e' he' => ?_
  exact .expect_bind hsemicolon (.pure (by simp [Stmt.erase, hop', he']))

/-- So is one to an element, which the look-ahead tells from the other. -/
theorem yields_assignIndex {name : String} {op : AssignOp} (hi : i.Writable) (he : e.Writable)
    (h : c.Takes (Stmt.assignIndex name i op e place).tokens d) :
    Cursor.nameForm c = .assignIndex ∧
      Yields assignIndex c d fun s => s.erase = (Stmt.assignIndex name i op e place).erase := by
  obtain ⟨c₂, hfront, hsemicolon, -, rfl⟩ := Cursor.takes_append.1 h
  obtain ⟨c₁, ⟨hname, h₁, hopen, h₂, hposition⟩, hclose, h₃, hop, -, hexpr⟩ :=
    Cursor.takes_append.1 hfront
  refine ⟨nameForm_assignIndex hi h₁ hopen h₂ hposition hclose h₃ hop, ?_⟩
  rw [assignIndex]
  refine .here_bind (.ident_bind hname (.expect_bind hopen ?_))
  refine (yields_expr hi hposition (by rw [hclose]; rfl)).bind fun i' hi' => ?_
  refine .expect_bind hclose ((yields_assignOp hop).bind fun op' hop' => ?_)
  refine (yields_expr he hexpr (by rw [hsemicolon]; rfl)).bind fun e' he' => ?_
  exact .expect_bind hsemicolon (.pure (by simp [Stmt.erase, hi', hop', he']))

theorem yields_ret {value : Option Expr} (hvalue : ∀ e ∈ value, e.Writable)
    (h : c.Takes (Stmt.ret value place).tokens d) :
    Yields ret c d fun s => s.erase = (Stmt.ret value place).erase := by
  rw [ret]
  cases value with
  | none =>
    obtain ⟨hreturn, -, hsemicolon, -, rfl⟩ := h
    refine .here_bind (.expect_bind hreturn (.check_yes hsemicolon (.expect_bind hsemicolon ?_)))
    exact .pure rfl
  | some e =>
    obtain ⟨hreturn, -, hrest⟩ := h
    obtain ⟨c₁, hexpr, hsemicolon, -, rfl⟩ := Cursor.takes_append.1 hrest
    have hopens := (headed_tokens (hvalue e rfl)).current hexpr
    have hmore : c.next.current.token ≠ .sign .semicolon := by
      intro heq
      rw [heq] at hopens
      exact absurd hopens Bool.false_ne_true
    refine .here_bind (.expect_bind hreturn (.check_no hmore ?_))
    refine (yields_expr (hvalue e rfl) hexpr (by rw [hsemicolon]; rfl)).bind fun e' he' => ?_
    exact .expect_bind hsemicolon (.pure (by simp [Stmt.erase, he']))

/-- An expression as a statement is taken for nothing else. -/
theorem yields_exprStmt (he : e.Writable) (h : c.Takes (Stmt.expr e).tokens d) :
    Yields exprStmt c d fun s => s.erase = (Stmt.expr e).erase := by
  obtain ⟨c₁, hexpr, hsemicolon, -, rfl⟩ := Cursor.takes_append.1 h
  rw [exprStmt]
  refine (yields_expr he hexpr (by rw [hsemicolon]; rfl)).bind fun e' he' => ?_
  exact .expect_bind hsemicolon (.pure (by simp [Stmt.erase, he']))

/-- A parameter is read back in front of a comma or the closing sign. -/
theorem yields_param {q : Param} (hq : q.Writable) (h : c.Takes q.tokens d)
    (hd : d.current.token = .sign .comma ∨ d.current.token = .sign .rparen) :
    Yields param c d fun q' => q'.erase = q.erase := by
  have hreach : reach d.current.token = 0 := by rcases hd with hd | hd <;> rw [hd] <;> rfl
  have heq : d.current.token ≠ .sign .eq := by rcases hd with hd | hd <;> rw [hd] <;> decide
  obtain ⟨c₁, ⟨hname, -, hcolon, -, hty⟩, hdefault⟩ := Cursor.takes_append.1 h
  rw [param]
  refine .here_bind (.ident_bind hname (.expect_bind hcolon ?_))
  refine (yields_ty hty).bind fun t ht => ?_
  refine (yields_after Expr.erase hdefault heq fun e he c h =>
    yields_expr (hq e he) h hreach).bind fun default hdefault' => ?_
  exact .pure (by simp [Param.erase, ht, hdefault'])

end Simple

-- ---------------------------------------------------------------------------
-- Statements in statements
-- ---------------------------------------------------------------------------

/-- Behind `else` stands a single branch, or statements in braces. -/
theorem takes_else {ss : List Stmt} {c d : Cursor} (h : c.Takes (Stmt.tokensElse ss) d) :
    (∃ s, ss = [s] ∧ c.current.token = .keyword .ifK ∧ c.Takes s.tokens d) ∨
      c.Takes (.sign .lbrace :: Stmt.tokensAll ss ++ [.sign .rbrace]) d := by
  cases ss with
  | nil => exact Or.inr h
  | cons s ss =>
    rw [Stmt.tokensElse] at h
    split at h
    · next hsingle =>
      rw [Bool.and_eq_true, List.isEmpty_iff] at hsingle
      obtain ⟨rfl, hbranch⟩ := hsingle
      cases s with
      | branch e onTrue onFalse p => cases onFalse <;> exact Or.inl ⟨_, rfl, h.1, h⟩
      | _ => exact absurd hbranch Bool.false_ne_true
    · exact Or.inr h

section Nested

variable {stmt : Parser Stmt} {n : Nat} (hstmt : ∀ s, s.Writable → RereadsStmt n stmt s)
  {e : Expr} {ss body : List Stmt} {c d : Cursor} {place : Place}

include hstmt

/-- A body is read back one level deeper, which its brace has paid for. -/
theorem yields_braced (hss : ∀ s ∈ ss, s.Writable)
    (h : c.Takes (.sign .lbrace :: Stmt.tokensAll ss ++ [.sign .rbrace]) d) (hn : c.bound ≤ n + 1) :
    Yields (braced stmt) c d fun ss' => Stmt.eraseAll ss' = Stmt.eraseAll ss := by
  obtain ⟨hopen, h₁, hrest⟩ := h
  obtain ⟨c₁, hbody, hclose, -, rfl⟩ := Cursor.takes_append.1 hrest
  rw [Stmt.tokensAll_eq_flatMap] at hbody
  simp only [Stmt.eraseAll_eq_map]
  rw [braced]
  refine .expect_bind hopen (.get_bind ?_)
  refine (yields_untilAt Stmt.erase rfl (by decide)
    (fun s hs => ⟨begins_stmt (hss s hs), hstmt s (hss s hs)⟩) hbody hclose (by omega)
    (Nat.le_refl _)).bind fun ss' hss' => ?_
  exact .expect_bind hclose (.pure hss')

/-- A function is read back with its parameters and its body. -/
theorem yields_func {name : String} {params : List Param} {result : Option Ty}
    (hparams : ∀ q ∈ params, q.Writable) (hbody : ∀ s ∈ body, s.Writable)
    (h : c.Takes (Stmt.func name params result body place).tokens d) (hn : c.bound ≤ n + 1) :
    Yields (func stmt) c d fun s => s.erase = (Stmt.func name params result body place).erase := by
  rw [Stmt.tokens, List.append_assoc] at h
  obtain ⟨c₂, hfront, hbraces⟩ := Cursor.takes_append.1 h
  have h₂ := hfront.bound_le
  obtain ⟨c₁, ⟨hfunc, -, hname, -, hopen, -, hrow⟩, hclose, -, hresult⟩ :=
    Cursor.takes_append.1 hfront
  rw [func]
  refine .here_bind (.expect_bind hfunc (.ident_bind hname (.expect_bind hopen ?_)))
  refine (yields_items Param.erase rfl
    (fun q hq => ⟨⟨_, _, rfl, rfl⟩, fun c d h _ => yields_param (hparams q hq) h⟩) hrow hclose
    (Nat.le_refl _)).bind fun params' hparams' => ?_
  refine .expect_bind hclose ?_
  refine (yields_after id hresult (by rw [hbraces.1]; decide) fun t _ c h => yields_ty h).bind
    fun result' hresult' => ?_
  refine (yields_braced hstmt hbody hbraces (by omega)).bind fun body' hbody' => .pure ?_
  simp only [Option.map_id, id] at hresult'
  simp [Stmt.erase, hparams', hresult', hbody']

theorem yields_loop (he : e.Writable) (hbody : ∀ s ∈ body, s.Writable)
    (h : c.Takes (Stmt.loop e body place).tokens d) (hn : c.bound ≤ n + 1) :
    Yields (loop stmt) c d fun s => s.erase = (Stmt.loop e body place).erase := by
  rw [Stmt.tokens, List.append_assoc] at h
  obtain ⟨c₁, ⟨hwhile, h₁, hexpr⟩, hbraces⟩ := Cursor.takes_append.1 h
  have h₂ := hexpr.bound_le
  rw [loop]
  refine .here_bind (.expect_bind hwhile ?_)
  refine (yields_expr he hexpr (by rw [hbraces.1]; rfl)).bind fun e' he' => ?_
  refine (yields_braced hstmt hbody hbraces (by omega)).bind fun body' hbody' => ?_
  exact .pure (by simp [Stmt.erase, he', hbody'])

/-- A case is read back with its pattern and its body. -/
theorem yields_matchCase {k : MatchCase} (hk : k.body.Writable) (h : c.Takes k.tokens d)
    (hn : c.bound ≤ n + 1) (hd : d.current.token ≠ .keyword .elseK) :
    Yields (matchCase stmt) c d fun k' => k'.erase = k.erase := by
  obtain ⟨c₁, ⟨hcase, h₁, hpattern⟩, harrow, h₂, hbody⟩ := Cursor.takes_append.1 h
  have h₃ := hpattern.bound_le
  rw [matchCase]
  refine .here_bind (.expect_bind hcase ((yields_pattern hpattern).bind fun p hp => ?_))
  refine .expect_bind harrow ((hstmt _ hk _ _ hbody (by omega) hd).bind fun body' hbody' => ?_)
  exact .pure (by rw [hp]; exact congrArg (MatchCase.mk k.pattern · .start) hbody')

theorem yields_select {cases : List MatchCase} (he : e.Writable)
    (hcases : ∀ k ∈ cases, k.body.Writable)
    (h : c.Takes (Stmt.select e cases place).tokens d) (hn : c.bound ≤ n + 1) :
    Yields (select stmt) c d fun s => s.erase = (Stmt.select e cases place).erase := by
  obtain ⟨c₂, hfront, hclose, -, rfl⟩ := Cursor.takes_append.1 h
  obtain ⟨c₁, ⟨hmatch, h₁, hexpr⟩, hopen, h₂, hrow⟩ := Cursor.takes_append.1 hfront
  have h₃ := hexpr.bound_le
  rw [Stmt.tokensCases_eq_flatMap] at hrow
  rw [select]
  refine .here_bind (.expect_bind hmatch ?_)
  refine (yields_expr he hexpr (by rw [hopen]; rfl)).bind fun e' he' => ?_
  refine .expect_bind hopen (.get_bind ?_)
  refine (yields_untilAt MatchCase.erase rfl (by decide)
    (fun k hk => ⟨⟨_, _, rfl, rfl⟩, fun c d => yields_matchCase hstmt (hcases k hk)⟩) hrow hclose
    (by omega) (Nat.le_refl _)).bind fun cases' hcases' => ?_
  refine .expect_bind hclose (.pure ?_)
  simp [Stmt.erase, Stmt.eraseCases_eq_map, he', hcases']

/-- A branch takes the `else` that follows it, so none may follow that is not its own
(`hd`). -/
theorem yields_branch {onTrue : List Stmt} {onFalse : Option (List Stmt)} (he : e.Writable)
    (htrue : ∀ s ∈ onTrue, s.Writable) (hfalse : ∀ ss ∈ onFalse, ∀ s ∈ ss, s.Writable)
    (h : c.Takes (Stmt.branch e onTrue onFalse place).tokens d) (hn : c.bound ≤ n + 1)
    (hd : d.current.token ≠ .keyword .elseK) :
    Yields (branch stmt) c d fun s => s.erase = (Stmt.branch e onTrue onFalse place).erase := by
  rw [branch]
  cases onFalse with
  | none =>
    rw [Stmt.tokens, List.append_assoc] at h
    obtain ⟨c₁, ⟨hif, h₁, hexpr⟩, hbraces⟩ := Cursor.takes_append.1 h
    have h₂ := hexpr.bound_le
    refine .here_bind (.expect_bind hif ?_)
    refine (yields_expr he hexpr (by rw [hbraces.1]; rfl)).bind fun e' he' => ?_
    refine (yields_braced hstmt htrue hbraces (by omega)).bind fun onTrue' htrue' => ?_
    exact .accept_no hd (.pure (by simp [Stmt.erase, he', htrue']))
  | some ss =>
    obtain ⟨c₂, hfront, hclose, h₃, helse, h₄, hrest⟩ := Cursor.takes_append.1 h
    obtain ⟨c₁, ⟨hif, h₁, hexpr⟩, hbody⟩ := Cursor.takes_append.1 hfront
    have hbraces : c₁.Takes (.sign .lbrace :: Stmt.tokensAll onTrue ++ [.sign .rbrace]) c₂.next :=
      Cursor.takes_append.2 ⟨c₂, hbody, hclose, h₃, rfl⟩
    have h₂ := hexpr.bound_le
    have h₅ := hbraces.bound_le
    refine .here_bind (.expect_bind hif ?_)
    refine (yields_expr he hexpr (by rw [hbraces.1]; rfl)).bind fun e' he' => ?_
    refine (yields_braced hstmt htrue hbraces (by omega)).bind fun onTrue' htrue' => ?_
    refine .accept_yes helse ?_
    rcases takes_else hrest with ⟨s, rfl, hbranch, hs⟩ | hbraces'
    · have hread := hstmt s (hfalse _ rfl s List.mem_cons_self) _ _ hs (by omega) hd
      refine .check_yes hbranch (hread.bind fun s' hs' => .pure ?_)
      simp [Stmt.erase, Stmt.eraseAll, he', htrue', hs']
    · refine .check_no (by rw [hbraces'.1]; decide) ?_
      refine (yields_braced hstmt (hfalse _ rfl) hbraces' (by omega)).bind fun ss' hss' => ?_
      exact .pure (by simp [Stmt.erase, he', htrue', hss'])

end Nested

/-- **Every statement that can be written is read back** in front of any token but
`else`. -/
theorem rereads_stmtAt (n : Nat) (s : Stmt) (hs : s.Writable) : RereadsStmt n (stmtAt n) s := by
  induction n generalizing s with
  | zero => exact fun c _ _ hn _ => absurd hn c.not_bound_le_zero
  | succ n ih =>
    intro c d h hn hd
    rw [stmtAt]
    refine .peek_bind ?_
    cases hs with
    | declare name t p hvalue =>
      rw [h.1]
      exact yields_declare hvalue h
    | assign name op p he =>
      rw [h.1]
      refine .get_bind ?_
      rw [nameForm_assign h.2.1 h.2.2.1]
      exact yields_assign he h
    | assignIndex name op p hi he =>
      obtain ⟨hform, hread⟩ := yields_assignIndex hi he h
      rw [h.1]
      refine .get_bind ?_
      rw [hform]
      exact hread
    | func name result p hparams hbody =>
      rw [h.1]
      exact yields_func ih hparams hbody h hn
    | @branch _ _ onFalse p he htrue hfalse =>
      have hif : c.current.token = .keyword .ifK := by cases onFalse <;> exact h.1
      rw [hif]
      exact yields_branch ih he htrue hfalse h hn hd
    | loop p he hbody =>
      rw [h.1]
      exact yields_loop ih he hbody h hn
    | select p he hcases =>
      rw [h.1]
      exact yields_select ih he hcases h hn
    | @ret value p hvalue =>
      have hreturn : c.current.token = .keyword .returnK := by cases value <;> exact h.1
      rw [hreturn]
      exact yields_ret hvalue h
    | block p hbody =>
      rw [h.1]
      refine .here_bind ((yields_braced ih hbody h hn).bind fun body' hbody' => ?_)
      exact .pure (by simp [Stmt.erase, hbody'])
    | @expr e he =>
      have hread := yields_exprStmt he h
      obtain ⟨c₁, hexpr, hsemicolon, -⟩ := Cursor.takes_append.1 h
      have hopens := (headed_tokens he).current hexpr
      split
      case h_8 =>
        refine .get_bind ?_
        rw [nameForm_expr he hexpr hsemicolon]
        exact hread
      case h_9 => exact hread
      all_goals
        next heq =>
          rw [heq] at hopens
          exact absurd hopens Bool.false_ne_true

end Parser

-- ---------------------------------------------------------------------------
-- Programs
-- ---------------------------------------------------------------------------

/-- A row of tokens is followed to its last one. -/
theorem Cursor.takes_of_row {c : Cursor} {ts : List Token} {t : Token}
    (h : c.row.map Lexeme.token = ts ++ [t]) :
    ∃ d : Cursor, c.Takes ts d ∧ d.current.token = t := by
  induction ts generalizing c with
  | nil => exact ⟨c, rfl, (List.cons.inj h).1⟩
  | cons t' ts ih =>
    obtain ⟨l, _ | ⟨l', ls⟩⟩ := c
    · simp [row] at h
    · obtain ⟨hl, hrest⟩ := List.cons.inj h
      obtain ⟨d, htakes, hd⟩ := ih (c := ⟨l', ls⟩) hrest
      exact ⟨d, ⟨hl, Nat.lt_succ_self _, htakes⟩, hd⟩

/-- The run lemma of programs: one statement after the other, with no problem. -/
theorem statements_tokens {p : Program} (hp : ∀ s ∈ p, s.Writable) {n : Nat} {c d : Cursor}
    (h : c.Takes p.tokens d) (hd : d.current.token = .eof) (hn : c.bound ≤ n) :
    ∃ q, statements n c = (q, []) ∧ Program.erase q = Program.erase p := by
  induction p generalizing n c with
  | nil =>
    obtain _ | n := n
    · exact absurd hn c.not_bound_le_zero
    obtain rfl : c = d := h
    exact ⟨[], by rw [statements, if_pos hd], rfl⟩
  | cons s p ih =>
    obtain _ | n := n
    · exact absurd hn c.not_bound_le_zero
    obtain ⟨hs, hp⟩ := List.forall_mem_cons.1 hp
    obtain ⟨c₁, htext, hrest⟩ := Cursor.takes_append.1 h
    have hbegins := Parser.begins_stmt hs
    have hlt := hbegins.bound_lt htext
    have htoken : c.current.token ≠ .eof := Parser.ne_of_isClosing (hbegins.current htext) rfl
    have hnext := Parser.ne_else_of_takes (fun s hs => Parser.begins_stmt (hp s hs)) hrest
      (by rw [hd]; decide)
    obtain ⟨s', hrun, hs'⟩ := Parser.rereads_stmtAt c.bound s hs c c₁ htext (Nat.le_refl _) hnext
    obtain ⟨q, hq, hq'⟩ := ih (n := n) hp hrest (by omega)
    refine ⟨s' :: q, ?_, ?_⟩
    · have hstmt : Parser.stmt c = .ok s' c₁ := hrun
      rw [statements, if_neg htoken, hstmt]
      simp only [beyond_of_lt hlt, hq]
    · rw [Program.erase, Program.erase, List.map_cons, List.map_cons, hs']
      exact congrArg _ hq'

/-- A program is read back from its tokens, wherever these stand. -/
theorem parse_tokens {p : Program} (hp : ∀ s ∈ p, s.Writable) {ls : List Lexeme}
    (hls : ls.map Lexeme.token = p.tokens ++ [.eof]) :
    ∃ q, parse ls = .ok q ∧ Program.erase q = Program.erase p := by
  cases ls with
  | nil => simp at hls
  | cons l ls =>
    obtain ⟨d, htakes, hd⟩ := Cursor.takes_of_row (c := ⟨l, ls⟩) hls
    obtain ⟨q, hq, hq'⟩ := statements_tokens hp htakes hd (Nat.le_refl _)
    have hstatements : statements (ls.length + 1) ⟨l, ls⟩ = (q, []) := hq
    exact ⟨q, by rw [parse, hstatements], hq'⟩

/-- What a source is compiled to was read, and so can be written. -/
theorem writable_of_compile {source : String} {p : Program} (h : compile source = .ok p) :
    ∀ s ∈ p, s.Writable := by
  rw [compile] at h
  split at h
  · cases h
  · cases h
  · next ts htokens =>
    split at h
    · next hparse =>
      cases h
      exact writable_of_parse (closed_of_tokenize htokens) hparse
    · cases h

/-- **What is written is read back.** Write a program that `compile` has given as
tokens, with parentheses only where an expression binds less tightly than its
position asks for. However these are placed, with the end mark behind them they
are read as the same program, but for its places. -/
theorem compile_reread (source : String) (p : Program) (h : compile source = .ok p)
    (ls : List Lexeme) (hls : ls.map Lexeme.token = p.tokens ++ [.eof]) :
    ∃ q, parse ls = .ok q ∧ Program.erase q = Program.erase p :=
  parse_tokens (writable_of_compile h) hls

/-- Both pairs of parentheses in `a-(b-(x=>x))` are needed, and the sign of a
pattern stands apart from its number. So what is written for this program are the
tokens of its source. -/
theorem compile_reread_nested :
    let source := "match a\x7bcase -1=>a-(b-(x=>x));\x7d"
    let p : Program :=
      [.select (.ident "a" ⟨1, 7⟩)
        [.mk (.literal (.int (-1))) (.expr (.binary .sub (.ident "a" ⟨1, 18⟩)
          (.binary .sub (.ident "b" ⟨1, 21⟩) (.lambda "x" (.ident "x" ⟨1, 27⟩) ⟨1, 24⟩) ⟨1, 21⟩)
            ⟨1, 18⟩)) ⟨1, 9⟩] ⟨1, 1⟩]
    let ls : List Lexeme :=
      [⟨.keyword .matchK, ⟨1, 1⟩⟩, ⟨.ident "a", ⟨1, 7⟩⟩, ⟨.sign .lbrace, ⟨1, 8⟩⟩,
        ⟨.keyword .caseK, ⟨1, 9⟩⟩, ⟨.sign .minus, ⟨1, 14⟩⟩, ⟨.int 1, ⟨1, 15⟩⟩,
        ⟨.sign .fatArrow, ⟨1, 16⟩⟩, ⟨.ident "a", ⟨1, 18⟩⟩, ⟨.sign .minus, ⟨1, 19⟩⟩,
        ⟨.sign .lparen, ⟨1, 20⟩⟩, ⟨.ident "b", ⟨1, 21⟩⟩, ⟨.sign .minus, ⟨1, 22⟩⟩,
        ⟨.sign .lparen, ⟨1, 23⟩⟩, ⟨.ident "x", ⟨1, 24⟩⟩, ⟨.sign .fatArrow, ⟨1, 25⟩⟩,
        ⟨.ident "x", ⟨1, 27⟩⟩, ⟨.sign .rparen, ⟨1, 28⟩⟩, ⟨.sign .rparen, ⟨1, 29⟩⟩,
        ⟨.sign .semicolon, ⟨1, 30⟩⟩, ⟨.sign .rbrace, ⟨1, 31⟩⟩, ⟨.eof, ⟨1, 32⟩⟩]
    compile source = .ok p ∧ ls.map Lexeme.token = p.tokens ++ [.eof] ∧
      ∃ q, parse ls = .ok q ∧ Program.erase q = Program.erase p := by
  intro source p ls
  have htokenize : tokenize source = .tokens ls := by cbv
  have hparse : parse ls = .ok p := rfl
  have hcompile : compile source = .ok p := by simp only [compile, htokenize, hparse]
  have htokens : ls.map Lexeme.token = p.tokens ++ [.eof] := rfl
  exact ⟨hcompile, htokens, compile_reread source p hcompile ls htokens⟩

end SeqScript
