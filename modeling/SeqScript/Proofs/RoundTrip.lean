import SeqScript.Proofs.Rendering

/-!
# Reading back what is written: expressions

Reading is followed along the tokens that were written. `Cursor.Takes` says that
given tokens lead from one cursor to another, and `Yields` that a reader goes
from one to the other with a result of some kind.

Whether a reader stops where it should is up to the token behind what is written.
`Token.reach` is the tightest level at which a token can carry an expression on,
so a reader for level `k` stops before all tokens of smaller reach.

An expression is read back from its tokens at each level that it can be asked for
(`Rereads`). Operators that group to the left ask for more: when the left operand
has been read, the reader must stand ready for the operator and not have finished
(`Leads`). One induction gives both (`Rereadable`).
-/

namespace SeqScript

-- ---------------------------------------------------------------------------
-- Along given tokens
-- ---------------------------------------------------------------------------

namespace Cursor

variable {c d : Cursor} {t : Token} {ts us : List Token}

/-- The tokens `ts` lead from `c` to `d`. -/
def Takes : Cursor → List Token → Cursor → Prop
  | c, [], d => c = d
  | c, t :: ts, d => c.current.token = t ∧ c.next.bound < c.bound ∧ c.next.Takes ts d

/-- Tokens one after the other lead over a cursor in between. -/
theorem takes_append :
    c.Takes (ts ++ us) d ↔ ∃ m : Cursor, c.Takes ts m ∧ m.Takes us d := by
  induction ts generalizing c with
  | nil => simp [Takes]
  | cons t ts ih => simp [Takes, ih, and_assoc]

/-- Going along tokens leaves fewer. -/
theorem Takes.bound_le (h : c.Takes ts d) : d.bound ≤ c.bound := by
  induction ts generalizing c with
  | nil => exact Nat.le_of_eq (congrArg bound (Eq.symm h))
  | cons t ts ih =>
    obtain ⟨-, hnext, hrest⟩ := h
    have := ih hrest
    omega

/-- Where a token can be taken, the one behind it can be seen. -/
theorem following_of_lt (h : c.next.bound < c.bound) :
    c.following? = some c.next.current.token := by
  obtain ⟨l, _ | ⟨l', ls⟩⟩ := c
  · exact absurd h (Nat.lt_irrefl _)
  · rfl

/-- The tokens that were taken, with their places. -/
theorem Takes.exists_row (h : c.Takes ts d) :
    ∃ ls : List Lexeme, ls.map Lexeme.token = ts ∧ c.row = ls ++ d.row := by
  induction ts generalizing c with
  | nil => exact ⟨[], rfl, congrArg row h⟩
  | cons t ts ih =>
    obtain ⟨htoken, hnext, hrest⟩ := h
    obtain ⟨ls, hls, hrow⟩ := ih hrest
    obtain ⟨l, _ | ⟨l', ls'⟩⟩ := c
    · exact absurd hnext (Nat.lt_irrefl _)
    · refine ⟨l :: ls, by rw [List.map_cons, hls]; exact congrArg (· :: ts) htoken, ?_⟩
      exact congrArg (l :: ·) hrow

/-- The tokens before the first cursor are those taken and those before the second. -/
theorem Takes.tokens_row (h : c.Takes ts d) :
    c.row.map Lexeme.token = ts ++ d.row.map Lexeme.token := by
  obtain ⟨ls, rfl, hrow⟩ := h.exists_row
  rw [hrow, List.map_append]

/-- Rows of tokens with commas between them are taken one row at a time. -/
theorem takes_commas_cons {rest : List (List Token)} :
    c.Takes (commas (ts :: rest)) d ↔ ∃ m : Cursor, c.Takes ts m ∧
      (rest = [] ∧ m = d ∨ rest ≠ [] ∧ m.Takes (.sign .comma :: commas rest) d) := by
  cases rest with
  | nil => simp [commas]
  | cons us rest => simp [commas, takes_append]

end Cursor

namespace Parser

variable {α β : Type}

/-- A reader goes from `c` to `d` and gives a result of a kind. -/
def Yields (p : Parser α) (c d : Cursor) (Q : α → Prop) : Prop := ∃ a, p c = .ok a d ∧ Q a

namespace Yields

variable {p q : Parser α} {f : α → Parser β} {Q : α → Prop} {R : β → Prop} {c d m : Cursor}
  {t : Token}

/-- Giving a result takes nothing. -/
theorem pure {a : α} (h : Q a) : Yields (pure a) c c Q := ⟨a, rfl, h⟩

/-- Readers one after the other meet at a cursor. -/
theorem bind (hp : Yields p c m Q) (hf : ∀ a, Q a → Yields (f a) m d R) :
    Yields (p >>= f) c d R := by
  obtain ⟨a, hrun, ha⟩ := hp
  obtain ⟨b, hrun', hb⟩ := hf a ha
  exact ⟨b, by simp only [Bind.bind, EStateM.bind, hrun, hrun'], hb⟩

theorem get_bind {f : Cursor → Parser β} (h : Yields (f c) c d R) : Yields (get >>= f) c d R := h

theorem peek_bind {f : Token → Parser β} (h : Yields (f c.current.token) c d R) :
    Yields (peek >>= f) c d R := h

theorem here_bind {f : Place → Parser β} (h : Yields (f c.current.place) c d R) :
    Yields (here >>= f) c d R := h

theorem advance_bind {f : Lexeme → Parser β} (h : Yields (f c.current) c.next d R) :
    Yields (advance >>= f) c d R := h

/-- A sign that is there is taken. -/
theorem expect_bind {f : Unit → Parser β} (ht : c.current.token = t)
    (h : Yields (f ()) c.next d R) : Yields (expect t >>= f) c d R :=
  .bind ⟨(), expect_of_eq ht, rfl⟩ fun _ _ => h

theorem ident_bind {f : String → Parser β} {name : String} (ht : c.current.token = .ident name)
    (h : Yields (f name) c.next d R) : Yields (ident >>= f) c d R :=
  .bind (Q := (· = name)) ⟨name, ident_of_eq ht, rfl⟩ fun _ ha => ha ▸ h

/-- A token that is asked for is there. -/
theorem accept_yes (ht : c.current.token = t) (h : Yields p c.next d Q) :
    Yields (accept t >>= fun b => if b = true then p else q) c d Q :=
  .bind (Q := (· = true)) ⟨true, accept_of_eq ht, rfl⟩ fun _ hb => by rw [if_pos hb]; exact h

/-- Another one is. -/
theorem accept_no (ht : c.current.token ≠ t) (h : Yields q c d Q) :
    Yields (accept t >>= fun b => if b = true then p else q) c d Q :=
  .bind (Q := (· = false)) ⟨false, accept_of_ne ht, rfl⟩ fun _ hb => by rw [hb]; exact h

theorem check_yes (ht : c.current.token = t) (h : Yields p c d Q) :
    Yields (check t >>= fun b => if b = true then p else q) c d Q := by
  show Yields (if decide (c.current.token = t) = true then p else q) c d Q
  rwa [if_pos (decide_eq_true ht)]

theorem check_no (ht : c.current.token ≠ t) (h : Yields q c d Q) :
    Yields (check t >>= fun b => if b = true then p else q) c d Q := by
  show Yields (if decide (c.current.token = t) = true then p else q) c d Q
  rwa [if_neg (by simp [ht])]

theorem close_yes (ht : c.current.token = t) (h : Yields p c d Q) :
    Yields (do if (← check t) || (← atEnd) then p else q) c d Q := by
  show Yields (if (decide (c.current.token = t) || decide (c.current.token = .eof)) = true
    then p else q) c d Q
  rwa [if_pos (by simp [ht])]

/-- A row goes on in front of what closes nothing. -/
theorem close_no (ht : c.current.token ≠ t) (heof : c.current.token ≠ .eof)
    (h : Yields q c d Q) : Yields (do if (← check t) || (← atEnd) then p else q) c d Q := by
  show Yields (if (decide (c.current.token = t) || decide (c.current.token = .eof)) = true
    then p else q) c d Q
  rwa [if_neg (by simp [ht, heof])]

end Yields

-- ---------------------------------------------------------------------------
-- Types, rows, patterns
-- ---------------------------------------------------------------------------

/-- By induction on the type; every level of it has a token of its own. -/
theorem yields_tyAt {t : Ty} {n : Nat} {c d : Cursor} (h : c.Takes t.tokens d)
    (hn : c.bound ≤ n) : Yields (tyAt n) c d (· = t) := by
  induction t generalizing n c d with
  | int | float | bool | string | func =>
    obtain _ | n := n
    · exact absurd hn c.not_bound_le_zero
    obtain ⟨htoken, -, rfl⟩ := h
    rw [tyAt]
    refine .advance_bind ?_
    rw [htoken]
    exact .pure rfl
  | array t ih | list t ih =>
    obtain _ | n := n
    · exact absurd hn c.not_bound_le_zero
    obtain ⟨htoken, hword, hlt, hsign, hrest⟩ := h
    obtain ⟨m, helement, hgt, -, rfl⟩ := Cursor.takes_append.1 hrest
    rw [tyAt]
    refine .advance_bind ?_
    rw [htoken]
    refine .expect_bind hlt ((ih helement (by omega)).bind fun t' ht => .expect_bind hgt ?_)
    exact .pure (by rw [ht])

theorem yields_ty {t : Ty} {c d : Cursor} (h : c.Takes t.tokens d) : Yields ty c d (· = t) :=
  .get_bind (yields_tyAt h (Nat.le_refl _))

/-- The tokens that nothing begins with. -/
def isClosing : Token → Bool
  | .sign .rparen | .sign .rbracket | .sign .rbrace | .keyword .elseK | .eof => true
  | _ => false

/-- Tokens with which something may begin. -/
def Begins (ts : List Token) : Prop := ∃ t us, ts = t :: us ∧ isClosing t = false

/-- What begins like that does not close a row. -/
theorem Begins.current {ts : List Token} {c d : Cursor} (hts : Begins ts) (h : c.Takes ts d) :
    isClosing c.current.token = false := by
  obtain ⟨t, us, rfl, ht⟩ := hts
  exact h.1 ▸ ht

/-- It has a token at least. -/
theorem Begins.bound_lt {ts : List Token} {c d : Cursor} (hts : Begins ts) (h : c.Takes ts d) :
    d.bound < c.bound := by
  obtain ⟨t, us, rfl, -⟩ := hts
  exact Nat.lt_of_le_of_lt h.2.2.bound_le h.2.1

theorem Begins.append {ts : List Token} (hts : Begins ts) (us : List Token) :
    Begins (ts ++ us) := by
  obtain ⟨t, rest, rfl, ht⟩ := hts
  exact ⟨t, rest ++ us, rfl, ht⟩

theorem ne_of_isClosing {t close : Token} (ht : isClosing t = false)
    (hclose : isClosing close = true) : t ≠ close := by
  rintro rfl
  simp [ht] at hclose

section Items

variable {item : Parser α} {text : α → List Token} (key : α → β) {close : Token} {n : Nat}
  {xs : List α} {c d : Cursor}

/-- The run lemma of rows between commas, by induction on what was written. -/
theorem yields_itemsAt (hclose : isClosing close = true)
    (hitem : ∀ x ∈ xs, Begins (text x) ∧ ∀ c d : Cursor, c.Takes (text x) d → c.bound ≤ n →
      d.current.token = .sign .comma ∨ d.current.token = close →
      Yields item c d fun a => key a = key x)
    (h : c.Takes (commas (xs.map text)) d) (hd : d.current.token = close) (hn : c.bound ≤ n)
    {m : Nat} (hm : c.bound ≤ m) :
    Yields (itemsAt item close m) c d fun as => as.map key = xs.map key := by
  induction xs generalizing c m with
  | nil =>
    obtain _ | m := m
    · exact absurd hm c.not_bound_le_zero
    obtain rfl : c = d := h
    rw [itemsAt]
    exact .close_yes hd (.pure rfl)
  | cons x xs ih =>
    obtain _ | m := m
    · exact absurd hm c.not_bound_le_zero
    obtain ⟨⟨hbegins, hx⟩, hxs⟩ := List.forall_mem_cons.1 hitem
    obtain ⟨c₁, htext, hrest⟩ := Cursor.takes_commas_cons.1 h
    have hc := hbegins.current htext
    have h₁ := htext.bound_le
    rw [itemsAt]
    refine .close_no (ne_of_isClosing hc hclose) (ne_of_isClosing hc rfl) ?_
    rcases hrest with ⟨hnil, rfl⟩ | ⟨-, hcomma, h₂, hrest⟩
    · refine (hx c c₁ htext hn (Or.inr hd)).bind fun a ha => ?_
      refine .accept_no (fun hcomma => ?_) (.pure ?_)
      · rw [← hd, hcomma] at hclose
        exact absurd hclose (by decide)
      · rw [List.map_eq_nil_iff] at hnil
        simp [hnil, ha]
    · refine (hx c c₁ htext hn (Or.inl hcomma)).bind fun a ha => ?_
      refine .accept_yes hcomma ((ih hxs hrest (by omega) (by omega)).bind fun as has => ?_)
      exact .pure (by simp [ha, has])

theorem yields_items (hclose : isClosing close = true)
    (hitem : ∀ x ∈ xs, Begins (text x) ∧ ∀ c d : Cursor, c.Takes (text x) d → c.bound ≤ n →
      d.current.token = .sign .comma ∨ d.current.token = close →
      Yields item c d fun a => key a = key x)
    (h : c.Takes (commas (xs.map text)) d) (hd : d.current.token = close) (hn : c.bound ≤ n) :
    Yields (items item close) c d fun as => as.map key = xs.map key :=
  .get_bind (yields_itemsAt key hclose hitem h hd hn (Nat.le_refl _))

end Items

theorem begins_literal (v : Literal) : Begins v.tokens := by
  unfold Literal.tokens
  split
  · exact ⟨_, _, rfl, rfl⟩
  · cases v <;> exact ⟨_, _, rfl, rfl⟩

/-- A pattern does not begin with a closing sign. -/
theorem begins_pattern (p : Pattern) : Begins p.tokens := by
  cases p with
  | literal v => exact begins_literal v
  | wildcard | bind | items => exact ⟨_, _, rfl, rfl⟩

/-- Behind a minus sign the sign of a number is turned. -/
theorem yields_negativeLiteral {v : Literal} (hv : v.isNegative = true) {c d : Cursor}
    (h : c.Takes [v.negated.token] d) : Yields negativeLiteral c d (· = .literal v) := by
  obtain ⟨htoken, -, rfl⟩ := h
  refine .advance_bind ?_
  rw [htoken]
  have hback := congrArg Pattern.literal v.negated_negated
  cases v with
  | int | float => exact .pure hback
  | bool | str => exact absurd hv Bool.false_ne_true

/-- By induction on the levels of nesting. -/
theorem yields_patternAt {n : Nat} {p : Pattern} {c d : Cursor} (h : c.Takes p.tokens d)
    (hn : c.bound ≤ n) : Yields (patternAt n) c d (· = p) := by
  induction n generalizing p c d with
  | zero => exact absurd hn c.not_bound_le_zero
  | succ n ih =>
    refine .advance_bind ?_
    cases p with
    | literal v =>
      rw [Pattern.tokens, Literal.tokens] at h
      split at h
      · next hv =>
        obtain ⟨hminus, -, hnumber⟩ := h
        rw [hminus]
        exact yields_negativeLiteral hv hnumber
      · obtain ⟨htoken, -, rfl⟩ := h
        rw [htoken]
        cases v <;> exact .pure rfl
    | wildcard | bind =>
      obtain ⟨htoken, -, rfl⟩ := h
      rw [htoken]
      exact .pure rfl
    | items ps =>
      rw [Pattern.tokens, Pattern.tokensAll_eq_map] at h
      obtain ⟨htoken, hopen, hrest⟩ := h
      obtain ⟨m, hitems, hclose, -, rfl⟩ := Cursor.takes_append.1 hrest
      rw [htoken]
      refine (yields_items id rfl (fun p _ => ⟨begins_pattern p, fun c d h hn _ => ih h hn⟩)
        hitems hclose (by omega)).bind fun ps' hps => ?_
      exact .expect_bind hclose (.pure (by simpa using hps))

theorem yields_pattern {p : Pattern} {c d : Cursor} (h : c.Takes p.tokens d) :
    Yields pattern c d (· = p) :=
  .get_bind (yields_patternAt h (Nat.le_refl _))

-- ---------------------------------------------------------------------------
-- Levels
-- ---------------------------------------------------------------------------

/-- The tightest level at which a token can carry an expression on. -/
def reach : Token → Nat
  | .keyword .orK => 1
  | .keyword .andK => 2
  | .sign .eqEq | .sign .bangEq => 3
  | .sign .lt | .sign .ltEq | .sign .gt | .sign .gtEq => 4
  | .sign .plus | .sign .minus => 5
  | .sign .star | .sign .slash | .sign .percent => 6
  | .sign .dot | .sign .lbracket => 8
  | .sign .lparen | .sign .fatArrow => 9
  | _ => 0

/-- The operators of a level. -/
def opAt : Nat → Token → Option BinaryOp
  | 1 => orOp?
  | 2 => andOp?
  | 3 => equalityOp?
  | 4 => comparisonOp?
  | 5 => additiveOp?
  | 6 => multiplicativeOp?
  | _ => fun _ => none

/-- The token of an operator is read at its level. -/
theorem opAt_token (op : BinaryOp) : opAt op.level op.token = some op := by cases op <;> rfl

/-- It carries an expression on at that level and no tighter one. -/
theorem reach_token (op : BinaryOp) : reach op.token = op.level := by cases op <;> rfl

/-- A token of smaller reach is no operator of the level. -/
theorem opAt_eq_none {k : Nat} {t : Token} (h : reach t < k) : opAt k t = none := by
  unfold opAt
  split
  case h_7 => rfl
  all_goals
    first | unfold orOp? | unfold andOp? | unfold equalityOp? | unfold comparisonOp?
          | unfold additiveOp? | unfold multiplicativeOp?
    split <;> first | rfl | exact absurd h (by decide)

/-- Reads operands with the operators of the tightest `i` levels between them. -/
def rung (unary : Parser Expr) : Nat → Parser Expr
  | 0 => unary
  | i + 1 => chain (opAt (6 - i)) (rung unary i)

/-- Reads an expression of a level or a tighter one. -/
def readAt (n k : Nat) : Parser Expr :=
  if k ≤ 7 then rung (unaryAt n) (7 - max k 1)
  else if k = 8 then suffixed (levels (unaryAt (n - 1)))
  else primary (levels (unaryAt (n - 1)))

/-- The levels with operators that may follow each other. -/
def Repeats (k : Nat) : Prop := 1 ≤ k ∧ k ≤ 6 ∨ k = 8

theorem Repeats.pos {k : Nat} (hk : Repeats k) : 0 < k := by
  unfold Repeats at hk
  omega

theorem Repeats.lt {k : Nat} (hk : Repeats k) : k < 9 := by
  unfold Repeats at hk
  omega

/-- Goes on at a level behind what has been read. -/
def goOn (n k m : Nat) (left : Expr) : Parser Expr :=
  if k = 8 then suffixesAt (levels (unaryAt (n - 1))) m left
  else chainAt (opAt k) (readAt n (k + 1)) m left

/-- A level that repeats reads an operand of the next one and goes on. -/
theorem readAt_repeats {k : Nat} (hk : Repeats k) (n : Nat) :
    readAt n k = readAt n (k + 1) >>= fun left => get >>= fun c => goOn n k c.bound left := by
  rcases hk with hk | rfl
  · have hlevel : k = 1 ∨ k = 2 ∨ k = 3 ∨ k = 4 ∨ k = 5 ∨ k = 6 := by omega
    rcases hlevel with rfl | rfl | rfl | rfl | rfl | rfl <;> rfl
  · rfl

section Levels

variable {n k : Nat} {c d : Cursor} {Q : Expr → Prop}

/-- A reader that stands before a token of smaller reach has finished. -/
theorem yields_goOn (hd : reach d.current.token < k) (m : Nat) (left : Expr) (hleft : Q left) :
    Yields (goOn n k (m + 1) left) d d Q := by
  unfold goOn
  split
  · next hk =>
    rw [suffixesAt]
    refine .peek_bind ?_
    split
    · next heq => exact absurd hd (by simp [heq, reach, hk])
    · next heq => exact absurd hd (by simp [heq, reach, hk])
    · exact .pure hleft
  · rw [chainAt]
    refine .peek_bind ?_
    rw [opAt_eq_none hd]
    exact .pure hleft

/-- Nothing but a unary operation begins with its sign. -/
theorem not_yields_suffixed {expr : Parser Expr} (op : UnaryOp)
    (hc : c.current.token = op.token) : ¬ Yields (suffixed expr) c d Q := by
  have hprimary : ∃ e, primary expr c = .error e c := by
    obtain ⟨⟨t, place⟩, rest⟩ := c
    obtain rfl : t = op.token := hc
    cases op <;> exact ⟨_, rfl⟩
  obtain ⟨e, hprimary⟩ := hprimary
  rintro ⟨a, hrun, -⟩
  simp [suffixed, Bind.bind, EStateM.bind, hprimary] at hrun

/-- What is read at a level is read at the next looser one, if the token behind
does not carry it on there. -/
theorem Yields.looser (h : Yields (readAt n (k + 1)) c d Q) (hn : c.bound ≤ n) (hk : k ≤ 8)
    (hd : reach d.current.token ≤ k - 1) : Yields (readAt n k) c d Q := by
  have hlevel : k = 0 ∨ Repeats k ∨ k = 7 := by unfold Repeats; omega
  rcases hlevel with rfl | hrepeats | rfl
  · exact h
  · rw [readAt_repeats hrepeats]
    refine h.bind fun left hleft => .get_bind ?_
    exact yields_goOn (Nat.lt_of_le_pred hrepeats.pos hd) _ left hleft
  · obtain _ | n := n
    · exact absurd hn c.not_bound_le_zero
    show Yields (unaryAt (n + 1)) c d Q
    rw [unaryAt]
    refine .here_bind (.peek_bind ?_)
    split
    · next heq => exact absurd h (not_yields_suffixed .negate heq)
    · next heq => exact absurd h (not_yields_suffixed .not heq)
    · exact h

/-- A tighter reader suffices where nothing carries the expression on. -/
theorem Yields.loose (h : Yields (readAt n k) c d Q) (hn : c.bound ≤ n) (hk : k ≤ 9) {j : Nat}
    (hj : j ≤ k) (hd : reach d.current.token ≤ j - 1) : Yields (readAt n j) c d Q := by
  induction k with
  | zero => exact Nat.le_zero.1 hj ▸ h
  | succ k ih =>
    rcases Nat.lt_or_eq_of_le hj with hlt | rfl
    · exact ih (h.looser hn (by omega) (by omega)) (by omega) (by omega)
    · exact h

end Levels

-- ---------------------------------------------------------------------------
-- Texts of expressions
-- ---------------------------------------------------------------------------

/-- Where an expression of level `k` is asked for, the tokens `ts` are read as `e`. -/
def Rereads (k : Nat) (ts : List Token) (e : Expr) : Prop :=
  ∀ (n : Nat) (c d : Cursor), c.Takes ts d → c.bound ≤ n → reach d.current.token ≤ k - 1 →
    Yields (readAt n k) c d fun e' => e'.erase = e.erase

/-- Where an expression of level `k` is asked for, the tokens `ts` are read as `e`,
and the reader goes on from there at that level. -/
def Leads (k : Nat) (ts : List Token) (e : Expr) : Prop :=
  ∀ (n : Nat) (c d z : Cursor) (Q : Expr → Prop), c.Takes ts d → c.bound ≤ n →
    reach d.current.token ≤ k →
    (∀ m e', d.bound ≤ m → e'.erase = e.erase → Yields (goOn n k m e') d z Q) →
    Yields (readAt n k) c z Q

section Texts

variable {k : Nat} {ts : List Token} {e : Expr}

/-- An operand of the next level is a beginning of the row. -/
theorem Rereads.leads (h : Rereads (k + 1) ts e) (hk : Repeats k) : Leads k ts e := by
  intro n c d z Q hts hn hd hmore
  rw [readAt_repeats hk]
  exact (h n c d hts hn hd).bind fun e' he => .get_bind (hmore d.bound e' (Nat.le_refl _) he)

/-- A beginning behind which nothing follows is the whole. -/
theorem Leads.rereads (h : Leads k ts e) (hk : Repeats k) : Rereads k ts e := by
  intro n c d hts hn hd
  refine h n c d d _ hts hn (by omega) fun m e' hm he => ?_
  obtain _ | m := m
  · exact absurd hm d.not_bound_le_zero
  · exact yields_goOn (Nat.lt_of_le_pred hk.pos hd) m e' he

/-- What is read at a level is read at the looser ones. -/
theorem Rereads.loose (h : Rereads k ts e) (hk : k ≤ 9) {j : Nat} (hj : j ≤ k) :
    Rereads j ts e := fun n c d hts hn hd =>
  (h n c d hts hn (by omega)).loose hn hk hj hd

/-- In parentheses everything is as tight as can be. -/
theorem Rereads.enclosed (h : Rereads 0 ts e) :
    Rereads 9 (.sign .lparen :: ts ++ [.sign .rparen]) e := by
  rintro n c d ⟨hopen, hnext, hrest⟩ hn -
  obtain ⟨m, hts, hclose, -, rfl⟩ := Cursor.takes_append.1 hrest
  refine .here_bind (.peek_bind ?_)
  rw [hopen]
  refine .advance_bind ?_
  refine (h (n - 1) _ _ hts (by omega) (by rw [hclose]; decide)).bind fun e' he => ?_
  exact .expect_bind hclose (.pure he)

/-- No parentheses are written where none are needed. -/
theorem tokensAt_of_le (h : k ≤ e.level) : e.tokensAt k = e.tokens :=
  if_neg (Nat.not_lt.2 h)

/-- Otherwise the expression stands in parentheses. -/
theorem tokensAt_of_lt (h : e.level < k) :
    e.tokensAt k = .sign .lparen :: e.tokens ++ [.sign .rparen] :=
  if_pos h

theorem repeats_level (op : BinaryOp) : Repeats op.level := Or.inl (by cases op <;> decide)

theorem level_le (e : Expr) : e.level ≤ 9 := by
  cases e with
  | binary op => exact Nat.le_of_lt (repeats_level op).lt
  | _ => exact Nat.le_of_ble_eq_true rfl

/-- An expression that is read back wherever it can stand. -/
structure Rereadable (e : Expr) : Prop where
  rereads : ∀ k ≤ 9, Rereads k (e.tokensAt k) e
  leads : ∀ k, Repeats k → Leads k (e.tokensAt k) e

namespace Rereadable

/-- It is enough that an expression is read back at its own level. -/
theorem of_rereads (h : Rereads e.level e.tokens e)
    (hlead : Repeats e.level → Leads e.level e.tokens e) : Rereadable e := by
  have hall : ∀ k ≤ 9, Rereads k (e.tokensAt k) e := by
    intro k hk
    rcases Nat.lt_or_ge e.level k with hlt | hge
    · rw [tokensAt_of_lt hlt]
      exact (h.loose (level_le e) (Nat.zero_le _)).enclosed.loose (Nat.le_refl _) hk
    · rw [tokensAt_of_le hge]
      exact h.loose (level_le e) hge
  refine ⟨hall, fun k hk => ?_⟩
  rcases Nat.lt_trichotomy e.level k with hlt | rfl | hgt
  · have h' := hall (k + 1) hk.lt
    rw [tokensAt_of_lt (Nat.lt_succ_of_lt hlt), ← tokensAt_of_lt hlt] at h'
    exact h'.leads hk
  · rw [tokensAt_of_le (Nat.le_refl _)]
    exact hlead hk
  · have h' := hall (k + 1) hk.lt
    rw [tokensAt_of_le hgt, ← tokensAt_of_le (Nat.le_of_lt hgt)] at h'
    exact h'.leads hk

/-- It is enough to know an expression at its own level. -/
theorem of_leads (hk : Repeats e.level) (h : Leads e.level e.tokens e) : Rereadable e :=
  of_rereads (h.rereads hk) fun _ => h

/-- Where any expression will do. -/
theorem whole (h : Rereadable e) : Rereads 0 e.tokens e := h.rereads 0 (Nat.zero_le _)

end Rereadable

-- ---------------------------------------------------------------------------
-- How expressions begin
-- ---------------------------------------------------------------------------

/-- The tokens that an expression can begin with. -/
def opensExpr : Token → Bool
  | .int _ | .float _ | .bool _ | .str _ | .ident _ | .typeWord _ | .sign .lparen
  | .sign .lbracket | .sign .minus | .keyword .notK => true
  | _ => false

/-- The tokens that tell a name from an expression: it is assigned to, or is the
name of an argument. -/
def isLabel (t : Token) : Bool := t = .sign .colon || t.isAssignment

/-- Whether tokens begin with a name that is no expression. -/
def isLabelled : List Token → Bool
  | .ident _ :: t :: _ => isLabel t
  | _ => false

/-- Tokens that begin like an expression, whatever stands behind them. -/
structure Headed (ts : List Token) : Prop where
  opens : ∃ t us, ts = t :: us ∧ opensExpr t = true
  unlabelled : ∀ rest : List Token, rest.head?.any isLabel = false →
    isLabelled (ts ++ rest) = false

namespace Headed

/-- An expression does not begin with a closing sign. -/
theorem begins (h : Headed ts) : Begins ts := by
  obtain ⟨t, us, rfl, ht⟩ := h.opens
  refine ⟨t, us, rfl, ?_⟩
  unfold isClosing
  split <;> first | exact absurd ht (by decide) | rfl

theorem current (h : Headed ts) {c d : Cursor} (hts : c.Takes ts d) :
    opensExpr c.current.token = true := by
  obtain ⟨t, us, rfl, ht⟩ := h.opens
  exact hts.1 ▸ ht

/-- What follows is no label, so the whole is not taken for a named argument. -/
theorem append (h : Headed ts) {us : List Token} (hus : us.head?.any isLabel = false) :
    Headed (ts ++ us) where
  opens := by
    obtain ⟨t, ts', rfl, ht⟩ := h.opens
    exact ⟨t, ts' ++ us, rfl, ht⟩
  unlabelled rest hrest := by
    rw [List.append_assoc]
    refine h.unlabelled _ ?_
    cases us with
    | nil => exact hrest
    | cons u us => exact hus

/-- Only a name could be taken for a label. -/
theorem of_opens {t : Token} (ht : opensExpr t = true) (hident : t.isIdent = false)
    (us : List Token) : Headed (t :: us) where
  opens := ⟨t, us, rfl, ht⟩
  unlabelled rest _ := by
    rw [List.cons_append, isLabelled.eq_def]
    split
    · next heq =>
      obtain ⟨rfl, -⟩ := List.cons.inj heq
      simp [Token.isIdent] at hident
    · rfl

theorem ident (name : String) : Headed [.ident name] where
  opens := ⟨_, _, rfl, rfl⟩
  unlabelled rest hrest := by
    cases rest with
    | nil => rfl
    | cons t rest => exact hrest

theorem tokensAt (h : Headed e.tokens) (k : Nat) : Headed (e.tokensAt k) := by
  unfold Expr.tokensAt Expr.enclose
  split
  · exact of_opens rfl rfl _
  · exact h

end Headed

theorem isLabel_token (op : BinaryOp) : isLabel op.token = false := by cases op <;> rfl

/-- **How expressions begin,** by induction on them. -/
theorem headed_tokens (he : e.Writable) : Headed e.tokens := by
  induction he with
  | literal v => cases v <;> exact .of_opens rfl rfl _
  | ident name => exact .ident name
  | binary op _ _ _ ihl _ => exact (ihl.tokensAt _).append (isLabel_token op)
  | unary op => cases op <;> exact .of_opens rfl rfl _
  | @cast t _ _ ht =>
    cases t with
    | int | float | bool | string => exact .of_opens rfl rfl _
    | array | list | func => exact absurd ht Bool.false_ne_true
  | call name => exact (Headed.ident name).append rfl
  | index _ _ _ ihe _ => exact ((ihe.tokensAt _).append rfl).append rfl
  | collection _ _ _ _ _ ihe => exact ((ihe.tokensAt _).append rfl).append rfl
  | items => exact .of_opens rfl rfl _
  | lambda x => exact (Headed.ident x).append rfl

end Texts

-- ---------------------------------------------------------------------------
-- Forms of expressions
-- ---------------------------------------------------------------------------

section Forms

variable {e l r i : Expr} {es args : List Expr} {named : List (String × Expr)} {n : Nat}
  {c d : Cursor} (place : Place)

theorem rereads_literal (v : Literal) : Rereads 9 [v.token] (.literal v place) := by
  rintro n c d ⟨htoken, -, rfl⟩ - -
  refine .here_bind (.peek_bind ?_)
  rw [htoken]
  cases v <;> exact .advance_bind (.pure rfl)

theorem rereads_ident (name : String) : Rereads 9 [.ident name] (.ident name place) := by
  rintro n c d ⟨htoken, -, rfl⟩ - hd
  have hstop (t : Token) (ht : reach t = 9) : c.next.current.token ≠ t := by
    rintro rfl
    omega
  refine .here_bind (.peek_bind ?_)
  rw [htoken]
  exact .advance_bind (.accept_no (hstop _ rfl) (.accept_no (hstop _ rfl) (.pure rfl)))

/-- A function without a name takes all that follows, so it is read at the loosest level
only. -/
theorem rereads_lambda (he : Rereadable e) (x : String) :
    Rereads 0 (.ident x :: .sign .fatArrow :: e.tokens) (.lambda x e place) := by
  rintro n c d ⟨htoken, h₁, harrow, h₂, hbody⟩ hn hd
  have hprimary : Yields (readAt n 9) c d fun e' => e'.erase = (Expr.lambda x e place).erase := by
    refine .here_bind (.peek_bind ?_)
    rw [htoken]
    refine .advance_bind (.accept_yes harrow ?_)
    refine (he.whole (n - 1) _ _ hbody (by omega) hd).bind fun e' he' => ?_
    exact .pure (by simp [Expr.erase, he'])
  exact hprimary.loose hn (Nat.le_refl _) (Nat.zero_le _) hd

/-- A sign takes an operand of its own level, and may be repeated. -/
theorem rereads_unary (op : UnaryOp) (he : Rereadable e) :
    Rereads 7 (op.token :: e.tokensAt 7) (.unary op e place) := by
  rintro n c d ⟨htoken, h₁, hoperand⟩ hn hd
  obtain _ | n := n
  · exact absurd hn c.not_bound_le_zero
  have hread := he.rereads 7 (by decide) n c.next d hoperand (by omega) hd
  show Yields (unaryAt (n + 1)) c d _
  rw [unaryAt]
  refine .here_bind (.peek_bind ?_)
  rw [htoken]
  cases op <;>
    exact .advance_bind (hread.bind fun e' he' => .pure (by simp [Expr.erase, he']))

theorem goOn_level (op : BinaryOp) (m : Nat) (left : Expr) :
    goOn n op.level m left = chainAt (opAt op.level) (readAt n (op.level + 1)) m left :=
  if_neg (by cases op <;> decide)

/-- Operators group to the left: the left operand leads, the right one is read a level
tighter. -/
theorem leads_binary (op : BinaryOp) (hl : Rereadable l) (hr : Rereadable r) :
    Leads op.level (l.tokensAt op.level ++ op.token :: r.tokensAt (op.level + 1))
      (.binary op l r place) := by
  intro n c d z Q htext hn hd hmore
  obtain ⟨c₁, hleft, htoken, h₂, hright⟩ := Cursor.takes_append.1 htext
  have h₁ := hleft.bound_le
  have h₃ := hright.bound_le
  have hreach : reach c₁.current.token = op.level := by rw [htoken, reach_token]
  refine hl.leads op.level (repeats_level op) n c c₁ z Q hleft hn (Nat.le_of_eq hreach) ?_
  intro m l' hm hl'
  obtain _ | m := m
  · exact absurd hm c₁.not_bound_le_zero
  rw [goOn_level, chainAt]
  refine .peek_bind ?_
  rw [htoken, opAt_token]
  refine .advance_bind ?_
  refine (hr.rereads _ (repeats_level op).lt n c₁.next d hright (by omega) hd).bind fun r' hr' => ?_
  rw [← goOn_level]
  exact hmore m _ (by omega) (by simp [Expr.erase, hl', hr'])

/-- An index stands behind whatever leads. -/
theorem leads_index (he : Rereadable e) (hi : Rereadable i) :
    Leads 8 (e.tokensAt 8 ++ .sign .lbracket :: i.tokens ++ [.sign .rbracket])
      (.index e i place) := by
  intro n c d z Q htext hn _ hmore
  obtain ⟨c₂, hfront, hclose, h₃, rfl⟩ := Cursor.takes_append.1 htext
  obtain ⟨c₁, hsubject, hopen, h₂, hposition⟩ := Cursor.takes_append.1 hfront
  have h₁ := hsubject.bound_le
  have h₄ := hposition.bound_le
  refine he.leads 8 (Or.inr rfl) n c c₁ z Q hsubject hn (by rw [hopen]; decide) ?_
  intro m e' hm he'
  obtain _ | m := m
  · exact absurd hm c₁.not_bound_le_zero
  show Yields (suffixesAt (levels (unaryAt (n - 1))) (m + 1) e') c₁ z Q
  rw [suffixesAt]
  refine .peek_bind ?_
  rw [hopen]
  refine .advance_bind ?_
  refine (hi.whole (n - 1) _ _ hposition (by omega) (by rw [hclose]; decide)).bind fun i' hi' => ?_
  exact .expect_bind hclose (hmore m _ (by omega) (by simp [Expr.erase, he', hi']))

/-- Expressions that are read back, in a row. -/
def Row (es : List Expr) : Prop := ∀ e ∈ es, Rereadable e ∧ Headed e.tokens

/-- A row of expressions is read back by the reader for whole expressions. -/
theorem yields_row (hes : Row es) {close : Token} (hclose : isClosing close = true)
    (hreach : reach close = 0) (h : c.Takes (commas (Expr.tokensAll es)) d)
    (hd : d.current.token = close) (hn : c.bound ≤ n) :
    Yields (items (readAt n 0) close) c d fun es' => Expr.eraseAll es' = Expr.eraseAll es := by
  simp only [Expr.eraseAll_eq_map]
  rw [Expr.tokensAll_eq_map] at h
  refine yields_items Expr.erase hclose (fun e he => ⟨(hes e he).2.begins, ?_⟩) h hd hn
  intro c d h hn hd
  refine (hes e he).1.whole n c d h hn ?_
  rcases hd with hd | hd <;> rw [hd]
  · decide
  · omega

/-- A row in brackets. -/
theorem rereads_items (hes : Row es) :
    Rereads 9 (.sign .lbracket :: commas (Expr.tokensAll es) ++ [.sign .rbracket])
      (.items es place) := by
  rintro n c d ⟨hopen, h₁, hrest⟩ hn -
  obtain ⟨c₁, hrow, hclose, -, rfl⟩ := Cursor.takes_append.1 hrest
  refine .here_bind (.peek_bind ?_)
  rw [hopen]
  refine .advance_bind ?_
  refine (yields_row (n := n - 1) hes rfl rfl hrow hclose (by omega)).bind fun es' hes' => ?_
  exact .expect_bind hclose (.pure (by simp [Expr.erase, hes']))

/-- A name with a parenthesis behind it is a call. -/
theorem rereads_call (name : String) (hargs : Row args) :
    Rereads 9 (.ident name :: .sign .lparen :: commas (Expr.tokensAll args) ++ [.sign .rparen])
      (.call name args place) := by
  rintro n c d ⟨hname, h₁, hopen, h₂, hrest⟩ hn -
  obtain ⟨c₁, hrow, hclose, -, rfl⟩ := Cursor.takes_append.1 hrest
  refine .here_bind (.peek_bind ?_)
  rw [hname]
  refine .advance_bind (.accept_no (by rw [hopen]; decide) (.accept_yes hopen ?_))
  refine (yields_row (n := n - 1) hargs rfl rfl hrow hclose (by omega)).bind fun args' hargs' => ?_
  exact .expect_bind hclose (.pure (by simp [Expr.erase, hargs']))

theorem yields_castExpr {t : Ty} (he : Rereadable e) {c₁ c₂ : Cursor}
    (hfollowing : c.following? = some (.sign .lparen)) (hty : c.Takes t.tokens c₁)
    (hopen : c₁.current.token = .sign .lparen) (hoperand : c₁.next.Takes e.tokens c₂)
    (hclose : c₂.current.token = .sign .rparen) (hn : c₁.next.bound ≤ n) :
    Yields (castExpr (readAt n 0) c.current.place) c c₂.next fun e' =>
      e'.erase = (Expr.cast t e place).erase := by
  refine .get_bind ?_
  show Yields (if decide (c.following? = some (.sign .lparen)) = true then _ else _) c _ _
  rw [if_pos (decide_eq_true hfollowing)]
  refine (yields_ty hty).bind fun t' ht => .expect_bind hopen ?_
  refine (he.whole n _ _ hoperand hn (by rw [hclose]; decide)).bind fun e' he' => ?_
  exact .expect_bind hclose (.pure (by simp [Expr.erase, ht, he']))

/-- The word for a plain type with a parenthesis behind it is a cast. -/
theorem rereads_cast {t : Ty} (ht : t.isPlain = true) (he : Rereadable e) :
    Rereads 9 (t.tokens ++ .sign .lparen :: e.tokens ++ [.sign .rparen]) (.cast t e place) := by
  intro n c d htext hn _
  obtain ⟨c₂, hfront, hclose, -, rfl⟩ := Cursor.takes_append.1 htext
  obtain ⟨c₁, hty, hopen, h₂, hoperand⟩ := Cursor.takes_append.1 hfront
  cases t with
  | int | float | bool | string =>
    have h₁ := hty.bound_le
    have hnext : c.next = c₁ := hty.2.2
    have hfollowing : c.following? = some (.sign .lparen) := by
      rw [Cursor.following_of_lt hty.2.1, hnext, hopen]
    refine .here_bind (.peek_bind ?_)
    rw [hty.1]
    exact yields_castExpr place he hfollowing hty hopen hoperand hclose (by omega)
  | array | list | func => exact absurd ht Bool.false_ne_true

-- ---------------------------------------------------------------------------
-- Arguments
-- ---------------------------------------------------------------------------

/-- Whether an argument with a name comes next is told by the first two tokens. -/
theorem atNamedArgument_eq (c : Cursor) :
    atNamedArgument c = .ok (c.current.token.isIdent &&
      (c.following? = some (.sign .colon) || c.following? = some (.sign .eq))) c := rfl

/-- A name and a colon are a label. -/
theorem atNamedArgument_label {name : String} (hname : c.current.token = .ident name)
    (h : c.next.bound < c.bound) (hcolon : c.next.current.token = .sign .colon) :
    Yields atNamedArgument c c (· = true) := by
  refine ⟨_, atNamedArgument_eq c, ?_⟩
  simp [hname, Token.isIdent, Cursor.following_of_lt h, hcolon]

/-- The beginning of an expression is none. -/
theorem atNamedArgument_expr {ts : List Token} (hts : Headed ts) (h : c.Takes ts d)
    (hd : isLabel d.current.token = false) : Yields atNamedArgument c c (· = false) := by
  refine ⟨_, atNamedArgument_eq c, ?_⟩
  have hlabel := hts.unlabelled (d.row.map Lexeme.token) hd
  rw [← h.tokens_row] at hlabel
  obtain ⟨⟨t, place⟩, _ | ⟨⟨t', place'⟩, ls⟩⟩ := c
  · simp [Cursor.following?]
  · cases t with
    | ident name =>
      have hnext : isLabel t' = false := hlabel
      simp only [isLabel, Bool.or_eq_false_iff, decide_eq_false_iff_not] at hnext
      obtain ⟨hcolon, hassign⟩ := hnext
      have heq : t' ≠ .sign .eq := by
        rintro rfl
        exact absurd hassign (by decide)
      simp [Cursor.following?, hcolon, heq]
    | _ => rfl

/-- The run lemma of arguments, those without a name in front. -/
theorem yields_argumentsAt (hargs : Row args) (hnamed : ∀ a ∈ named, Rereadable a.2)
    {begun : Bool} (hbegun : begun = true → args = [])
    (h : c.Takes (commas (Expr.tokensAll args ++ Expr.tokensNamed named)) d)
    (hd : d.current.token = .sign .rparen) (hn : c.bound ≤ n) {m : Nat} (hm : c.bound ≤ m) :
    Yields (argumentsAt (readAt n 0) m begun) c d fun r =>
      Expr.eraseAll r.1 = Expr.eraseAll args ∧ Expr.eraseNamed r.2 = Expr.eraseNamed named := by
  induction m generalizing c args named begun with
  | zero => exact absurd hm c.not_bound_le_zero
  | succ m ih =>
    rw [argumentsAt]
    cases args with
    | cons e args =>
      obtain ⟨⟨he, hhead⟩, hargs⟩ := List.forall_mem_cons.1 hargs
      rw [Expr.tokensAll, List.cons_append] at h
      obtain ⟨c₁, htext, hrest⟩ := Cursor.takes_commas_cons.1 h
      have h₁ := htext.bound_le
      have hc := hhead.begins.current htext
      have hfalse : begun = false := by
        cases begun with
        | false => rfl
        | true => exact absurd (hbegun rfl) (List.cons_ne_nil _ _)
      refine .close_no (ne_of_isClosing hc rfl) (ne_of_isClosing hc rfl) ?_
      rcases hrest with ⟨hnil, rfl⟩ | ⟨-, hcomma, h₂, hrest⟩
      · refine (atNamedArgument_expr hhead htext (by rw [hd]; rfl)).bind fun b hb => ?_
        rw [hb, hfalse]
        refine (he.whole n _ _ htext hn (by rw [hd]; decide)).bind fun e' he' => ?_
        rw [Expr.tokensAll_eq_map, Expr.tokensNamed_eq_map, List.append_eq_nil_iff,
          List.map_eq_nil_iff, List.map_eq_nil_iff] at hnil
        obtain ⟨rfl, rfl⟩ := hnil
        exact .accept_no (by rw [hd]; decide) (.pure (by simp [Expr.eraseAll, he']))
      · refine (atNamedArgument_expr hhead htext (by rw [hcomma]; rfl)).bind fun b hb => ?_
        rw [hb, hfalse]
        refine (he.whole n _ _ htext hn (by rw [hcomma]; decide)).bind fun e' he' => ?_
        refine .accept_yes hcomma ?_
        refine (ih hargs hnamed (fun h => absurd h Bool.false_ne_true) hrest (by omega)
          (by omega)).bind fun r hr => .pure ?_
        simp [Expr.eraseAll, he', hr]
    | nil =>
      cases named with
      | nil =>
        obtain rfl : c = d := h
        exact .close_yes hd (.pure ⟨rfl, rfl⟩)
      | cons a named =>
        obtain ⟨name, e⟩ := a
        obtain ⟨he, hnamed⟩ := List.forall_mem_cons.1 hnamed
        rw [Expr.tokensAll, List.nil_append, Expr.tokensNamed] at h
        obtain ⟨c₁, ⟨hname, h₁, hcolon, h₂, htext⟩, hrest⟩ := Cursor.takes_commas_cons.1 h
        have h₃ := htext.bound_le
        refine .close_no (by simp [hname]) (by simp [hname]) ?_
        refine (atNamedArgument_label hname h₁ hcolon).bind fun b hb => ?_
        rw [if_pos hb]
        refine .ident_bind hname (.advance_bind ?_)
        rcases hrest with ⟨hnil, rfl⟩ | ⟨-, hcomma, h₄, hrest⟩
        · refine (he.whole n _ _ htext (by omega) (by rw [hd]; decide)).bind fun e' he' => ?_
          rw [Expr.tokensNamed_eq_map, List.map_eq_nil_iff] at hnil
          subst hnil
          exact .accept_no (by rw [hd]; decide) (.pure (by simp [Expr.eraseNamed, he']))
        · refine (he.whole n _ _ htext (by omega) (by rw [hcomma]; decide)).bind fun e' he' => ?_
          refine .accept_yes hcomma ?_
          refine (ih hargs hnamed (fun _ => rfl) hrest (by omega) (by omega)).bind
            fun r hr => .pure ?_
          simp [Expr.eraseNamed, he', hr]

theorem ofName_name (op : CollectionOp) : CollectionOp.ofName? op.name = some op := by
  cases op <;> decide

/-- An operation stands behind whatever leads. -/
theorem leads_collection (op : CollectionOp) (he : Rereadable e) (hargs : Row args)
    (hnamed : ∀ a ∈ named, Rereadable a.2) :
    Leads 8 (e.tokensAt 8 ++ .sign .dot :: .ident op.name :: .sign .lparen ::
        commas (Expr.tokensAll args ++ Expr.tokensNamed named) ++ [.sign .rparen])
      (.collection op e args named place) := by
  intro n c d z Q htext hn _ hmore
  obtain ⟨c₂, hfront, hclose, h₆, rfl⟩ := Cursor.takes_append.1 htext
  obtain ⟨c₁, hsubject, hdot, h₂, hname, h₃, hopen, h₄, hrow⟩ := Cursor.takes_append.1 hfront
  have h₁ := hsubject.bound_le
  have h₅ := hrow.bound_le
  refine he.leads 8 (Or.inr rfl) n c c₁ z Q hsubject hn (by rw [hdot]; decide) ?_
  intro m e' hm he'
  obtain _ | m := m
  · exact absurd hm c₁.not_bound_le_zero
  show Yields (suffixesAt (levels (unaryAt (n - 1))) (m + 1) e') c₁ z Q
  have hoperation : Yields (operation (readAt (n - 1) 0) e') c₁.next c₂.next fun e'' =>
      e''.erase = (Expr.collection op e args named place).erase := by
    refine .here_bind (.ident_bind hname ?_)
    rw [ofName_name]
    refine .expect_bind hopen (.get_bind ?_)
    refine (yields_argumentsAt hargs hnamed (fun h => absurd h Bool.false_ne_true) hrow hclose
      (by omega) (Nat.le_refl _)).bind fun r hr => ?_
    exact .expect_bind hclose (.pure (by simp [Expr.erase, he', hr]))
  rw [suffixesAt]
  refine .peek_bind ?_
  rw [hdot]
  exact .advance_bind (hoperation.bind fun e'' he'' => hmore m e'' (by omega) he'')

/-- **Every expression that can be written is read back**, in every position. -/
theorem rereadable (he : e.Writable) : Rereadable e := by
  have hrow {es : List Expr} (hes : ∀ e ∈ es, e.Writable) (ih : ∀ e ∈ es, Rereadable e) : Row es :=
    fun e he => ⟨ih e he, headed_tokens (hes e he)⟩
  have h₀ : ¬ Repeats 0 := by unfold Repeats; omega
  have h₇ : ¬ Repeats 7 := by unfold Repeats; omega
  have h₉ : ¬ Repeats 9 := by unfold Repeats; omega
  induction he with
  | literal v p => exact .of_rereads (rereads_literal p v) (absurd · h₉)
  | ident name p => exact .of_rereads (rereads_ident p name) (absurd · h₉)
  | binary op p _ _ ihl ihr => exact .of_leads (repeats_level op) (leads_binary p op ihl ihr)
  | unary op p _ ih => exact .of_rereads (rereads_unary p op ih) (absurd · h₇)
  | cast p ht _ ih => exact .of_rereads (rereads_cast p ht ih) (absurd · h₉)
  | call name p hargs ih => exact .of_rereads (rereads_call p name (hrow hargs ih)) (absurd · h₉)
  | index p _ _ ihe ihi => exact .of_leads (Or.inr rfl) (leads_index p ihe ihi)
  | collection op p _ hargs _ ihe ihargs ihnamed =>
    exact .of_leads (Or.inr rfl) (leads_collection p op ihe (hrow hargs ihargs) ihnamed)
  | items p hes ih => exact .of_rereads (rereads_items p (hrow hes ih)) (absurd · h₉)
  | lambda x p _ ih => exact .of_rereads (rereads_lambda p ih x) (absurd · h₀)

/-- A whole expression is read back, up to a token that carries no expression on. -/
theorem yields_expr (he : e.Writable) (h : c.Takes e.tokens d)
    (hd : reach d.current.token = 0) : Yields expr c d fun e' => e'.erase = e.erase :=
  .get_bind ((rereadable he).whole _ c d h (Nat.le_refl _) (Nat.le_of_eq hd))

end Forms

end Parser

end SeqScript
