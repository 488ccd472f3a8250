import SeqScript.Proofs.Reading
import SeqScript.Proofs.Tiling

/-!
# How the tokens of a program are gone through

Top-level statements are read one behind another, and a failed one is skipped.
Cursors are placed by number here, counted from the front of the row.

* `stmt_at` — a statement that begins at one token ends behind it, in the row.
* `skipped_at` — so does what is skipped for a statement that failed.
* `parse_accounts` — the two together: an accepted program has no token outside
  its statements, and a refused one has its problems in the order of the tokens.
-/

namespace SeqScript

-- ---------------------------------------------------------------------------
-- Cursors by number
-- ---------------------------------------------------------------------------

namespace Cursor

/-- The cursor stands at the token of number `i`. -/
def At (c : Cursor) (ls : List Lexeme) (i : Nat) : Prop := c.row = ls.drop i

variable {c d : Cursor} {ls : List Lexeme} {i j : Nat}

namespace At

theorem bound_add (h : c.At ls i) : c.bound + i = ls.length := by
  have hlength : c.bound = ls.length - i := by
    rw [← length_row, h, List.length_drop]
  have := c.not_bound_le_zero
  omega

theorem getElem? (h : c.At ls i) : ls[i]? = some c.current := by
  rw [← List.head?_drop, ← h]
  rfl

theorem suffix (h : c.At ls i) : c.row <:+ ls := h ▸ List.drop_suffix i ls

theorem of_suffix (h : c.At ls i) (hsuffix : d.row <:+ c.row) :
    ∃ j, i ≤ j ∧ d.At ls j := by
  refine ⟨i + (c.bound - d.bound), Nat.le_add_right _ _, ?_⟩
  calc d.row = c.row.drop (c.bound - d.bound) := List.suffix_iff_eq_drop.1 hsuffix
    _ = (ls.drop i).drop (c.bound - d.bound) := by rw [h]
    _ = ls.drop (i + (c.bound - d.bound)) := List.drop_drop

end At

end Cursor

/-- A problem at the token of number `k`. -/
def Diagnostic.At (d : Diagnostic) (ls : List Lexeme) (k : Nat) : Prop :=
  d.problem ≠ .exhausted ∧ ∃ l, ls[k]? = some l ∧ d.place = l.place

-- ---------------------------------------------------------------------------
-- One statement
-- ---------------------------------------------------------------------------

section

variable {ls : List Lexeme} {i : Nat} {c : Cursor}

theorem stmt_at (hls : Closed ls) (hc : c.At ls i) :
    match Parser.stmt c with
    | .ok s c' => s.Writable ∧ ∃ j, i < j ∧ c'.At ls j
    | .error d c' => ∃ k j, i ≤ k ∧ k ≤ j ∧ d.At ls k ∧ c'.At ls j := by
  have hread := Parser.reader_stmt c (.refl (hls.of_suffix hc.suffix)) (Nat.le_refl _)
  unfold Parser.Reads at hread
  cases hrun : Parser.stmt c with
  | ok s c' =>
    rw [hrun] at hread
    obtain ⟨hsuffix, hlt, hs⟩ := hread
    obtain ⟨j, -, hj⟩ := hc.of_suffix hsuffix
    have := hc.bound_add
    have := hj.bound_add
    exact ⟨hs, j, by omega, hj⟩
  | error d c' =>
    rw [hrun] at hread
    obtain ⟨-, hproblem, t, ht, hsuffix, hplace⟩ := hread
    obtain ⟨k, hik, hk⟩ := hc.of_suffix ht
    obtain ⟨j, hkj, hj⟩ := hk.of_suffix hsuffix
    exact ⟨k, j, hik, hkj, ⟨hproblem, t.current, hk.getElem?, hplace⟩, hj⟩

theorem suffix_recover (l : Lexeme) (rest : List Lexeme) :
    (recover l rest).row <:+ l :: rest := by
  induction rest generalizing l with
  | nil => exact List.suffix_refl _
  | cons t rest ih =>
    rw [recover]
    split
    · exact List.suffix_cons l (t :: rest)
    split
    · exact List.suffix_refl _
    · exact (ih t).trans (List.suffix_cons l (t :: rest))

/-- A statement that has taken a token needs no push. -/
theorem beyond_of_lt {d : Cursor} (h : d.bound < c.bound) : c.beyond d = d := by
  have hne : d.rest.length ≠ c.rest.length := by
    unfold Cursor.bound at h
    omega
  rw [Cursor.beyond, if_neg hne]

/-- What is skipped after a problem ends in the row, and behind the token where
the statement began. -/
theorem skipped_at (hls : Closed ls) (hc : c.At ls i) (htoken : c.current.token ≠ .eof)
    {d : Cursor} {j : Nat} (hij : i ≤ j) (hd : d.At ls j) :
    ∃ j', i < j' ∧ j ≤ j' ∧ (c.beyond (recover d.current d.rest)).At ls j' := by
  obtain ⟨r, hjr, hr⟩ := hd.of_suffix (suffix_recover d.current d.rest)
  have hadd := hc.bound_add
  have hadd' := hr.bound_add
  by_cases hstuck : (recover d.current d.rest).bound < c.bound
  · rw [beyond_of_lt hstuck]
    exact ⟨r, by omega, hjr, hr⟩
  · -- nothing was taken, so the cursor is still at the token where the statement began
    have hri : r = i := by omega
    have hsame : recover d.current d.rest = c := Cursor.row_injective (by rw [hr, hri, hc])
    have hnext : c.beyond (recover d.current d.rest) = c.next := by
      rw [hsame, Cursor.beyond, if_pos rfl]
    obtain ⟨j', -, hj'⟩ := hc.of_suffix c.suffix_next
    have hlt := (Cursor.Within.refl (hls.of_suffix hc.suffix)).bound_next htoken
    have hadd'' := hj'.bound_add
    exact ⟨j', by omega, by omega, hnext ▸ hj'⟩

end

-- ---------------------------------------------------------------------------
-- All statements
-- ---------------------------------------------------------------------------

/-- The statements of `p` are read one behind another from the token of number
`i` on, and take up every token but the end mark: the statement of number `k`
those from `start k` up to `start (k + 1)`. -/
structure Accounts (ls : List Lexeme) (i : Nat) (p : Program) (start : Nat → Nat) : Prop where
  first : start 0 = i
  last : start p.length + 1 = ls.length
  each : ∀ k (hk : k < p.length), start k < start (k + 1) ∧
    ∃ c c' : Cursor, c.At ls (start k) ∧ c'.At ls (start (k + 1)) ∧
      Parser.stmt c = .ok p[k] c'

theorem Accounts.nil {ls : List Lexeme} {i : Nat} (h : i + 1 = ls.length) :
    Accounts ls i [] fun _ => i :=
  ⟨rfl, h, by simp⟩

theorem Accounts.cons {ls : List Lexeme} {i j : Nat} {c c' : Cursor} {s : Stmt} {p : Program}
    {start : Nat → Nat} (hij : i < j) (hc : c.At ls i) (hc' : c'.At ls j)
    (hs : Parser.stmt c = .ok s c') (hp : Accounts ls j p start) :
    Accounts ls i (s :: p) fun k => if k = 0 then i else start (k - 1) := by
  refine ⟨rfl, hp.last, fun k hk => ?_⟩
  cases k with
  | zero =>
    simp only [if_true, Nat.zero_add, Nat.one_ne_zero, if_false, Nat.sub_self, hp.first]
    exact ⟨hij, c, c', hc, hc', hs⟩
  | succ k =>
    exact hp.each k (Nat.lt_of_succ_lt_succ hk)

theorem statements_at {ls : List Lexeme} (hls : Closed ls) (n : Nat) (i : Nat) (c : Cursor)
    (hc : c.At ls i) (hn : c.bound ≤ n) :
    (∃ found : List Nat, found.Pairwise (· ≤ ·) ∧ (∀ k ∈ found, i ≤ k) ∧
      List.Forall₂ (fun d k => Diagnostic.At d ls k) (statements n c).2 found) ∧
    ((statements n c).2 = [] → (∀ s ∈ (statements n c).1, s.Writable) ∧
      ∃ start, Accounts ls i (statements n c).1 start) := by
  induction n generalizing i c with
  | zero => exact absurd hn c.not_bound_le_zero
  | succ n ih =>
    have hadd := hc.bound_add
    rw [statements]
    split
    · next heof =>
      have hlast : c.rest = [] := by
        rcases closed_cons.1 (hls.of_suffix hc.suffix) with ⟨hnil, -⟩ | ⟨hne, -⟩
        · exact hnil
        · exact absurd heof hne
      have hone : c.bound = 1 := by rw [Cursor.bound, hlast]; rfl
      refine ⟨⟨[], List.Pairwise.nil, by simp, .nil⟩, fun _ => ⟨by simp, _, .nil (?_ : i + 1 = _)⟩⟩
      omega
    · next htoken =>
      have hstmt := stmt_at hls hc
      cases hrun : Parser.stmt c with
      | ok s c' =>
        rw [hrun] at hstmt
        obtain ⟨hs, j, hij, hj⟩ := hstmt
        have hadd' := hj.bound_add
        have hbeyond : c.beyond c' = c' := beyond_of_lt (by omega)
        obtain ⟨⟨found, hsorted, hle, hfound⟩, hok⟩ := ih j c' hj (by omega)
        simp only [hbeyond]
        refine ⟨⟨found, hsorted, fun k hk => ?_, hfound⟩, fun hnil => ?_⟩
        · exact Nat.le_trans (Nat.le_of_lt hij) (hle k hk)
        · obtain ⟨hall, start, hstart⟩ := hok hnil
          exact ⟨List.forall_mem_cons.2 ⟨hs, hall⟩, _, hstart.cons hij hc hj hrun⟩
      | error d c' =>
        rw [hrun] at hstmt
        obtain ⟨k, j, hik, hkj, hd, hj⟩ := hstmt
        obtain ⟨j', hij', hjj', hj'⟩ := skipped_at hls hc htoken (by omega) hj
        have hadd' := hj'.bound_add
        obtain ⟨⟨found, hsorted, hle, hfound⟩, -⟩ := ih j' _ hj' (by omega)
        refine ⟨⟨k :: found, ?_, ?_, .cons hd hfound⟩, by simp⟩
        · exact List.pairwise_cons.2 ⟨fun a ha => by have := hle a ha; omega, hsorted⟩
        · exact List.forall_mem_cons.2 ⟨hik, fun a ha => by have := hle a ha; omega⟩

/-- The rows that sources give. -/
theorem closed_of_tokenize {source : String} {ts : List Lexeme}
    (h : tokenize source = .tokens ts) : Closed ts := by
  obtain ⟨hclean, rfl⟩ := tokenize_eq_tokens h
  obtain ⟨tiles, tail, htiled, -, hmap⟩ := tiled_pieces source.toList [] hclean
  refine ⟨tiles.map Tile.lexeme, _, by rw [hmap]; rfl, ?_⟩
  rw [List.forall_mem_map]
  exact htiled.token_ne_eof

theorem parse_eq {ls : List Lexeme} (hls : Closed ls) :
    ∃ c : Cursor, c.At ls 0 ∧ parse ls = match statements c.bound c with
      | (p, []) => .ok p
      | (_, ds) => .error ds := by
  cases ls with
  | nil =>
    obtain ⟨body, place, hnil, -⟩ := hls
    simp at hnil
  | cons l ls => exact ⟨⟨l, ls⟩, rfl, rfl⟩

theorem writable_of_parse {ls : List Lexeme} {p : Program} (hls : Closed ls)
    (hp : parse ls = .ok p) : ∀ s ∈ p, s.Writable := by
  obtain ⟨c, hc, hparse⟩ := parse_eq hls
  obtain ⟨-, hok⟩ := statements_at hls c.bound 0 c hc (Nat.le_refl _)
  rw [hparse] at hp
  cases hrun : statements c.bound c with
  | mk ss ds =>
    rw [hrun] at hp hok
    cases ds with
    | nil =>
      cases hp
      exact (hok rfl).1
    | cons d ds => cases hp

/-- **The reader goes through all tokens and never leaves them.** Let a row end
with its only end mark, as the row of every source does. Then a statement that
begins at a token of the row ends behind it, and where it fails both the problem
and the cursor lie at tokens of the row. The row as a whole is a program, whose
statements take up all tokens but the end mark, one behind another and none
without a token; or it has problems, at least one, each at a token of the row,
and none at an earlier token than the one before. In neither case do steps run
out. -/
theorem parse_accounts :
    (∀ source ts, tokenize source = .tokens ts → Closed ts) ∧
    ∀ ls, Closed ls →
      (∀ (c : Cursor) i, c.At ls i →
        match Parser.stmt c with
        | .ok _ c' => ∃ j, i < j ∧ c'.At ls j
        | .error d c' => ∃ k j, i ≤ k ∧ k ≤ j ∧ d.At ls k ∧ c'.At ls j) ∧
      ((∃ p start, parse ls = .ok p ∧ Accounts ls 0 p start) ∨
        ∃ ds found, parse ls = .error ds ∧ ds ≠ [] ∧ found.Pairwise (· ≤ ·) ∧
          List.Forall₂ (fun d k => Diagnostic.At d ls k) ds found) := by
  refine ⟨fun _ _ => closed_of_tokenize, fun ls hls => ⟨fun c i hc => ?_, ?_⟩⟩
  · have hstmt := stmt_at hls hc
    split at hstmt
    · exact hstmt.2
    · exact hstmt
  · obtain ⟨c, hc, hparse⟩ := parse_eq hls
    obtain ⟨⟨found, hsorted, -, hfound⟩, hok⟩ := statements_at hls c.bound 0 c hc (Nat.le_refl _)
    rw [hparse]
    cases hrun : statements c.bound c with
    | mk ss ds =>
      rw [hrun] at hok hfound
      cases ds with
      | nil =>
        obtain ⟨-, start, hstart⟩ := hok rfl
        exact Or.inl ⟨ss, start, rfl, hstart⟩
      | cons d ds => exact Or.inr ⟨d :: ds, found, rfl, List.cons_ne_nil _ _, hsorted, hfound⟩

/-- Two braces that close nothing are two problems, the second of them found
although the first one takes no token. -/
theorem parse_accounts_stray :
    let ls : List Lexeme :=
      [⟨.sign .rbrace, ⟨1, 1⟩⟩, ⟨.sign .rbrace, ⟨1, 2⟩⟩, ⟨.eof, ⟨1, 3⟩⟩]
    Closed ls ∧ ∃ ds found, parse ls = .error ds ∧ ds.length = 2 ∧
      found.Pairwise (· ≤ ·) ∧ List.Forall₂ (fun d k => Diagnostic.At d ls k) ds found := by
  intro ls
  have hls : Closed ls :=
    ⟨[⟨.sign .rbrace, ⟨1, 1⟩⟩, ⟨.sign .rbrace, ⟨1, 2⟩⟩], ⟨1, 3⟩, rfl, by decide⟩
  have hparse : parse ls = .error
      [⟨⟨1, 1⟩, .unexpected "expression" (.sign .rbrace)⟩,
        ⟨⟨1, 2⟩, .unexpected "expression" (.sign .rbrace)⟩] := rfl
  refine ⟨hls, ?_⟩
  rcases (parse_accounts.2 ls hls).2 with ⟨p, start, hok, -⟩ | ⟨ds, found, herror, -, hfound⟩
  · rw [hparse] at hok
    cases hok
  · have hds := hparse.symm.trans herror
    exact ⟨ds, found, herror, by cases hds; rfl, hfound⟩

end SeqScript
