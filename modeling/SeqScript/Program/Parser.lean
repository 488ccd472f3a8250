import SeqScript.Program.Basic
import SeqScript.Token.Lexer

/-!
# From tokens to programs

Reading by descent, one function for each part of the grammar. Binary operators
stand on six levels, all grouping to the left; from the loosest to the tightest
they are `or`, `and`, equality, comparison, addition, multiplication. Tighter
still are the two unary operators, then indexing and dotted operations.

A cursor moves over the tokens and never leaves the last one, which is the end
mark. A failing function leaves the cursor where it noticed the problem.
`statements` then looks for the next token that may begin a statement and goes
on from there, so that one damaged statement does not hide the problems of the
next.

Functions that nest take a bound on the nesting, and functions that repeat a
bound on the repetitions. Each use gives them the number of tokens that are
left, which is enough as every step takes at least one; a bound that is used up
would be a problem of its own.
-/

namespace SeqScript

-- ---------------------------------------------------------------------------
-- Cursor
-- ---------------------------------------------------------------------------

/-- A position in a row of tokens: the token at hand and those behind it. -/
structure Cursor where
  current : Lexeme
  rest : List Lexeme

namespace Cursor

/-- One token further; the last token is never left. -/
def next (c : Cursor) : Cursor :=
  match c.rest with
  | [] => c
  | t :: ts => ⟨t, ts⟩

/-- The token behind the one at hand. -/
def following? (c : Cursor) : Option Token := c.rest.head?.map Lexeme.token

/-- Enough steps for anything that takes a token at each. -/
def bound (c : Cursor) : Nat := c.rest.length + 1

end Cursor

/-- Reads something at a cursor and moves it, or says what is wrong. -/
abbrev Parser := EStateM Diagnostic Cursor

namespace Parser

-- ---------------------------------------------------------------------------
-- Single tokens
-- ---------------------------------------------------------------------------

def peek : Parser Token := return (← get).current.token

def here : Parser Place := return (← get).current.place

/-- Takes the token at hand. -/
def advance : Parser Lexeme := do
  let c ← get
  set c.next
  return c.current

/-- Fails at a given place. -/
def failAt {α : Type} (place : Place) (problem : Problem) : Parser α := throw ⟨place, problem⟩

/-- Fails at the token at hand, for want of something named in words. -/
def unexpected {α : Type} (wanted : String) : Parser α := do
  failAt (← here) (.unexpected wanted (← peek))

/-- Fails for want of further steps. -/
def exhausted {α : Type} : Parser α := do failAt (← here) .exhausted

def check (t : Token) : Parser Bool := return (← peek) = t

def atEnd : Parser Bool := check .eof

/-- Whether the token behind the one at hand is `t`. -/
def checkFollowing (t : Token) : Parser Bool := return (← get).following? = some t

/-- Takes the token at hand if it is `t`. -/
def accept (t : Token) : Parser Bool := do
  if ← check t then
    let _ ← advance
    return true
  else return false

/-- Takes the token `t` and nothing else. -/
def expect (t : Token) : Parser Unit := do
  if ← check t then
    let _ ← advance
  else failAt (← here) (.expected t (← peek))

/-- Takes a name. -/
def ident : Parser String := do
  let l ← advance
  match l.token with
  | .ident name => return name
  | _ => failAt l.place (.misplaced "expected identifier")

-- ---------------------------------------------------------------------------
-- Types
-- ---------------------------------------------------------------------------

def tyAt : Nat → Parser Ty
  | 0 => exhausted
  | n + 1 => do
    let l ← advance
    match l.token with
    | .typeWord .int => return .int
    | .typeWord .float => return .float
    | .typeWord .bool => return .bool
    | .typeWord .string => return .string
    | .keyword .funcK => return .func
    | .typeWord .array => do
      expect (.sign .lt)
      let t ← tyAt n
      expect (.sign .gt)
      return .array t
    | .typeWord .list => do
      expect (.sign .lt)
      let t ← tyAt n
      expect (.sign .gt)
      return .list t
    | _ => failAt l.place (.misplaced "expected type")

/-- Reads a type. -/
def ty : Parser Ty := do tyAt (← get).bound

-- ---------------------------------------------------------------------------
-- Patterns
-- ---------------------------------------------------------------------------

/-- Items with commas between them, up to the token `close`, which is not taken.
A comma may stand before it. -/
def itemsAt {α : Type} (item : Parser α) (close : Token) : Nat → Parser (List α)
  | 0 => exhausted
  | n + 1 => do
    if (← check close) || (← atEnd) then return []
    let x ← item
    if ← accept (.sign .comma) then
      return x :: (← itemsAt item close n)
    else return [x]

def items {α : Type} (item : Parser α) (close : Token) : Parser (List α) := do
  itemsAt item close (← get).bound

/-- The number behind a minus sign in a pattern. -/
def negativeLiteral : Parser Pattern := do
  let l ← advance
  match l.token with
  | .int v => return .literal (.int (-v))
  | .float v => return .literal (.float (-v))
  | _ => failAt l.place (.misplaced "expected number after '-' in pattern")

def patternAt : Nat → Parser Pattern
  | 0 => exhausted
  | n + 1 => do
    let l ← advance
    match l.token with
    | .sign .underscore => return .wildcard
    | .ident name => return .bind name
    | .int v => return .literal (.int v)
    | .float v => return .literal (.float v)
    | .bool v => return .literal (.bool v)
    | .str s => return .literal (.str s)
    | .sign .minus => negativeLiteral
    | .sign .lbracket => do
      let ps ← items (patternAt n) (.sign .rbracket)
      expect (.sign .rbracket)
      return .items ps
    | _ => failAt l.place (.misplaced "expected pattern")

/-- Reads a pattern. -/
def pattern : Parser Pattern := do patternAt (← get).bound

-- ---------------------------------------------------------------------------
-- Binary operators
-- ---------------------------------------------------------------------------

def orOp? : Token → Option BinaryOp
  | .keyword .orK => some .or
  | _ => none

def andOp? : Token → Option BinaryOp
  | .keyword .andK => some .and
  | _ => none

def equalityOp? : Token → Option BinaryOp
  | .sign .eqEq => some .eq
  | .sign .bangEq => some .ne
  | _ => none

def comparisonOp? : Token → Option BinaryOp
  | .sign .lt => some .lt
  | .sign .ltEq => some .le
  | .sign .gt => some .gt
  | .sign .gtEq => some .ge
  | _ => none

def additiveOp? : Token → Option BinaryOp
  | .sign .plus => some .add
  | .sign .minus => some .sub
  | _ => none

def multiplicativeOp? : Token → Option BinaryOp
  | .sign .star => some .mul
  | .sign .slash => some .div
  | .sign .percent => some .mod
  | _ => none

/-- Goes on with operators of one level behind a left operand. -/
def chainAt (op? : Token → Option BinaryOp) (operand : Parser Expr) : Nat → Expr → Parser Expr
  | 0, _ => exhausted
  | n + 1, left => do
    match op? (← peek) with
    | none => return left
    | some op => do
      let _ ← advance
      let right ← operand
      chainAt op? operand n (.binary op left right left.place)

/-- Operands with operators of one level between them. -/
def chain (op? : Token → Option BinaryOp) (operand : Parser Expr) : Parser Expr := do
  let left ← operand
  chainAt op? operand (← get).bound left

/-- A whole expression, given how its tightest operands are read. -/
def levels (unary : Parser Expr) : Parser Expr :=
  chain orOp? <| chain andOp? <| chain equalityOp? <| chain comparisonOp? <|
    chain additiveOp? <| chain multiplicativeOp? unary

-- ---------------------------------------------------------------------------
-- Primary expressions
-- ---------------------------------------------------------------------------

/-- Takes one token and gives a literal. -/
def literal (value : Literal) (place : Place) : Parser Expr := do
  let _ ← advance
  return .literal value place

/-- A cast, if the word for the type is followed by an open parenthesis. -/
def castExpr (expr : Parser Expr) (place : Place) : Parser Expr := do
  if ← checkFollowing (.sign .lparen) then
    let t ← ty
    expect (.sign .lparen)
    let e ← expr
    expect (.sign .rparen)
    return .cast t e place
  else unexpected "expression"

/-- What begins with a name: a lambda, a call or the name alone. -/
def named (expr : Parser Expr) (name : String) (place : Place) : Parser Expr := do
  let _ ← advance
  if ← accept (.sign .fatArrow) then
    let body ← expr
    return .lambda name body place
  else if ← accept (.sign .lparen) then
    let args ← items expr (.sign .rparen)
    expect (.sign .rparen)
    return .call name args place
  else return .ident name place

/-- The expressions that no operator is needed to build. -/
def primary (expr : Parser Expr) : Parser Expr := do
  let place ← here
  match ← peek with
  | .int v => literal (.int v) place
  | .float v => literal (.float v) place
  | .bool v => literal (.bool v) place
  | .str s => literal (.str s) place
  | .sign .lparen => do
    let _ ← advance
    let e ← expr
    expect (.sign .rparen)
    return e
  | .sign .lbracket => do
    let _ ← advance
    let es ← items expr (.sign .rbracket)
    expect (.sign .rbracket)
    return .items es place
  | .typeWord .int | .typeWord .float | .typeWord .bool | .typeWord .string => castExpr expr place
  | .ident name => named expr name place
  | _ => unexpected "expression"

-- ---------------------------------------------------------------------------
-- Operations behind an expression
-- ---------------------------------------------------------------------------

/-- Whether an argument with a name comes next: a name followed by `:` or `=`. -/
def atNamedArgument : Parser Bool := do
  let c ← get
  return c.current.token.isIdent &&
    (c.following? = some (.sign .colon) || c.following? = some (.sign .eq))

/-- Arguments without names, then arguments with names. `begun` says that one
with a name has been read. -/
def argumentsAt (expr : Parser Expr) :
    Nat → Bool → Parser (List Expr × List (String × Expr))
  | 0, _ => exhausted
  | n + 1, begun => do
    if (← check (.sign .rparen)) || (← atEnd) then return ([], [])
    if ← atNamedArgument then
      let name ← ident
      let _ ← advance
      let e ← expr
      if ← accept (.sign .comma) then
        let (args, others) ← argumentsAt expr n true
        return (args, (name, e) :: others)
      else return ([], [(name, e)])
    else if begun then unexpected "named argument"
    else
      let e ← expr
      if ← accept (.sign .comma) then
        let (args, others) ← argumentsAt expr n false
        return (e :: args, others)
      else return ([e], [])

/-- A dotted operation on `subject`, from behind the dot. -/
def operation (expr : Parser Expr) (subject : Expr) : Parser Expr := do
  let place ← here
  let name ← ident
  match CollectionOp.ofName? name with
  | none => failAt place (.unknownOperation name)
  | some op => do
    expect (.sign .lparen)
    let (args, others) ← argumentsAt expr (← get).bound false
    expect (.sign .rparen)
    return .collection op subject args others subject.place

/-- Goes on with indexing and dotted operations behind an expression. -/
def suffixesAt (expr : Parser Expr) : Nat → Expr → Parser Expr
  | 0, _ => exhausted
  | n + 1, subject => do
    match ← peek with
    | .sign .dot => do
      let _ ← advance
      let e ← operation expr subject
      suffixesAt expr n e
    | .sign .lbracket => do
      let _ ← advance
      let position ← expr
      expect (.sign .rbracket)
      suffixesAt expr n (.index subject position subject.place)
    | _ => return subject

def suffixed (expr : Parser Expr) : Parser Expr := do
  let subject ← primary expr
  suffixesAt expr (← get).bound subject

-- ---------------------------------------------------------------------------
-- Expressions
-- ---------------------------------------------------------------------------

def unaryAt : Nat → Parser Expr
  | 0 => exhausted
  | n + 1 => do
    let place ← here
    match ← peek with
    | .sign .minus => do
      let _ ← advance
      return .unary .negate (← unaryAt n) place
    | .keyword .notK => do
      let _ ← advance
      return .unary .not (← unaryAt n) place
    | _ => suffixed (levels (unaryAt n))

/-- Reads an expression. -/
def expr : Parser Expr := do levels (unaryAt (← get).bound)

-- ---------------------------------------------------------------------------
-- Statements
-- ---------------------------------------------------------------------------

/-- Things read one after another up to the token `close`, which is not taken. -/
def untilAt {α : Type} (item : Parser α) (close : Token) : Nat → Parser (List α)
  | 0 => exhausted
  | n + 1 => do
    if (← check close) || (← atEnd) then return []
    let x ← item
    return x :: (← untilAt item close n)

/-- Statements in braces. -/
def braced (stmt : Parser Stmt) : Parser (List Stmt) := do
  expect (.sign .lbrace)
  let body ← untilAt stmt (.sign .rbrace) (← get).bound
  expect (.sign .rbrace)
  return body

/-- Something that follows a token, or nothing if the token is not there. -/
def after {α : Type} (t : Token) (item : Parser α) : Parser (Option α) := do
  if ← accept t then return some (← item) else return none

def assignOp? : Token → Option AssignOp
  | .sign .eq => some .set
  | .sign .plusEq => some .add
  | .sign .minusEq => some .sub
  | .sign .starEq => some .mul
  | .sign .slashEq => some .div
  | _ => none

def assignOp : Parser AssignOp := do
  match assignOp? (← peek) with
  | some op => do
    let _ ← advance
    return op
  | none => unexpected "assignment operator"

def declare : Parser Stmt := do
  let place ← here
  expect (.keyword .letK)
  let name ← ident
  let t ← after (.sign .colon) ty
  let value ← after (.sign .eq) expr
  expect (.sign .semicolon)
  return .declare name t value place

def assign : Parser Stmt := do
  let place ← here
  let target ← ident
  let op ← assignOp
  let value ← expr
  expect (.sign .semicolon)
  return .assign target op value place

def assignIndex : Parser Stmt := do
  let place ← here
  let target ← ident
  expect (.sign .lbracket)
  let position ← expr
  expect (.sign .rbracket)
  let op ← assignOp
  let value ← expr
  expect (.sign .semicolon)
  return .assignIndex target position op value place

def param : Parser Param := do
  let place ← here
  let name ← ident
  expect (.sign .colon)
  let t ← ty
  let default ← after (.sign .eq) expr
  return { name, ty := t, default, place }

def func (stmt : Parser Stmt) : Parser Stmt := do
  let place ← here
  expect (.keyword .funcK)
  let name ← ident
  expect (.sign .lparen)
  let params ← items param (.sign .rparen)
  expect (.sign .rparen)
  let result ← after (.sign .arrow) ty
  let body ← braced stmt
  return .func name params result body place

def branch (stmt : Parser Stmt) : Parser Stmt := do
  let place ← here
  expect (.keyword .ifK)
  let condition ← expr
  let onTrue ← braced stmt
  if ← accept (.keyword .elseK) then
    if ← check (.keyword .ifK) then
      return .branch condition onTrue (some [← stmt]) place
    else
      return .branch condition onTrue (some (← braced stmt)) place
  else return .branch condition onTrue none place

def loop (stmt : Parser Stmt) : Parser Stmt := do
  let place ← here
  expect (.keyword .whileK)
  let condition ← expr
  let body ← braced stmt
  return .loop condition body place

def matchCase (stmt : Parser Stmt) : Parser MatchCase := do
  let place ← here
  expect (.keyword .caseK)
  let p ← pattern
  expect (.sign .fatArrow)
  let body ← stmt
  return .mk p body place

def select (stmt : Parser Stmt) : Parser Stmt := do
  let place ← here
  expect (.keyword .matchK)
  let subject ← expr
  expect (.sign .lbrace)
  let cases ← untilAt (matchCase stmt) (.sign .rbrace) (← get).bound
  expect (.sign .rbrace)
  return .select subject cases place

def ret : Parser Stmt := do
  let place ← here
  expect (.keyword .returnK)
  if ← check (.sign .semicolon) then
    expect (.sign .semicolon)
    return .ret none place
  else
    let e ← expr
    expect (.sign .semicolon)
    return .ret (some e) place

/-- Looks ahead over brackets: whether an assignment sign stands behind the
bracket that closes the first one. `depth` brackets are open. -/
def indexThenAssign : Nat → List Lexeme → Bool
  | _, [] => false
  | depth, l :: ls =>
    match l.token with
    | .sign .lbracket => indexThenAssign (depth + 1) ls
    | .sign .rbracket =>
      if depth ≤ 1 then ls.head?.any fun l => l.token.isAssignment
      else indexThenAssign (depth - 1) ls
    | .sign .semicolon | .eof => false
    | _ => indexThenAssign depth ls

/-- What a statement that begins with a name is. -/
inductive NameForm where
  | assign | assignIndex | other

/-- Tells an assignment to a variable or an element from an expression. -/
def Cursor.nameForm (c : Cursor) : NameForm :=
  match c.rest with
  | [] => .other
  | l :: ls =>
    if l.token.isAssignment then .assign
    else if l.token = .sign .lbracket && indexThenAssign 1 ls then .assignIndex
    else .other

def exprStmt : Parser Stmt := do
  let e ← expr
  expect (.sign .semicolon)
  return .expr e

def stmtAt : Nat → Parser Stmt
  | 0 => exhausted
  | n + 1 => do
    match ← peek with
    | .keyword .letK => declare
    | .keyword .funcK => func (stmtAt n)
    | .keyword .ifK => branch (stmtAt n)
    | .keyword .whileK => loop (stmtAt n)
    | .keyword .matchK => select (stmtAt n)
    | .keyword .returnK => ret
    | .sign .lbrace => do
      let place ← here
      let body ← braced (stmtAt n)
      return .block body place
    | .ident _ => do
      match Cursor.nameForm (← get) with
      | .assign => assign
      | .assignIndex => assignIndex
      | .other => exprStmt
    | _ => exprStmt

/-- Reads a statement. -/
def stmt : Parser Stmt := do stmtAt (← get).bound

end Parser

-- ---------------------------------------------------------------------------
-- Programs
-- ---------------------------------------------------------------------------

/-- Whether a token may begin a statement anew after a problem. -/
def Token.isFreshStart : Token → Bool
  | .eof | .keyword .letK | .keyword .funcK | .keyword .ifK | .keyword .whileK
  | .keyword .matchK | .keyword .returnK | .sign .rbrace => true
  | _ => false

/-- Skips to where reading can go on after a problem: behind the next semicolon,
or to a token that may begin a statement. -/
def recover (current : Lexeme) : List Lexeme → Cursor
  | [] => ⟨current, []⟩
  | l :: ls =>
    if current.token = .sign .semicolon then ⟨l, ls⟩
    else if current.token.isFreshStart then ⟨current, l :: ls⟩
    else recover l ls

/-- At least one token further than `before`. -/
def Cursor.beyond (before c : Cursor) : Cursor :=
  if c.rest.length = before.rest.length then c.next else c

/-- Statements up to the end mark, and the problems of those that failed. -/
def statements : Nat → Cursor → List Stmt × List Diagnostic
  | 0, c => ([], [⟨c.current.place, .exhausted⟩])
  | n + 1, c =>
    if c.current.token = .eof then ([], [])
    else
      match Parser.stmt c with
      | .ok s after =>
        let (ss, ds) := statements n (c.beyond after)
        (s :: ss, ds)
      | .error d after =>
        let (ss, ds) := statements n (c.beyond (recover after.current after.rest))
        (ss, d :: ds)

/-- Reads a program from its tokens, or gives the problems found in it. -/
def parse : List Lexeme → Except (List Diagnostic) Program
  | [] => .ok []
  | l :: ls =>
    match statements (ls.length + 1) ⟨l, ls⟩ with
    | (ss, []) => .ok ss
    | (_, ds) => .error ds

/-- Why a source is no program. -/
inductive CompileError where
  /-- The problems in order, at least one: of its characters, or else of its tokens. -/
  | diagnostics (ds : List Diagnostic)
  /-- It ends in the middle of an escape. -/
  | dangling

/-- Reads a program from its source. -/
def compile (source : String) : Except CompileError Program :=
  match tokenize source with
  | .dangling => .error .dangling
  | .problems ds => .error (.diagnostics ds)
  | .tokens ts =>
    match parse ts with
    | .ok p => .ok p
    | .error ds => .error (.diagnostics ds)

end SeqScript
