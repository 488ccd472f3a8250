import SeqScript.Proofs.Reading
import SeqScript.Proofs.Signs

/-!
# Programs written out as tokens

`Stmt.tokens` writes a statement, `Expr.tokens` an expression. Parentheses stand
only where they must: around an expression that binds less tightly than its
position asks for (`Expr.tokensAt`). From the loosest to the tightest the levels are

| 0 | lambda |
| 1, 2 | `or`, `and` |
| 3, 4 | equality, comparison |
| 5, 6 | addition, multiplication |
| 7, 8 | unary operators, indexing and dotted operations |
| 9 | everything else |

A binary operator asks for its own level on the left and for the next one on the
right, which is what grouping to the left means. Wherever an expression stands
alone or between signs that delimit it, level 0 will do.

Tokens have no places, so a program can be had back from them only up to its
places. `erase` takes these away.
-/

namespace SeqScript

-- ---------------------------------------------------------------------------
-- Operators, types, patterns
-- ---------------------------------------------------------------------------

namespace BinaryOp

def level : BinaryOp → Nat
  | or => 1
  | and => 2
  | eq | ne => 3
  | lt | le | gt | ge => 4
  | add | sub => 5
  | mul | div | mod => 6

def token : BinaryOp → Token
  | or => .keyword .orK
  | and => .keyword .andK
  | eq => .sign .eqEq
  | ne => .sign .bangEq
  | lt => .sign .lt
  | le => .sign .ltEq
  | gt => .sign .gt
  | ge => .sign .gtEq
  | add => .sign .plus
  | sub => .sign .minus
  | mul => .sign .star
  | div => .sign .slash
  | mod => .sign .percent

end BinaryOp

def UnaryOp.token : UnaryOp → Token
  | .negate => .sign .minus
  | .not => .keyword .notK

def AssignOp.token : AssignOp → Token
  | .set => .sign .eq
  | .add => .sign .plusEq
  | .sub => .sign .minusEq
  | .mul => .sign .starEq
  | .div => .sign .slashEq

/-- A type as tokens. -/
def Ty.tokens : Ty → List Token
  | .int => [.typeWord .int]
  | .float => [.typeWord .float]
  | .bool => [.typeWord .bool]
  | .string => [.typeWord .string]
  | .func => [.keyword .funcK]
  | .array t => .typeWord .array :: .sign .lt :: t.tokens ++ [.sign .gt]
  | .list t => .typeWord .list :: .sign .lt :: t.tokens ++ [.sign .gt]

def Literal.token : Literal → Token
  | .int n => .int n
  | .float x => .float x
  | .bool b => .bool b
  | .str s => .str s

/-- Whether the sign of a number is minus. -/
def Binary64.isNegative (x : Binary64) : Bool := decide (0x8000000000000000 ≤ x.bits)

namespace Literal

/-- Whether a literal is written with a sign, which only a pattern can have. -/
def isNegative : Literal → Bool
  | int n => n < 0
  | float x => x.isNegative
  | _ => false

/-- A number with the other sign. -/
def negated : Literal → Literal
  | int n => int (-n)
  | float x => float (-x)
  | v => v

/-- Negating twice gives the literal back, also for the least integer. -/
theorem negated_negated (v : Literal) : v.negated.negated = v := by
  cases v with
  | int n => exact congrArg int Int64.neg_neg
  | float x => exact congrArg float (Binary64.neg_neg x)
  | bool | str => rfl

/-- A literal in a pattern: a negative number is a minus sign and its magnitude. -/
def tokens (v : Literal) : List Token :=
  if v.isNegative then [.sign .minus, v.negated.token] else [v.token]

end Literal

/-- Rows of tokens with commas between them. -/
def commas : List (List Token) → List Token
  | [] => []
  | [ts] => ts
  | ts :: us :: rest => ts ++ .sign .comma :: commas (us :: rest)

namespace Pattern

mutual

def tokens : Pattern → List Token
  | literal v => v.tokens
  | wildcard => [.sign .underscore]
  | bind name => [.ident name]
  | items ps => .sign .lbracket :: commas (tokensAll ps) ++ [.sign .rbracket]

def tokensAll : List Pattern → List (List Token)
  | [] => []
  | p :: ps => p.tokens :: tokensAll ps

end

theorem tokensAll_eq_map (ps : List Pattern) : tokensAll ps = ps.map tokens := by
  induction ps with
  | nil => rfl
  | cons p ps ih => rw [tokensAll, ih, List.map_cons]

end Pattern

-- ---------------------------------------------------------------------------
-- Expressions
-- ---------------------------------------------------------------------------

namespace Expr

/-- How tightly an expression binds. -/
def level : Expr → Nat
  | lambda .. => 0
  | binary op _ _ _ => op.level
  | unary .. => 7
  | index .. | collection .. => 8
  | literal .. | ident .. | cast .. | call .. | items .. => 9

/-- Puts the tokens of an expression in parentheses if it binds less tightly than
level `n`. -/
def enclose (n : Nat) (e : Expr) (ts : List Token) : List Token :=
  if e.level < n then .sign .lparen :: ts ++ [.sign .rparen] else ts

mutual

def tokens : Expr → List Token
  | literal v _ => [v.token]
  | ident name _ => [.ident name]
  | binary op l r _ => enclose op.level l l.tokens ++ op.token :: enclose (op.level + 1) r r.tokens
  | unary op e _ => op.token :: enclose 7 e e.tokens
  | cast t e _ => t.tokens ++ .sign .lparen :: e.tokens ++ [.sign .rparen]
  | call name args _ =>
    .ident name :: .sign .lparen :: commas (tokensAll args) ++ [.sign .rparen]
  | index e i _ => enclose 8 e e.tokens ++ .sign .lbracket :: i.tokens ++ [.sign .rbracket]
  | collection op e args named _ =>
    enclose 8 e e.tokens ++ .sign .dot :: .ident op.name :: .sign .lparen ::
      commas (tokensAll args ++ tokensNamed named) ++ [.sign .rparen]
  | items es _ => .sign .lbracket :: commas (tokensAll es) ++ [.sign .rbracket]
  | lambda x e _ => .ident x :: .sign .fatArrow :: e.tokens

def tokensAll : List Expr → List (List Token)
  | [] => []
  | e :: es => e.tokens :: tokensAll es

/-- Named arguments, each with its label. -/
def tokensNamed : List (String × Expr) → List (List Token)
  | [] => []
  | (name, e) :: rest => (.ident name :: .sign .colon :: e.tokens) :: tokensNamed rest

end

/-- An expression written where one of level `n` is asked for. -/
def tokensAt (n : Nat) (e : Expr) : List Token := enclose n e e.tokens

theorem tokensAll_eq_map (es : List Expr) : tokensAll es = es.map tokens := by
  induction es with
  | nil => rfl
  | cons e es ih => rw [tokensAll, ih, List.map_cons]

/-- An argument with a name. -/
def namedTokens (a : String × Expr) : List Token := .ident a.1 :: .sign .colon :: a.2.tokens

theorem tokensNamed_eq_map (named : List (String × Expr)) :
    tokensNamed named = named.map namedTokens := by
  induction named with
  | nil => rfl
  | cons a named ih => rw [tokensNamed, ih, List.map_cons, namedTokens]

mutual

/-- An expression without its places. -/
def erase : Expr → Expr
  | literal v _ => literal v .start
  | ident name _ => ident name .start
  | binary op l r _ => binary op l.erase r.erase .start
  | unary op e _ => unary op e.erase .start
  | cast t e _ => cast t e.erase .start
  | call name args _ => call name (eraseAll args) .start
  | index e i _ => index e.erase i.erase .start
  | collection op e args named _ =>
    collection op e.erase (eraseAll args) (eraseNamed named) .start
  | items es _ => items (eraseAll es) .start
  | lambda x e _ => lambda x e.erase .start

def eraseAll : List Expr → List Expr
  | [] => []
  | e :: es => e.erase :: eraseAll es

def eraseNamed : List (String × Expr) → List (String × Expr)
  | [] => []
  | (name, e) :: rest => (name, e.erase) :: eraseNamed rest

end

theorem eraseAll_eq_map (es : List Expr) : eraseAll es = es.map erase := by
  induction es with
  | nil => rfl
  | cons e es ih => rw [eraseAll, ih, List.map_cons]

end Expr

-- ---------------------------------------------------------------------------
-- Statements
-- ---------------------------------------------------------------------------

/-- Something behind a token, or nothing at all. -/
def optional {α : Type} (t : Token) (tokens : α → List Token) : Option α → List Token
  | none => []
  | some a => t :: tokens a

/-- A parameter with its type and default, if it has them. -/
def Param.tokens (q : Param) : List Token :=
  .ident q.name :: .sign .colon :: q.ty.tokens ++ optional (.sign .eq) Expr.tokens q.default

/-- A parameter without the places in its default. -/
def Param.erase (q : Param) : Param :=
  { q with default := q.default.map Expr.erase, place := .start }

namespace Stmt

/-- Whether a statement can stand behind `else` without braces. -/
def isBranch : Stmt → Bool
  | branch .. => true
  | _ => false

mutual

def tokens : Stmt → List Token
  | declare name t value _ =>
    .keyword .letK :: .ident name :: optional (.sign .colon) Ty.tokens t ++
      optional (.sign .eq) Expr.tokens value ++ [.sign .semicolon]
  | assign name op e _ => .ident name :: op.token :: e.tokens ++ [.sign .semicolon]
  | assignIndex name i op e _ =>
    .ident name :: .sign .lbracket :: i.tokens ++ .sign .rbracket :: op.token :: e.tokens ++
      [.sign .semicolon]
  | func name params result body _ =>
    .keyword .funcK :: .ident name :: .sign .lparen :: commas (params.map Param.tokens) ++
      .sign .rparen :: optional (.sign .arrow) Ty.tokens result ++
      .sign .lbrace :: tokensAll body ++ [.sign .rbrace]
  | branch e onTrue none _ =>
    .keyword .ifK :: e.tokens ++ .sign .lbrace :: tokensAll onTrue ++ [.sign .rbrace]
  | branch e onTrue (some onFalse) _ =>
    .keyword .ifK :: e.tokens ++ .sign .lbrace :: tokensAll onTrue ++
      .sign .rbrace :: .keyword .elseK :: tokensElse onFalse
  | loop e body _ =>
    .keyword .whileK :: e.tokens ++ .sign .lbrace :: tokensAll body ++ [.sign .rbrace]
  | select e cases _ =>
    .keyword .matchK :: e.tokens ++ .sign .lbrace :: tokensCases cases ++ [.sign .rbrace]
  | ret none _ => [.keyword .returnK, .sign .semicolon]
  | ret (some e) _ => .keyword .returnK :: e.tokens ++ [.sign .semicolon]
  | block body _ => .sign .lbrace :: tokensAll body ++ [.sign .rbrace]
  | expr e => e.tokens ++ [.sign .semicolon]

def tokensAll : List Stmt → List Token
  | [] => []
  | s :: ss => s.tokens ++ tokensAll ss

/-- What stands behind `else`: a single `if` without braces, anything else in
braces. -/
def tokensElse : List Stmt → List Token
  | [] => [.sign .lbrace, .sign .rbrace]
  | s :: ss =>
    if ss.isEmpty && s.isBranch then s.tokens
    else .sign .lbrace :: (s.tokens ++ tokensAll ss) ++ [.sign .rbrace]

/-- The cases of a `match`, one after the other. -/
def tokensCases : List MatchCase → List Token
  | [] => []
  | .mk p s _ :: rest =>
    .keyword .caseK :: p.tokens ++ .sign .fatArrow :: s.tokens ++ tokensCases rest

end

mutual

/-- A statement without its places. -/
def erase : Stmt → Stmt
  | declare name t value _ => declare name t (value.map Expr.erase) .start
  | assign name op e _ => assign name op e.erase .start
  | assignIndex name i op e _ => assignIndex name i.erase op e.erase .start
  | func name params result body _ =>
    func name (params.map Param.erase) result (eraseAll body) .start
  | branch e onTrue none _ => branch e.erase (eraseAll onTrue) none .start
  | branch e onTrue (some onFalse) _ =>
    branch e.erase (eraseAll onTrue) (some (eraseAll onFalse)) .start
  | loop e body _ => loop e.erase (eraseAll body) .start
  | select e cases _ => select e.erase (eraseCases cases) .start
  | ret value _ => ret (value.map Expr.erase) .start
  | block body _ => block (eraseAll body) .start
  | expr e => expr e.erase

def eraseAll : List Stmt → List Stmt
  | [] => []
  | s :: ss => s.erase :: eraseAll ss

def eraseCases : List MatchCase → List MatchCase
  | [] => []
  | .mk p s _ :: rest => .mk p s.erase .start :: eraseCases rest

end

/-- The tokens of a body are those of its statements, one after the other. -/
theorem tokensAll_eq_flatMap (ss : List Stmt) : tokensAll ss = ss.flatMap tokens := by
  induction ss with
  | nil => rfl
  | cons s ss ih => rw [tokensAll, ih, List.flatMap_cons]

theorem eraseAll_eq_map (ss : List Stmt) : eraseAll ss = ss.map erase := by
  induction ss with
  | nil => rfl
  | cons s ss ih => rw [eraseAll, ih, List.map_cons]

end Stmt

namespace MatchCase

def tokens (k : MatchCase) : List Token :=
  .keyword .caseK :: k.pattern.tokens ++ .sign .fatArrow :: k.body.tokens

def erase (k : MatchCase) : MatchCase := mk k.pattern k.body.erase .start

end MatchCase

theorem Stmt.tokensCases_eq_flatMap (cases : List MatchCase) :
    tokensCases cases = cases.flatMap MatchCase.tokens := by
  induction cases with
  | nil => rfl
  | cons k cases ih =>
    cases k
    rw [tokensCases, ih, List.flatMap_cons]
    rfl

theorem Stmt.eraseCases_eq_map (cases : List MatchCase) :
    eraseCases cases = cases.map MatchCase.erase := by
  induction cases with
  | nil => rfl
  | cons k cases ih =>
    cases k
    rw [eraseCases, ih, List.map_cons]
    rfl

namespace Program

/-- A program written out, without the end mark. -/
def tokens (p : Program) : List Token := p.flatMap Stmt.tokens

/-- A program without its places. -/
def erase (p : Program) : Program := p.map Stmt.erase

end Program

end SeqScript
