import SeqScript.Binary64.Text
import SeqScript.Place
import SeqScript.Text.Quoted

/-!
# Tokens

The words of the language: literals with what they denote, names, keywords, the
words for types, operators and punctuation, and the mark that ends a source.
`Token.label` is the name a token has in messages.
-/

namespace SeqScript

-- ---------------------------------------------------------------------------
-- Words and signs
-- ---------------------------------------------------------------------------

/-- The reserved words. -/
inductive Keyword where
  | letK | funcK | ifK | elseK | whileK | matchK | caseK | returnK | andK | orK | notK
  deriving Repr, DecidableEq

/-- The words for types. They open a cast as well. -/
inductive TypeWord where
  | int | float | bool | string | array | list
  deriving Repr, DecidableEq

/-- Operators and punctuation. -/
inductive Sign where
  | plus | minus | star | slash | percent
  | plusEq | minusEq | starEq | slashEq
  | eq | eqEq | bangEq | lt | ltEq | gt | gtEq
  | arrow | fatArrow | underscore
  | colon | comma | semicolon | dot
  | lparen | rparen | lbrace | rbrace | lbracket | rbracket
  deriving Repr, DecidableEq

/-- A token without its place. -/
inductive Token where
  | int (n : Int64)
  | float (x : Binary64)
  | bool (b : Bool)
  | ident (name : String)
  | str (s : String)
  | keyword (k : Keyword)
  | typeWord (t : TypeWord)
  | sign (s : Sign)
  | eof
  deriving DecidableEq

/-- A token where it stands. -/
structure Lexeme where
  token : Token
  place : Place
  deriving DecidableEq

-- ---------------------------------------------------------------------------
-- Names in messages
-- ---------------------------------------------------------------------------

def Keyword.label : Keyword → String
  | .letK => "Let" | .funcK => "Func" | .ifK => "If" | .elseK => "Else" | .whileK => "While"
  | .matchK => "Match" | .caseK => "Case" | .returnK => "Return" | .andK => "And" | .orK => "Or"
  | .notK => "Not"

def TypeWord.label : TypeWord → String
  | .int => "TInt" | .float => "TFloat" | .bool => "TBool" | .string => "TString"
  | .array => "TArray" | .list => "TList"

def Sign.label : Sign → String
  | .plus => "Plus" | .minus => "Minus" | .star => "Star" | .slash => "Slash"
  | .percent => "Percent" | .plusEq => "PlusEq" | .minusEq => "MinusEq" | .starEq => "StarEq"
  | .slashEq => "SlashEq" | .eq => "Eq" | .eqEq => "EqEq" | .bangEq => "BangEq" | .lt => "Lt"
  | .ltEq => "LtEq" | .gt => "Gt" | .gtEq => "GtEq" | .arrow => "Arrow" | .fatArrow => "FatArrow"
  | .underscore => "Underscore" | .colon => "Colon" | .comma => "Comma"
  | .semicolon => "Semicolon" | .dot => "Dot" | .lparen => "LParen" | .rparen => "RParen"
  | .lbrace => "LBrace" | .rbrace => "RBrace" | .lbracket => "LBracket" | .rbracket => "RBracket"

/-- The name of a token in messages; literals and names show what they hold. -/
def Token.label : Token → String
  | .int n => "Int(" ++ Text.intText n.toInt ++ ")"
  | .float x => "Float(" ++ Binary64.text x ++ ")"
  | .bool b => "Bool(" ++ Text.boolText b ++ ")"
  | .ident name => "Ident(" ++ Text.quoted name ++ ")"
  | .str s => "StringLit(" ++ Text.quoted s ++ ")"
  | .keyword k => k.label
  | .typeWord t => t.label
  | .sign s => s.label
  | .eof => "Eof"

-- ---------------------------------------------------------------------------
-- Classes
-- ---------------------------------------------------------------------------

namespace Token

def isLiteral : Token → Bool
  | .int _ | .float _ | .bool _ | .str _ => true
  | _ => false

def isArithmetic : Token → Bool
  | .sign .plus | .sign .minus | .sign .star | .sign .slash | .sign .percent => true
  | _ => false

def isComparison : Token → Bool
  | .sign .eqEq | .sign .bangEq | .sign .lt | .sign .ltEq | .sign .gt | .sign .gtEq => true
  | _ => false

/-- The signs that write to a variable. -/
def isAssignment : Token → Bool
  | .sign .eq | .sign .plusEq | .sign .minusEq | .sign .starEq | .sign .slashEq => true
  | _ => false

def isTypeWord : Token → Bool
  | .typeWord _ => true
  | _ => false

def isKeyword : Token → Bool
  | .keyword _ => true
  | _ => false

def isIdent : Token → Bool
  | .ident _ => true
  | _ => false

end Token

end SeqScript
