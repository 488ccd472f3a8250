import SeqScript.Token.Basic

/-!
# Diagnostics

What can be wrong with a source text. A problem is a cause; its code and its
wording are functions of the cause, and a diagnostic puts it at a place. Codes
beginning with `L` belong to the characters of a source, codes beginning with
`P` to the order of its tokens. `P000` says that the reader of tokens gave up
for want of steps, which it never does on the tokens of a source.
-/

namespace SeqScript

/-- What is wrong at some place of a source. -/
inductive Problem where
  /-- A `!` that is not part of `!=`. -/
  | bareBang
  /-- A byte that no token begins with. -/
  | unexpectedByte (byte : UInt8)
  /-- A string literal that its line or the source ends before its closing quote. -/
  | unterminatedString
  /-- A backslash before a character that has no escape; the byte begins that character. -/
  | unknownEscape (byte : UInt8)
  /-- An integer literal beyond the greatest integer. -/
  | integerTooLarge (digits : String)
  /-- Something of a kind named in words was wanted. -/
  | unexpected (wanted : String) (found : Token)
  /-- A token that has no place here, with what should stand in its place. -/
  | misplaced (advice : String)
  /-- One particular token was wanted. -/
  | expected (wanted found : Token)
  /-- A name after a dot that is no collection operation. -/
  | unknownOperation (name : String)
  /-- The bound on nesting or repetition is used up. -/
  | exhausted
  deriving DecidableEq

/-- The character a byte stands for on its own. -/
def byteChar (b : UInt8) : String := String.singleton (Char.ofNat b.toNat)

namespace Problem

def code : Problem → String
  | bareBang | unexpectedByte _ => "L001"
  | unterminatedString => "L002"
  | unknownEscape _ => "L003"
  | integerTooLarge _ => "L004"
  | unexpected .. | misplaced _ => "P001"
  | expected .. => "P002"
  | unknownOperation _ => "P003"
  | exhausted => "P000"

def message : Problem → String
  | bareBang => "expected `!=`, bare `!` is not valid (use `not`)"
  | unexpectedByte b => "unexpected character `" ++ byteChar b ++ "`"
  | unterminatedString => "unterminated string literal"
  | unknownEscape b => "unknown escape sequence `\\" ++ byteChar b ++ "`"
  | integerTooLarge digits => "integer literal `" ++ digits ++ "` does not fit in 64 bits"
  | unexpected wanted found => "expected " ++ wanted ++ ", found " ++ found.label
  | misplaced advice => advice
  | expected wanted found => "expected " ++ wanted.label ++ ", found " ++ found.label
  | unknownOperation name => "unknown collection operation '" ++ name ++ "'"
  | exhausted => "too many steps"

end Problem

/-- A problem where it was found. -/
structure Diagnostic where
  place : Place
  problem : Problem
  deriving DecidableEq

/-- A diagnostic on one line. -/
def Diagnostic.text (d : Diagnostic) : String :=
  "[" ++ d.problem.code ++ "] " ++ toString d.place.line ++ ":" ++ toString d.place.column ++ " — "
    ++ d.problem.message

end SeqScript
