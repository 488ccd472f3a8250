import SeqScript.Text.Hidden

/-!
# Quoted text

A text between double quotes, on one line and readable character by character:
a quote and a backslash have a backslash in front, the common controls have
their letter, and any other character that would not show is written by its
number.
-/

namespace SeqScript.Text

/-- A code point in hexadecimal, in braces: `\u{301}`. -/
def numbered (c : Char) : List Char :=
  ['\\', 'u', '\x7b'] ++ Nat.toDigits 16 c.toNat ++ ['\x7d']

/-- One character inside a quoted text. -/
def escaped (c : Char) : List Char :=
  if c = '"' then ['\\', '"']
  else if c = '\\' then ['\\', '\\']
  else if c = '\n' then ['\\', 'n']
  else if c = '\r' then ['\\', 'r']
  else if c = '\t' then ['\\', 't']
  else if c = '\x00' then ['\\', '0']
  else if isHidden c then numbered c
  else [c]

/-- A text in double quotes. -/
def quoted (s : String) : String :=
  String.ofList ('"' :: s.toList.flatMap escaped ++ ['"'])

end SeqScript.Text
