import SeqScript.Diagnostic

/-!
# From characters to tokens

A source is cut into pieces from the left: blanks and comments, tokens, and
stretches in which no token could be read. `scan` takes the longest piece at the
front of a non-empty text, and `pieces` repeats it. Places play no part in the
cutting: they are worked out afterwards from the texts of the pieces, which
together are the source (`pieces_text`).

A piece in which something is wrong does not stop the scan, so a reading reports
every problem of a source at once. One source has no reading at all: one that
ends with a backslash inside an open string literal, where an escape would begin.
-/

namespace SeqScript

-- ---------------------------------------------------------------------------
-- Pieces
-- ---------------------------------------------------------------------------

/-- What a piece of a source is. -/
inductive Content where
  /-- Blanks or a comment. -/
  | blank
  | token (t : Token)
  /-- No token; each problem lies some bytes behind the beginning, on the first line. -/
  | problems (found : List (Nat × Problem))
  /-- The source ends where an escape should go on. -/
  | dangling
  deriving DecidableEq

/-- A piece of a source: its characters, and what they are. -/
structure Piece where
  text : List Char
  content : Content

-- ---------------------------------------------------------------------------
-- Character classes
-- ---------------------------------------------------------------------------

/-- The blanks between tokens. -/
def isSpace (c : Char) : Bool := c == ' ' || c == '\t' || c == '\r' || c == '\n'

/-- The letters `a` to `z` in both cases. -/
def isLetter (c : Char) : Bool := ('a' ≤ c && c ≤ 'z') || ('A' ≤ c && c ≤ 'Z')

/-- What a name begins with. -/
def isNameStart (c : Char) : Bool := isLetter c || c == '_'

/-- What a name goes on with. -/
def isNamePart (c : Char) : Bool := isLetter c || Text.isDigit c || c == '_'

-- ---------------------------------------------------------------------------
-- Names and signs
-- ---------------------------------------------------------------------------

/-- The token a name stands for: reserved words are tokens of their own. The
words for types may begin with a capital, so that a cast reads like a call. -/
def wordToken (word : String) : Token :=
  match word with
  | "let" => .keyword .letK
  | "func" | "Func" => .keyword .funcK
  | "if" => .keyword .ifK
  | "else" => .keyword .elseK
  | "while" => .keyword .whileK
  | "match" => .keyword .matchK
  | "case" => .keyword .caseK
  | "return" => .keyword .returnK
  | "and" => .keyword .andK
  | "or" => .keyword .orK
  | "not" => .keyword .notK
  | "true" => .bool true
  | "false" => .bool false
  | "int" | "Int" => .typeWord .int
  | "float" | "Float" => .typeWord .float
  | "bool" | "Bool" => .typeWord .bool
  | "string" | "String" => .typeWord .string
  | "array" | "Array" => .typeWord .array
  | "list" | "List" => .typeWord .list
  | "_" => .sign .underscore
  | _ => .ident word

/-- The signs of two characters. -/
def pairSign? : Char → Char → Option Sign
  | '+', '=' => some .plusEq
  | '-', '>' => some .arrow
  | '-', '=' => some .minusEq
  | '*', '=' => some .starEq
  | '/', '=' => some .slashEq
  | '=', '=' => some .eqEq
  | '=', '>' => some .fatArrow
  | '!', '=' => some .bangEq
  | '<', '=' => some .ltEq
  | '>', '=' => some .gtEq
  | _, _ => none

/-- The signs of one character. -/
def singleSign? : Char → Option Sign
  | '+' => some .plus
  | '-' => some .minus
  | '*' => some .star
  | '/' => some .slash
  | '%' => some .percent
  | '=' => some .eq
  | '<' => some .lt
  | '>' => some .gt
  | ':' => some .colon
  | ',' => some .comma
  | ';' => some .semicolon
  | '.' => some .dot
  | '(' => some .lparen
  | ')' => some .rparen
  | '\x7b' => some .lbrace
  | '\x7d' => some .rbrace
  | '[' => some .lbracket
  | ']' => some .rbracket
  | _ => none

/-- A character that begins nothing: a problem for each of its bytes. -/
def strayProblems (c : Char) : List (Nat × Problem) :=
  if c = '!' then [(0, .bareBang)]
  else (String.utf8EncodeChar c).mapIdx fun i b => (i, .unexpectedByte b)

/-- A sign of one character, or a stray character. -/
def singleContent (c : Char) : Content :=
  match singleSign? c with
  | some s => .token (.sign s)
  | none => .problems (strayProblems c)

/-- A sign, as long as possible, or a stray character. -/
def scanSign (c : Char) : List Char → Piece × List Char
  | [] => (⟨[c], singleContent c⟩, [])
  | d :: rest =>
    match pairSign? c d with
    | some s => (⟨[c, d], .token (.sign s)⟩, rest)
    | none => (⟨[c], singleContent c⟩, d :: rest)

-- ---------------------------------------------------------------------------
-- Numbers
-- ---------------------------------------------------------------------------

/-- The token of a row of digits. -/
def integerContent (digits : List Char) : Content :=
  let n := Text.digitsValue digits
  if n < 0x8000000000000000 then .token (.int (Int64.ofNat n))
  else .problems [(0, .integerTooLarge (String.ofList digits))]

/-- A number, given its whole digits and what follows them. A point belongs to
it only if a digit follows, so that a point after an integer can begin a
collection operation. -/
def scanNumber (whole : List Char) : List Char → Piece × List Char
  | '.' :: d :: rest =>
    if Text.isDigit d then
      let fraction := d :: rest.takeWhile Text.isDigit
      let x := Binary64.ofDecimal (Text.digitsValue (whole ++ fraction)) (-fraction.length)
      (⟨whole ++ '.' :: fraction, .token (.float x)⟩, rest.dropWhile Text.isDigit)
    else (⟨whole, integerContent whole⟩, '.' :: d :: rest)
  | rest => (⟨whole, integerContent whole⟩, rest)

-- ---------------------------------------------------------------------------
-- String literals
-- ---------------------------------------------------------------------------

/-- How a string literal ends. -/
inductive Ending where
  | closed
  /-- The line or the source ends first. -/
  | unterminated
  /-- The source ends behind a backslash. -/
  | dangling
  deriving DecidableEq

/-- A string literal from behind its opening quote. -/
structure StringScan where
  /-- The characters that belong to it, the closing quote included. -/
  text : List Char
  rest : List Char
  ending : Ending
  /-- What it denotes. -/
  content : List Char
  /-- The first unknown escape: how many bytes in, and its first byte. -/
  bad : Option (Nat × UInt8)

/-- The escapes of string literals. -/
def unescape? : Char → Option Char
  | 'n' => some '\n'
  | 't' => some '\t'
  | '"' => some '"'
  | '\\' => some '\\'
  | _ => none

/-- A literal with one more character in front. -/
def StringScan.plain (c : Char) (s : StringScan) : StringScan :=
  { s with
    text := c :: s.text
    content := c :: s.content
    bad := s.bad.map fun (i, b) => (i + c.utf8Size, b) }

/-- A literal with one more escape in front. -/
def StringScan.escape (e : Char) (s : StringScan) : StringScan :=
  let text := '\\' :: e :: s.text
  let moved := s.bad.map fun (i, b) => (i + 1 + e.utf8Size, b)
  match unescape? e with
  | some c => { s with text, content := c :: s.content, bad := moved }
  | none => { s with text, bad := some (1, (String.utf8EncodeChar e).headD 0) }

/-- Reads a string literal from behind its opening quote. -/
def scanString : List Char → StringScan
  | [] => ⟨[], [], .unterminated, [], none⟩
  | '\n' :: rest => ⟨[], '\n' :: rest, .unterminated, [], none⟩
  | '"' :: rest => ⟨['"'], rest, .closed, [], none⟩
  | ['\\'] => ⟨['\\'], [], .dangling, [], none⟩
  | '\\' :: e :: rest => (scanString rest).escape e
  | c :: rest => (scanString rest).plain c

/-- What a string literal is. A missing closing quote is reported at the
opening one and hides an unknown escape. -/
def StringScan.toContent (s : StringScan) : Content :=
  match s.ending with
  | .dangling => .dangling
  | .unterminated => .problems [(0, .unterminatedString)]
  | .closed =>
    match s.bad with
    | some (i, b) => .problems [(i + 1, .unknownEscape b)]
    | none => .token (.str (String.ofList s.content))

-- ---------------------------------------------------------------------------
-- Comments
-- ---------------------------------------------------------------------------

/-- A block comment from behind its opening: up to its close, or to the end of
the source if it has none. -/
def scanBlockComment : List Char → List Char × List Char
  | [] => ([], [])
  | '*' :: '/' :: rest => (['*', '/'], rest)
  | c :: rest => (c :: (scanBlockComment rest).1, (scanBlockComment rest).2)

/-- Characters up to the end of the line. -/
def beforeNewline (c : Char) : Bool := c != '\n'

-- ---------------------------------------------------------------------------
-- Scanning
-- ---------------------------------------------------------------------------

/-- The piece at the front of a text that begins with `c`, and what follows it. -/
def scan (c : Char) (cs : List Char) : Piece × List Char :=
  if isSpace c then (⟨c :: cs.takeWhile isSpace, .blank⟩, cs.dropWhile isSpace)
  else if isNameStart c then
    let word := c :: cs.takeWhile isNamePart
    (⟨word, .token (wordToken (String.ofList word))⟩, cs.dropWhile isNamePart)
  else if Text.isDigit c then
    scanNumber (c :: cs.takeWhile Text.isDigit) (cs.dropWhile Text.isDigit)
  else
    match c, cs with
    | '"', cs =>
      let s := scanString cs
      (⟨'"' :: s.text, s.toContent⟩, s.rest)
    | '/', '/' :: rest =>
      (⟨'/' :: '/' :: rest.takeWhile beforeNewline, .blank⟩, rest.dropWhile beforeNewline)
    | '/', '*' :: rest =>
      let (text, rest) := scanBlockComment rest
      (⟨'/' :: '*' :: text, .blank⟩, rest)
    | _, _ => scanSign c cs

-- Nothing is lost: a piece and what follows it are the text they were cut from.

theorem scanSign_append (c : Char) (cs : List Char) :
    (scanSign c cs).1.text ++ (scanSign c cs).2 = c :: cs := by
  cases cs with
  | nil => rfl
  | cons d rest =>
    simp only [scanSign]
    split <;> rfl

theorem scanNumber_append (whole cs : List Char) :
    (scanNumber whole cs).1.text ++ (scanNumber whole cs).2 = whole ++ cs := by
  unfold scanNumber
  split
  · split <;> simp
  · rfl

theorem scanString_append (cs : List Char) :
    (scanString cs).text ++ (scanString cs).rest = cs := by
  fun_induction scanString cs with
  | case1 => rfl
  | case2 => rfl
  | case3 => rfl
  | case4 => rfl
  | case5 e rest ih =>
    have : ((scanString rest).escape e).text = '\\' :: e :: (scanString rest).text := by
      unfold StringScan.escape
      split <;> rfl
    have hrest : ((scanString rest).escape e).rest = (scanString rest).rest := by
      unfold StringScan.escape
      split <;> rfl
    simp [this, hrest, ih]
  | case6 c rest _ _ _ _ ih => simp [StringScan.plain, ih]

theorem scanBlockComment_append (cs : List Char) :
    (scanBlockComment cs).1 ++ (scanBlockComment cs).2 = cs := by
  fun_induction scanBlockComment cs with
  | case1 => rfl
  | case2 rest => rfl
  | case3 c rest _ ih => simp [ih]

theorem scan_append (c : Char) (cs : List Char) :
    (scan c cs).1.text ++ (scan c cs).2 = c :: cs := by
  unfold scan
  split
  · simp
  split
  · simp
  split
  · simp [scanNumber_append]
  split
  · simp [scanString_append]
  · simp
  · simp [scanBlockComment_append]
  · exact scanSign_append _ _

theorem scanNumber_text_ne_nil {whole : List Char} (h : whole ≠ []) (cs : List Char) :
    (scanNumber whole cs).1.text ≠ [] := by
  unfold scanNumber
  split
  · split <;> simp [h]
  · exact h

theorem scanSign_text_ne_nil (c : Char) (cs : List Char) : (scanSign c cs).1.text ≠ [] := by
  cases cs with
  | nil => simp [scanSign]
  | cons d rest =>
    simp only [scanSign]
    split <;> simp

/-- Every piece has at least one character. -/
theorem scan_text_ne_nil (c : Char) (cs : List Char) : (scan c cs).1.text ≠ [] := by
  unfold scan
  split
  · simp
  split
  · simp
  split
  · exact scanNumber_text_ne_nil (by simp) _
  split
  · simp
  · simp
  · simp
  · exact scanSign_text_ne_nil _ _

theorem scan_rest_length (c : Char) (cs : List Char) : (scan c cs).2.length < (c :: cs).length := by
  have happ := congrArg List.length (scan_append c cs)
  have hpos := List.length_pos_iff.2 (scan_text_ne_nil c cs)
  rw [List.length_append] at happ
  omega

/-- A source cut into pieces. -/
def pieces : List Char → List Piece
  | [] => []
  | c :: cs => (scan c cs).1 :: pieces (scan c cs).2
termination_by cs => cs.length
decreasing_by exact scan_rest_length c cs

/-- The texts of the pieces together are the source. -/
theorem pieces_text (cs : List Char) : (pieces cs).flatMap Piece.text = cs := by
  fun_induction pieces cs with
  | case1 => rfl
  | case2 c cs ih => rw [List.flatMap_cons, ih, scan_append]

-- ---------------------------------------------------------------------------
-- Readings
-- ---------------------------------------------------------------------------

/-- Pieces with the places where they begin. -/
def placed (p : Place) : List Piece → List (Place × Piece)
  | [] => []
  | x :: xs => (p, x) :: placed (p.past x.text) xs

/-- The token of a piece, where it stands. -/
def pieceLexeme? : Place × Piece → Option Lexeme
  | (p, ⟨_, .token t⟩) => some ⟨t, p⟩
  | _ => none

/-- The problems of a piece, each at its place. -/
def pieceDiagnostics : Place × Piece → List Diagnostic
  | (p, ⟨_, .problems found⟩) => found.map fun (i, problem) => ⟨p.shifted i, problem⟩
  | _ => []

/-- What reading the characters of a source gives. -/
inductive Reading where
  /-- The tokens in order, closed by the end mark. -/
  | tokens (ts : List Lexeme)
  /-- The problems in order, at least one. -/
  | problems (ds : List Diagnostic)
  /-- The source ends in the middle of an escape and has no reading. -/
  | dangling

/-- Reads the tokens of a source. -/
def tokenize (source : String) : Reading :=
  let cut := pieces source.toList
  if cut.any fun x => x.content = .dangling then .dangling
  else
    let located := placed Place.start cut
    match located.flatMap pieceDiagnostics with
    | [] => .tokens (located.filterMap pieceLexeme? ++
        [⟨.eof, Place.start.past source.toList⟩])
    | ds => .problems ds

end SeqScript
