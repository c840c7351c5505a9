import Pscal.Lib.DecimalText
import Pscal.Core.Utf8
import Pscal.Paths.Truncate
import Pscal.Shell.Splitting
import Pscal.Symbol.Buckets

/-!
# The lexer of Pascal

`lexer/lexer.c`: the tokens of a source text, one at each call of `getNextToken`.

* `Lexer`, `initLexer`, `advance`  the place in the text, with its line and column;
* `handleCommentDirective`  what a comment may ask for;
* `skipLineComment`, `skipNestedComment`  the three kinds of comments;
* `identifier`, `number`, `stringLiteral`, `charCode`, `hexConst`, `operator`  the tokens;
* `iteration`, `getNextToken`  the loop up to the next token;
* `lexemes`  call after call, up to the end of the text.

The process ends at a lexical error, as in the builds that do not suppress the exit.  Lines and
columns are unbounded.
-/

namespace Pscal.Lexing

open Wire (Bytes)
open DecimalText (isDigit)
open Paths (ascii)
open Shell (isspace)
open Buckets (toLower)

/-! ## tokens -/

inductive TokenType where
  | program | «var» | begin | «end» | «if» | «then» | «else» | «while» | «do» | «for» | to | downto
  | «repeat» | «until» | procedure | function | const | type | write | writeln | read | readln
  | intDiv | mod | record | identifier | integerConst | realConst | stringConst | semicolon
  | greater | greaterEqual | equal | notEqual | lessEqual | less | colon | question | comma
  | period | assign | plusEqual | minusEqual | mulEqual | slashEqual | percentEqual | plus | minus
  | mul | slash | lparen | rparen | lbracket | rbracket | dotdot | array | as | «of» | and | or
  | true | false | not | case | uses | eof | hexConst | unknown | unit | interface | implementation
  | initialization | enum | «in» | is | xor | «break» | «continue» | shl | shr | set | pointer
  | caret | nil | «inline» | forward | spawn | join | «try» | except | «finally» | on | raise
  | «with» | «at» | label | goto
deriving DecidableEq, Repr

structure Token where
  type : TokenType
  value : Bytes
  length : Nat
  line : Nat
  column : Nat
  isCharCode : Bool := Bool.false
  charCodeValue : Nat := 0
deriving DecidableEq, Repr

def newToken (kind : TokenType) (value : Bytes) (line column : Nat) : Token :=
  let value := value.takeWhile (· ≠ 0)
  { type := kind, value, length := value.length, line, column }

def keywords : List (Bytes × TokenType) :=
  [(ascii "and", .and), (ascii "array", .array), (ascii "as", .as), (ascii "begin", .begin),
   (ascii "break", .break), (ascii "case", .case), (ascii "const", .const), (ascii "do", .do),
   (ascii "continue", .continue), (ascii "div", .intDiv), (ascii "downto", .downto),
   (ascii "else", .else), (ascii "end", .end), (ascii "enum", .enum), (ascii "false", .false),
   (ascii "for", .for), (ascii "forward", .forward), (ascii "function", .function),
   (ascii "goto", .goto), (ascii "if", .if), (ascii "implementation", .implementation),
   (ascii "in", .in), (ascii "inline", .inline), (ascii "initialization", .initialization),
   (ascii "interface", .interface), (ascii "is", .is), (ascii "join", .join),
   (ascii "label", .label), (ascii "mod", .mod), (ascii "nil", .nil), (ascii "not", .not),
   (ascii "of", .of), (ascii "on", .on), (ascii "or", .or), (ascii "pointer", .pointer),
   (ascii "procedure", .procedure), (ascii "program", .program), (ascii "raise", .raise),
   (ascii "read", .read), (ascii "readln", .readln), (ascii "record", .record),
   (ascii "repeat", .repeat), (ascii "set", .set), (ascii "shl", .shl), (ascii "shr", .shr),
   (ascii "spawn", .spawn), (ascii "then", .then), (ascii "try", .try), (ascii "to", .to),
   (ascii "true", .true), (ascii "type", .type), (ascii "unit", .unit), (ascii "until", .until),
   (ascii "uses", .uses), (ascii "var", .var), (ascii "while", .while), (ascii "write", .write),
   (ascii "with", .with), (ascii "writeln", .writeln), (ascii "xor", .xor),
   (ascii "except", .except), (ascii "finally", .finally)]

inductive LexicalError where
  | unterminatedString | noHexDigits | noDigits | charCodeRange | noHexConstDigits
deriving DecidableEq, Repr

def LexicalError.message : LexicalError → String
  | unterminatedString => "Unterminated string literal"
  | noHexDigits => "Character code literal must have at least one hex digit after '#$'"
  | noDigits => "Character code literal must have at least one digit after '#'"
  | charCodeRange => "Character code value out of range (0-0x10FFFF)"
  | noHexConstDigits => "Hex literal must have at least one digit after '$'"

/-! ## bytes -/

abbrev byte (c : Char) : UInt8 := UInt8.ofNat c.toNat

abbrev newline : UInt8 := 10
abbrev apostrophe : UInt8 := 39
abbrev backslash : UInt8 := 92
abbrev openBrace : UInt8 := 123
abbrev closeBrace : UInt8 := 125

def isIdentifierStartChar (c : UInt8) : Bool :=
  c = byte '_' || (byte 'A' ≤ c && c ≤ byte 'Z') || (byte 'a' ≤ c && c ≤ byte 'z')

def isIdentifierChar (c : UInt8) : Bool := isIdentifierStartChar c || isDigit c

/-- `isxdigit` too -/
def isHexDigit (c : UInt8) : Bool :=
  isDigit c || (byte 'a' ≤ toLower c && toLower c ≤ byte 'f')

def hexDigitValue (c : UInt8) : Nat :=
  if isDigit c then c.toNat - 48 else (toLower c).toNat - 87

def strtoul (base : Nat) (digits : Bytes) : Nat :=
  min (digits.foldl (fun n c => base * n + hexDigitValue c) 0) (2 ^ 64 - 1)

/-! ## the place in the text -/

structure Lexer where
  text : Bytes
  pos : Nat
  line : Nat
  column : Nat
  /-- a pending override of a builtin, with the name that it is for -/
  pendingBuiltinOverride : Option (Option Bytes) := none
deriving DecidableEq, Repr

/-- the mark of UTF-8 at the start of a text -/
def byteOrderMark : Bytes := [0xEF, 0xBB, 0xBF]

/-- of the bytes that the pointer shows, up to their first zero -/
def initLexer (memory : Bytes) : Lexer :=
  let text := memory.takeWhile (· ≠ 0)
  let pos := if byteOrderMark.isPrefixOf text then 3 else 0
  if (ascii "#!").isPrefixOf (text.drop pos) then
    let pos := pos + 2
    let pos := pos + ((text.drop pos).takeWhile (· ≠ newline)).length
    if pos < text.length then { text, pos := pos + 1, line := 2, column := 1 }
    else { text, pos, line := 1, column := 1 }
  else { text, pos, line := 1, column := 1 }

namespace Lexer

/-- `current_char`, zero behind the end -/
def currentChar (l : Lexer) : UInt8 := l.text.getD l.pos 0

def nextChar (l : Lexer) : UInt8 := l.text.getD (l.pos + 1) 0

def startsWith (l : Lexer) (s : Bytes) : Bool := s.isPrefixOf (l.text.drop l.pos)

def left (l : Lexer) : Nat := l.text.length - l.pos

def slice (l : Lexer) (start stop : Nat) : Bytes := (l.text.take stop).drop start

def advance (l : Lexer) : Lexer :=
  if l.currentChar = newline then { l with pos := l.pos + 1, line := l.line + 1, column := 1 }
  else { l with pos := l.pos + 1, column := l.column + 1 }

def advances : Nat → Lexer → Lexer
  | 0, l => l
  | n + 1, l => advances n l.advance

def advanceWhileFor (p : UInt8 → Bool) : Nat → Lexer → Lexer
  | 0, l => l
  | n + 1, l => if p l.currentChar then advanceWhileFor p n l.advance else l

/-- for a `p` that zero does not have -/
def advanceWhile (p : UInt8 → Bool) (l : Lexer) : Lexer := advanceWhileFor p l.left l

def skipWhitespace (l : Lexer) : Lexer := l.advanceWhile isspace

/-! ## directives -/

def recordBuiltinOverrideDirective (l : Lexer) (name : Bytes) : Lexer :=
  { l with pendingBuiltinOverride := some (if name = [] then none else some (Buckets.toLowerString name)) }

def clearBuiltinOverrideDirective (l : Lexer) : Lexer := { l with pendingBuiltinOverride := none }

/-- behind the `:` or `=` of a directive, if there is one -/
def directiveArgument (text : Bytes) : Bytes :=
  match text.dropWhile isspace with
  | [] => []
  | c :: rest => if c = byte ':' || c = byte '=' then rest.dropWhile isspace else c :: rest

def handleCommentDirective (l : Lexer) (comment : Bytes) : Lexer :=
  let trimmed := ((comment.dropWhile isspace).reverse.dropWhile isspace).reverse
  let directive := ascii "override builtin"
  if directive.isPrefixOf (Buckets.toLowerString trimmed) then
    let behind := trimmed.drop directive.length
    let ends (c : UInt8) : Bool := isspace c || c = byte ':' || c = byte '='
    if behind.head?.all ends then
      l.recordBuiltinOverrideDirective <| (directiveArgument behind).takeWhile fun c =>
        !isspace c && c != byte ',' && c != byte ';'
    else l
  else l

def lexerConsumeOverrideBuiltinDirective (l : Lexer) (procedureName : Bytes) : Bool × Lexer :=
  match l.pendingBuiltinOverride with
  | none => (false, l)
  | some none => (true, l.clearBuiltinOverrideDirective)
  | some (some name) =>
    if Buckets.toLowerString procedureName = name then (true, l.clearBuiltinOverrideDirective)
    else (false, l)

/-! ## comments -/

def skipLineComment (l : Lexer) : Lexer :=
  let behind := l.advanceWhile fun c => c ≠ 0 && c ≠ newline
  let behind := behind.handleCommentDirective (l.slice (l.pos + 2) behind.pos)
  if behind.currentChar = newline then behind.advance else behind

/-- the level that is left, and the place behind the comment -/
def nestedCommentLoop (opener closer : Bytes) : Nat → Nat → Lexer → Nat × Lexer
  | 0, level, l => (level, l)
  | n + 1, level, l =>
    if l.currentChar ≠ 0 ∧ 0 < level then
      if l.startsWith closer then
        nestedCommentLoop opener closer n (level - 1) (l.advances closer.length)
      else if l.startsWith opener then
        nestedCommentLoop opener closer n (level + 1) (l.advances opener.length)
      else nestedCommentLoop opener closer n level l.advance
    else (level, l)

/-- A comment that is not terminated goes up to the end of the text, after a message. -/
def skipNestedComment (opener closer : Bytes) (l : Lexer) : Lexer :=
  let inside := l.advances opener.length
  match nestedCommentLoop opener closer inside.left 1 inside with
  | (0, behind) =>
    behind.handleCommentDirective (l.slice inside.pos (behind.pos - closer.length))
  | (_, behind) => behind

def skipBraceComment : Lexer → Lexer := skipNestedComment [openBrace] [closeBrace]

def skipParenStarComment : Lexer → Lexer := skipNestedComment (ascii "(*") (ascii "*)")

/-! ## tokens of several characters -/

def identifier (l : Lexer) : Token × Lexer :=
  let behind := l.advanceWhile isIdentifierChar
  let text := Buckets.toLowerString (l.slice l.pos behind.pos)
  ({ type := (keywords.lookup text).getD .identifier, value := text, length := text.length,
     line := l.line, column := l.column }, behind)

def exponentPart (l : Lexer) : Bool × Lexer :=
  if l.currentChar = byte 'e' ∨ l.currentChar = byte 'E' then
    let l := l.advance
    let l := if l.currentChar = byte '+' ∨ l.currentChar = byte '-' then l.advance else l
    (true, l.advanceWhile isDigit)
  else (false, l)

/-- `none` is the null pointer. -/
def number (l : Lexer) : Option (Token × Lexer) :=
  let column := max 1 l.column
  if l.currentChar = byte '#' then
    let behind := l.advance.advanceWhile isHexDigit
    some (newToken .hexConst (l.slice (l.pos + 1) behind.pos) l.line column, behind)
  else if isDigit l.currentChar then
    let whole := l.advanceWhile isDigit
    -- a range such as 1..5
    if whole.currentChar = byte '.' ∧ whole.nextChar = byte '.' then
      some (newToken .integerConst (l.slice l.pos whole.pos) l.line column, whole)
    else
      let hasDecimal := whole.currentChar = byte '.'
      let fraction := if hasDecimal then whole.advance.advanceWhile isDigit else whole
      let (hasExponent, behind) := exponentPart fraction
      some (newToken (if hasDecimal ∨ hasExponent then .realConst else .integerConst)
        (l.slice l.pos behind.pos) l.line column, behind)
  else none

def escapedChar (next : UInt8) : Option UInt8 :=
  if next = byte 'n' then some 10 else if next = byte 't' then some 9
  else if next = byte 'r' then some 13 else if next = byte 'a' then some 7
  else if next = byte 'e' then some 27 else if next = backslash then some backslash else none

def stringLiteralLoop : Nat → Bytes → Lexer → Option (Except LexicalError (Bytes × Lexer))
  | 0, _, _ => none
  | n + 1, buffer, l =>
    if l.currentChar = apostrophe then
      let l := l.advance
      if l.currentChar = apostrophe then stringLiteralLoop n (buffer ++ [apostrophe]) l.advance
      else some (.ok (buffer, l))
    else if l.currentChar = backslash then
      match escapedChar l.nextChar with
      | some c => stringLiteralLoop n (buffer ++ [c]) l.advance.advance
      | none => stringLiteralLoop n (buffer ++ [backslash]) l.advance
    else if l.currentChar = 0 then some (.error .unterminatedString)
    else stringLiteralLoop n (buffer ++ [l.currentChar]) l.advance

/-- The line and the column are taken behind the opening apostrophe. -/
def stringLiteral (l : Lexer) : Option (Except LexicalError (Token × Lexer)) :=
  let inside := l.advance
  (stringLiteralLoop (inside.left + 1) [] inside).map fun r => r.map fun (buffer, behind) =>
    (newToken .stringConst buffer inside.line inside.column, behind)

def charCode (l : Lexer) : Except LexicalError (Token × Lexer) :=
  let isHex := l.nextChar = byte '$'
  let digits := if isHex then l.advance.advance else l.advance
  let behind := digits.advanceWhile (if isHex then isHexDigit else isDigit)
  if behind.pos = digits.pos then .error (if isHex then .noHexDigits else .noDigits)
  else
    let val := strtoul (if isHex then 16 else 10) (l.slice digits.pos behind.pos)
    if 0x10FFFF < val then .error .charCodeRange
    else
      let encoded := if val ≤ 255 then [UInt8.ofNat val] else encodeUtf8Codepoint val
      .ok ({ newToken .stringConst encoded l.line l.column with
              length := encoded.length, isCharCode := true, charCodeValue := val }, behind)

def hexConst (l : Lexer) : Except LexicalError (Token × Lexer) :=
  let digits := l.advance
  let behind := digits.advanceWhile isHexDigit
  if behind.pos = digits.pos then .error .noHexConstDigits
  else .ok (newToken .hexConst (l.slice digits.pos behind.pos) l.line l.column, behind)

end Lexer

/-! ## operators and punctuation -/

/-- the characters that begin an operator, with the tokens that they make together with the one
behind them, and the token that they make alone -/
def operators : List (UInt8 × List (UInt8 × TokenType) × Option TokenType) :=
  [(byte '^', [], some .caret),
   (byte ':', [(byte '=', .assign)], some .colon),
   (byte '?', [], some .question),
   (byte ';', [], some .semicolon),
   (byte ',', [], some .comma),
   (byte '.', [(byte '.', .dotdot)], some .period),
   (byte '+', [(byte '=', .plusEqual)], some .plus),
   (byte '-', [(byte '=', .minusEqual)], some .minus),
   (byte '*', [(byte '=', .mulEqual)], some .mul),
   (byte '/', [(byte '=', .slashEqual)], some .slash),
   (byte '%', [(byte '=', .percentEqual)], some .mod),
   (byte '(', [], some .lparen),
   (byte ')', [], some .rparen),
   (byte '[', [], some .lbracket),
   (byte ']', [], some .rbracket),
   (byte '@', [], some .at),
   (byte '=', [], some .equal),
   (byte '<', [(byte '=', .lessEqual), (byte '>', .notEqual)], some .less),
   (byte '>', [(byte '=', .greaterEqual)], some .greater),
   (byte '!', [(byte '=', .notEqual)], none)]

/-- the token that a character and the one behind it begin, with its text -/
def operator (c next : UInt8) : Option (TokenType × Bytes) :=
  match operators.lookup c with
  | none => none
  | some (longer, alone) =>
    match longer.lookup next with
    | some kind => some (kind, [c, next])
    | none => alone.map fun kind => (kind, [c])

/-! ## the next token -/

/-- the outcome of one turn of the loop of `getNextToken` -/
inductive Iteration where
  | again (startLine startColumn : Nat) (l : Lexer)
  /-- a token, with the place of its first character -/
  | token (start : Nat) (t : Token) (l : Lexer)
  | fails (e : LexicalError)
  | null
deriving DecidableEq, Repr

def Iteration.ofScan (start : Nat) : Except LexicalError (Token × Lexer) → Iteration
  | .ok (t, l) => .token start t l
  | .error e => .fails e

/-- at a character that is no blank and begins no comment -/
def scanToken (l : Lexer) : Iteration :=
  if l.currentChar = byte '#' then .ofScan l.pos l.charCode
  else if l.currentChar = byte '$' then .ofScan l.pos l.hexConst
  else if isIdentifierStartChar l.currentChar then .ofScan l.pos (.ok l.identifier)
  else if isDigit l.currentChar then l.number.elim .null fun r => .ofScan l.pos (.ok r)
  else if l.currentChar = apostrophe then l.stringLiteral.elim .null (.ofScan l.pos)
  else
    match operator l.currentChar l.nextChar with
    | some (kind, text) =>
      .token l.pos (newToken kind text l.line l.column) (l.advances text.length)
    -- a character that begins nothing is skipped silently
    | none => .again l.line l.column l.advance

def iteration (l : Lexer) : Iteration :=
  let l := if isspace l.currentChar then l.skipWhitespace else l
  if l.startsWith (ascii "//") then
    .again l.skipLineComment.line l.skipLineComment.column l.skipLineComment
  else if l.currentChar = openBrace then
    .again l.skipBraceComment.line l.skipBraceComment.column l.skipBraceComment
  else if l.startsWith (ascii "(*") then .again l.line l.column l.skipParenStarComment
  else scanToken l

/-- a token with the place of its first character, and the lexer behind it -/
structure Lexeme where
  start : Nat
  token : Token
  next : Lexer
deriving DecidableEq, Repr

def getNextTokenLoop : Nat → Nat → Nat → Lexer → Option (Except LexicalError Lexeme)
  | n, startLine, startColumn, l =>
    if l.currentChar = 0 then
      some (.ok ⟨l.pos, newToken .eof (ascii "EOF") startLine startColumn, l⟩)
    else
      match n with
      | 0 => none
      | n + 1 =>
        match iteration l with
        | .again startLine startColumn l => getNextTokenLoop n startLine startColumn l
        | .token start t l => some (.ok ⟨start, t, l⟩)
        | .fails e => some (.error e)
        | .null => none

/-- `none`: there is no token, and no error is reported. -/
def getNextToken (l : Lexer) : Option (Except LexicalError Lexeme) :=
  getNextTokenLoop l.left l.line l.column l

inductive Ending where
  | eof (x : Lexeme)
  | failed (e : LexicalError)
  | running
deriving DecidableEq, Repr

/-- the tokens of so many calls, without the one at the end of the text -/
def lexemes : Nat → Lexer → List Lexeme × Ending
  | 0, _ => ([], .running)
  | n + 1, l =>
    match getNextToken l with
    | none => ([], .running)
    | some (.error e) => ([], .failed e)
    | some (.ok x) =>
      if x.token.type = .eof then ([], .eof x)
      else
        let (xs, ending) := lexemes n x.next
        (x :: xs, ending)

end Pscal.Lexing
