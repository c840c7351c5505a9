import Pscal.Shell.Splitting
import Pscal.Lib.Quoting
import Mathlib

/-!
# Array literals of the shell

`shell_command_utils.inc`: the text that an array is kept as in the environment, and the array
that such a text is read as.

* `ShellArrayVariable`  an array: plain, or with keys;
* `shellBuildArrayLiteral`  the text of an array;
* `shellParseNextArrayToken`, `shellParseArrayValues`  elements between blanks;
* `shellDecodeAssociativeKey`, `shellParseAssociativeArrayLiteral`  elements `[key]=value`;
* `shellParseArrayLiteral`  either, by the look of the first element.

A text is the list of its bytes before the NUL.  `shell/word_scan.h` is not part of the repository:
its scanners are a parameter, `WordScanner`.
-/

namespace Pscal.Shell

open Wire (Bytes)
open Quoting (escape)

abbrev blank : UInt8 := 32
abbrev doubleQuote : UInt8 := 34
abbrev singleQuote : UInt8 := 39
abbrev openParen : UInt8 := 40
abbrev closeParen : UInt8 := 41
abbrev equalsSign : UInt8 := 61
abbrev openBracket : UInt8 := 91
abbrev backslash : UInt8 := 92
abbrev closeBracket : UInt8 := 93

inductive ShellArrayKind where
  | indexed
  | associative
deriving DecidableEq, Repr

/-- an array; a sparse one is kept by its keys -/
inductive ShellArrayVariable where
  | indexed (values : List Bytes)
  | associative (sparse : Bool) (elements : List (Bytes × Bytes))
deriving DecidableEq, Repr

namespace ShellArrayVariable

def kind : ShellArrayVariable → ShellArrayKind
  | indexed _ => .indexed
  | associative _ _ => .associative

def keys : ShellArrayVariable → List Bytes
  | indexed _ => []
  | associative _ elements => elements.map Prod.fst

def values : ShellArrayVariable → List Bytes
  | indexed values => values
  | associative _ elements => elements.map Prod.snd

def count (var : ShellArrayVariable) : Nat := var.values.length

def sparse : ShellArrayVariable → Bool
  | indexed _ => false
  | associative sparse _ => sparse

end ShellArrayVariable

/-! ## from an array to its text -/

def shellBufferAppendQuoted (text : Bytes) : Bytes :=
  doubleQuote :: escape doubleQuote backslash text ++ [doubleQuote]

def keyedElement (element : Bytes × Bytes) : Bytes :=
  openBracket :: shellBufferAppendQuoted element.1 ++
    closeBracket :: equalsSign :: shellBufferAppendQuoted element.2

def literalElements : ShellArrayVariable → List Bytes
  | .indexed values => values.map shellBufferAppendQuoted
  | .associative _ elements => elements.map keyedElement

def shellBuildArrayLiteral (var : ShellArrayVariable) : Bytes :=
  openParen :: [blank].intercalate (literalElements var) ++ [closeParen]

/-! ## elements between blanks -/

/-- the text of a token and what is left; `quote` is the quote that is open -/
def arrayToken : Option UInt8 → Bytes → Bytes × Bytes
  | _, [] => ([], [])
  | none, [ch] =>
    if isspace ch then ([], [ch])
    else if ch = backslash ∨ ch = singleQuote ∨ ch = doubleQuote then ([], [])
    else ([ch], [])
  | some quote, [ch] => if ch = quote then ([], []) else ([ch], [])
  | none, ch :: next :: rest =>
    if isspace ch then ([], ch :: next :: rest)
    else if ch = backslash then (arrayToken none rest).map (next :: ·) id
    else if ch = singleQuote ∨ ch = doubleQuote then arrayToken (some ch) (next :: rest)
    else (arrayToken none (next :: rest)).map (ch :: ·) id
  | some quote, ch :: next :: rest =>
    if ch = quote then arrayToken none (next :: rest)
    else if quote = doubleQuote ∧ ch = backslash then
      (arrayToken (some quote) rest).map (next :: ·) id
    else (arrayToken (some quote) (next :: rest)).map (ch :: ·) id

def shellParseNextArrayToken (cursor : Bytes) : Bytes × Bytes := arrayToken none cursor

def trimSpaces (text : Bytes) : Bytes := (text.dropWhile isspace).rdropWhile isspace

def literalBody (value : Bytes) : Bytes :=
  let text := trimSpaces value
  if text.head? = some openParen ∧ text.getLast? = some closeParen then
    trimSpaces text.tail.dropLast
  else text

/-- the elements of a text, each read by `element`; every element takes a byte of the text, so the
length of the text bounds the rounds -/
def elementsLoop {β : Type} (element : Bytes → Option (β × Bytes)) : Nat → Bytes → Option (List β)
  | 0, _ => some []
  | fuel + 1, text =>
    match text.dropWhile isspace with
    | [] => some []
    | c :: rest =>
      match element (c :: rest) with
      | none => none
      | some (item, left) => (elementsLoop element fuel left).map (item :: ·)

def shellParseArrayValues (value : Bytes) : Option (List Bytes) :=
  elementsLoop (fun text => some (shellParseNextArrayToken text)) (literalBody value).length
    (literalBody value)

/-! ## elements with keys -/

def dropBackslashes : Bytes → Bytes
  | [] => []
  | [ch] => [ch]
  | ch :: next :: rest =>
    if ch = backslash then next :: dropBackslashes rest else ch :: dropBackslashes (next :: rest)

def shellDecodeAssociativeKey (text : Bytes) : Bytes :=
  let between := fun quote =>
    2 ≤ text.length ∧ text.head? = some quote ∧ text.getLast? = some quote
  if between doubleQuote then dropBackslashes text.tail.dropLast
  else if between singleQuote then text.tail.dropLast
  else dropBackslashes text

/-- the key up to its bracket, and what is left from there on -/
def scanKey (inSingle inDouble : Bool) : Bytes → Bytes × Bytes
  | [] => ([], [])
  | [ch] =>
    if ch = singleQuote ∧ !inDouble ∨ ch = doubleQuote ∧ !inSingle then ([ch], [])
    else if !inSingle ∧ !inDouble ∧ ch = closeBracket then ([], [ch])
    else ([ch], [])
  | ch :: next :: rest =>
    if ch = backslash ∧ !inSingle then
      (scanKey inSingle inDouble rest).map (fun key => ch :: next :: key) id
    else if ch = singleQuote ∧ !inDouble then
      (scanKey (!inSingle) inDouble (next :: rest)).map (ch :: ·) id
    else if ch = doubleQuote ∧ !inSingle then
      (scanKey inSingle (!inDouble) (next :: rest)).map (ch :: ·) id
    else if !inSingle ∧ !inDouble ∧ ch = closeBracket then ([], ch :: next :: rest)
    else (scanKey inSingle inDouble (next :: rest)).map (ch :: ·) id

/-- the element at the start of a text that is not blank, and what is left -/
def parseKeyedElement : Bytes → Option ((Bytes × Bytes) × Bytes)
  | [] => none
  | c :: text =>
    if c ≠ openBracket then none
    else
      match scanKey false false text with
      | (_, []) => none
      | (raw, bracket :: rest) =>
        if bracket ≠ closeBracket then none
        else
          match rest.dropWhile isspace with
          | [] => none
          | e :: rest =>
            if e ≠ equalsSign then none
            else
              let token := shellParseNextArrayToken (rest.dropWhile isspace)
              some ((shellDecodeAssociativeKey raw, token.1), token.2)

def shellParseAssociativeArrayLiteral (value : Bytes) : Option (List (Bytes × Bytes)) :=
  elementsLoop parseKeyedElement (literalBody value).length (literalBody value)

/-! ## either of them -/

/-- the scanners of a quoted part: from behind its opening quote to behind its closing one -/
structure WordScanner where
  shellScanDoubleQuoted : Bytes → Nat → Option Nat
  shellScanSingleQuoted : Bytes → Nat → Option Nat
  double_le : ∀ {text i stop}, shellScanDoubleQuoted text i = some stop → i ≤ stop
  single_le : ∀ {text i stop}, shellScanSingleQuoted text i = some stop → i ≤ stop

section
variable (scanner : WordScanner)

/-- where the bracket of the first element closes; every round moves `k`, so the length of the
text bounds the rounds -/
def closingBracket (first : Bytes) : Nat → Nat → Nat
  | 0, k => k
  | fuel + 1, k =>
    match first[k]? with
    | none => k
    | some c =>
      if c = closeBracket then k
      else
        let stop :=
          if c = doubleQuote then scanner.shellScanDoubleQuoted first (k + 1)
          else if c = singleQuote then scanner.shellScanSingleQuoted first (k + 1)
          else if c = backslash then some (k + 2)
          else some (k + 1)
        match stop with
        | none => first.length
        | some stop => closingBracket first fuel stop

def firstElement (value : Bytes) : Bytes :=
  match value.dropWhile isspace with
  | [] => []
  | c :: rest => if c = openParen then rest.dropWhile isspace else c :: rest

def looksAssociative (value : Bytes) : Bool :=
  let first := firstElement value
  let k := closingBracket scanner first first.length 1
  first.head? = some openBracket && k < first.length && first[k + 1]? = some equalsSign

structure ParsedArray where
  kind : ShellArrayKind
  keys : List Bytes
  values : List Bytes
deriving DecidableEq, Repr

def shellParseArrayLiteral (value : Bytes) : Option ParsedArray :=
  if looksAssociative scanner value then
    (shellParseAssociativeArrayLiteral value).map fun elements =>
      ⟨.associative, elements.map Prod.fst, elements.map Prod.snd⟩
  else (shellParseArrayValues value).map fun items => ⟨.indexed, [], items⟩

end

end Pscal.Shell
