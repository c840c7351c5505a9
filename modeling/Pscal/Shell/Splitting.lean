import Pscal.Cache.Values

/-!
# Word splitting of the shell

`shell_command_utils.inc`: the fields that an expanded word is split into.

* `IfsVariable`, `shellCurrentIfs`  where the value of `IFS` comes from;
* `ExpandedWord`  the text with its quoted map and its flags;
* `shellSplitText`  a text without element separators;
* `shellJoinArrayValuesWithSeparator`  the text of an array's elements;
* `shellSplitExpandedWord`  any text, with a bound on how deep the calls nest (`none`: it is
  reached; the code recurses without one).
-/

namespace Pscal.Shell

open Wire List

/-! ## the separators -/

/-- what the splitting reads of a `local` variable -/
structure ShellLocalVariable where
  noValue : Bool
  value : Option CString
deriving DecidableEq, Repr

structure IfsVariable where
  «local» : Option ShellLocalVariable
  privileged : Bool
  environment : Option CString
deriving DecidableEq, Repr

def shellSafeGetenv (privileged : Bool) (environment : Option CString) : Option CString :=
  if privileged then none else environment

def shellCurrentIfs (v : IfsVariable) : Option CString :=
  match v.local with
  | some «local» => if «local».noValue then none else some («local».value.getD CString.empty)
  | none => shellSafeGetenv v.privileged v.environment

/-- `isspace` of the C locale -/
def isspace (b : UInt8) : Bool := b = 32 || (9 ≤ b && b ≤ 13)

def defaultIfs : Bytes := [32, 9, 10]

/-! ## words -/

def shellArrayElementSep : UInt8 := 0x1d

structure ExpandedWord where
  expanded : CString
  singleQuoted : Bool := false
  doubleQuoted : Bool := false
  quotedMap : Option (List Bool) := none
  arrayZero : Bool := false
deriving DecidableEq, Repr

namespace ExpandedWord

def baseQuoted (w : ExpandedWord) : Bool := w.singleQuoted || w.doubleQuoted

def fittingMap (w : ExpandedWord) : Option (List Bool) :=
  w.quotedMap.filter fun map => map.length = w.expanded.bytes.length

end ExpandedWord

abbrev MappedByte := UInt8 × Bool

section
variable (ifs : Bytes)

/-- an unquoted byte of `delim_map` -/
def delimiterByte (c : MappedByte) : Bool := !c.2 && decide (c.1 ∈ ifs)

/-- an unquoted byte of `whitespace_map` -/
def whitespaceByte (c : MappedByte) : Bool := !c.2 && (decide (c.1 ∈ ifs) && isspace c.1)

def shellSkipIfsWhitespace (cursor : List MappedByte) : List MappedByte :=
  cursor.dropWhile (whitespaceByte ifs)

def skipDelimiter (cursor : List MappedByte) : List MappedByte :=
  match shellSkipIfsWhitespace ifs cursor with
  | [] => []
  | c :: rest => if delimiterByte ifs c then shellSkipIfsWhitespace ifs rest else c :: rest

theorem length_skip_le (cursor : List MappedByte) :
    (shellSkipIfsWhitespace ifs cursor).length ≤ cursor.length :=
  Sublist.length_le (dropWhile_sublist _)

theorem length_skipDelimiter_le (cursor : List MappedByte) :
    (skipDelimiter ifs cursor).length ≤ (shellSkipIfsWhitespace ifs cursor).length := by
  unfold skipDelimiter
  split
  · next h => rw [h]
  · next c rest h =>
    rw [h]
    split
    · have := length_skip_le ifs rest
      rw [length_cons]
      omega
    · rfl

theorem length_skipDelimiter_lt (c : MappedByte) (rest : List MappedByte)
    (hc : ¬ (delimiterByte ifs c = true ∧ whitespaceByte ifs c = false)) :
    (skipDelimiter ifs ((c :: rest).dropWhile fun x => !delimiterByte ifs x)).length <
      (c :: rest).length := by
  refine Nat.lt_of_le_of_lt (length_skipDelimiter_le ifs _) ?_
  by_cases hd : delimiterByte ifs c = true
  · have hw : whitespaceByte ifs c = true := by
      rw [← Bool.not_eq_false]
      exact fun hw => hc ⟨hd, hw⟩
    rw [dropWhile_cons, hd, if_neg (by decide), shellSkipIfsWhitespace, dropWhile_cons, hw,
      if_pos rfl]
    exact Nat.lt_succ_of_le (length_skip_le ifs rest)
  · rw [Bool.not_eq_true] at hd
    rw [dropWhile_cons, hd, if_pos (by decide)]
    refine Nat.lt_succ_of_le (Nat.le_trans (length_skip_le ifs _) ?_)
    exact Sublist.length_le (dropWhile_sublist _)

/-- the loop over the text -/
def splitLoop : List MappedByte → List Bytes
  | [] => []
  | c :: rest =>
    if _hc : delimiterByte ifs c = true ∧ whitespaceByte ifs c = false then
      [] :: splitLoop (shellSkipIfsWhitespace ifs rest)
    else
      let span := (c :: rest).takeWhile fun x => !delimiterByte ifs x
      let after := skipDelimiter ifs ((c :: rest).dropWhile fun x => !delimiterByte ifs x)
      (if span = [] then [] else [span.map Prod.fst]) ++ splitLoop after
termination_by cursor => cursor.length
decreasing_by
  · exact Nat.lt_succ_of_le (length_skip_le ifs rest)
  · exact length_skipDelimiter_lt ifs c rest _hc

end

/-- the text from `use_map` on, which has no element separator -/
def shellSplitText (currentIfs : Option CString) (w : ExpandedWord) : List Bytes :=
  let text := w.expanded.bytes
  let useMap := if text = [] then none else w.fittingMap
  let quoted := w.baseQuoted || useMap.any fun map => map.all id
  if !quoted && text = [] then []
  else
    let ifs := if quoted then [] else currentIfs.elim defaultIfs CString.bytes
    if quoted || ifs = [] || text.all fun b => b ∉ ifs then [text]
    else
      let mapped := text.zip (useMap.getD (List.replicate text.length false))
      splitLoop ifs (shellSkipIfsWhitespace ifs mapped)

/-! ## element separators -/

def shellJoinArrayValuesWithSeparator (separator : UInt8) : List CString → Bytes
  | [] => []
  | item :: items => item.bytes ++ items.flatMap fun next => separator :: next.bytes

/-- a piece between element separators, where it starts, and whether a separator follows -/
structure Segment where
  offset : Nat
  text : Bytes
  next : Bool
deriving DecidableEq, Repr

def segmentsFrom (offset : Nat) (seen : Bytes) : Bytes → List Segment
  | [] => [⟨offset, seen, false⟩]
  | b :: rest =>
    if b = shellArrayElementSep then
      ⟨offset, seen, true⟩ :: segmentsFrom (offset + seen.length + 1) [] rest
    else segmentsFrom offset (seen ++ [b]) rest

/-- the text with its unquoted element separators replaced (`none`: there is none of them) -/
def joinElements (joinWith : UInt8) (text : Bytes) (map : Option (List Bool)) : Option Bytes :=
  let mapped := text.zip (map.getD (List.replicate text.length false))
  let joins := fun c : MappedByte => decide (c.1 = shellArrayElementSep) && !c.2
  if mapped.any joins then some (mapped.map fun c => if joins c then joinWith else c.1) else none

def Segment.kept (w : ExpandedWord) (s : Segment) : Bool :=
  let quotedAt := fun i => w.fittingMap.any fun map => map[i]?.getD false
  let sepQuoted := w.baseQuoted || (s.next && quotedAt (s.offset + s.text.length)) ||
    (!s.next && decide (0 < s.offset) && quotedAt (s.offset - 1))
  w.baseQuoted || (s.text = [] && sepQuoted)

def Segment.word (w : ExpandedWord) (s : Segment) : ExpandedWord where
  expanded := .ofBuffer s.text
  quotedMap := w.fittingMap.map fun map => (map.drop s.offset).take s.text.length

def shellSplitExpandedWord (v : IfsVariable) : Nat → ExpandedWord → Option (List Bytes)
  | 0, _ => none
  | fuel + 1, w =>
    if w.arrayZero ∧ w.expanded.bytes = [] then some []
    else if shellArrayElementSep ∈ w.expanded.bytes then
      let joinWith := (shellCurrentIfs v).elim 32 fun ifs => ifs.bytes.head?.getD 0
      let joined := if !w.baseQuoted && joinWith ≠ 0 then
        joinElements joinWith w.expanded.bytes w.fittingMap else none
      match joined with
      | some text =>
        shellSplitExpandedWord v fuel { w with expanded := .ofBuffer text, arrayZero := false }
      | none => do
        let pieces ← (segmentsFrom 0 [] w.expanded.bytes).mapM fun s =>
          if s.kept w then some [s.text] else shellSplitExpandedWord v fuel (s.word w)
        some pieces.flatten
    else some (shellSplitText (shellCurrentIfs v) w)

end Pscal.Shell
