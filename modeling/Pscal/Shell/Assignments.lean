import Mathlib
import Pscal.Paths.Truncate
import Pscal.Shell.Arrays
import Pscal.Shell.Identifiers
import Pscal.Symbol.Buckets

/-!
# Prefix assignments of the shell

`shell_command_utils.inc`, `shell_runtime_state.inc`: the assignments in front of a command, which
hold for the length of it.

* `ShellVariables`  the environment, the export flags, the arrays, the local scopes;
* `ShellWorld`  what arithmetic and expansion give;
* `shellSetTrackedVariable`, `shellArrayRegistrySetElementIn`, `shellUnsetTrackedVariable`  the
  setters;
* `ShellAssignmentBackup`  what is saved of a variable;
* `shellApplyAssignments`, `shellRestoreAssignments`  the assignments, and the way back.

Allocations do not fail.  The name of the last readonly error, and what is reported, are not part of
the variables.
-/

namespace Pscal.Shell

open Wire (Bytes)
open Paths (ascii)

/-! ## variables -/

/-- `ShellLocalVariable` -/
structure ScopedVariable where
  value : Option Bytes := none
  isArrayLiteral : Bool := false
  exported : Bool := false
  noValue : Bool := false
  shadowsArray : Bool := false
  shadowsAssociative : Bool := false
  attributes : Nat := 0
deriving DecidableEq, Repr

/-- `ShellLocalScopeFrame` -/
abbrev ScopeFrame := Bytes → Option ScopedVariable

structure ShellVariables where
  environment : Bytes → Option Bytes
  unexported : Bytes → Bool
  pending : Bytes → Bool
  arrays : Bytes → Option ShellArrayVariable
  frames : List ScopeFrame
  readonly : Bytes → Bool
  privileged : Bool
  allexport : Bool
  /-- `pipeline_subshell_active || local_scope_active` -/
  localizing : Bool
  ifsUnset : Bool
  randomSeed : Option Nat
  secondsBase : Int

inductive ArithmeticUse where
  | subscript (name text : Bytes)
  | keys (name text : Bytes)
  | attributes (name text : Bytes)

structure ShellWorld where
  scanner : WordScanner
  valuation : ShellVariables → Valuation
  /-- the variables behind the evaluation -/
  evaluated : ShellVariables → ArithmeticUse → ShellVariables
  /-- `shellApplyVariableAttributes` -/
  attributed : ShellVariables → Bytes → Bytes → Option Bytes
  time : Int

namespace ShellVariables

/-- `shellSafeGetenv` -/
def getenv (s : ShellVariables) (name : Bytes) : Option Bytes :=
  if s.privileged then none else s.environment name

def setenv (s : ShellVariables) (name text : Bytes) : ShellVariables :=
  { s with environment := Function.update s.environment name (some text) }

def unsetenv (s : ShellVariables) (name : Bytes) : ShellVariables :=
  { s with environment := Function.update s.environment name none }

/-! ## export flags -/

def shellGlobalIsExported (s : ShellVariables) (name : Bytes) : Bool :=
  if (s.getenv name).isSome then !s.unexported name else s.pending name

def shellExportNoteNewVariable (s : ShellVariables) (name : Bytes) : ShellVariables :=
  if s.pending name then { s with pending := Function.update s.pending name false }
  else { s with unexported := Function.update s.unexported name true }

def shellExportMarkExported (s : ShellVariables) (name : Bytes) : ShellVariables :=
  if s.unexported name then { s with unexported := Function.update s.unexported name false }
  else if (s.getenv name).isNone then { s with pending := Function.update s.pending name true }
  else s

def shellExportMarkUnexported (s : ShellVariables) (name : Bytes) : ShellVariables :=
  { s with
    pending := Function.update s.pending name false
    unexported :=
      if (s.getenv name).isSome then Function.update s.unexported name true else s.unexported }

def shellExportForget (s : ShellVariables) (name : Bytes) : ShellVariables :=
  { s with
    pending := Function.update s.pending name false
    unexported := Function.update s.unexported name false }

/-! ## local scopes -/

def shellLocalScopeFind (s : ShellVariables) (name : Bytes) : Option ScopedVariable :=
  s.frames.findSome? fun frame => frame name

/-- in the innermost frame that has the name -/
def updateFrames (f : ScopedVariable → ScopedVariable) (name : Bytes) :
    List ScopeFrame → List ScopeFrame
  | [] => []
  | frame :: frames =>
    match frame name with
    | some var => Function.update frame name (some (f var)) :: frames
    | none => frame :: updateFrames f name frames

def updateLocal (s : ShellVariables) (name : Bytes) (f : ScopedVariable → ScopedVariable) :
    ShellVariables :=
  { s with frames := updateFrames f name s.frames }

def inCurrentFrame (s : ShellVariables) (name : Bytes) : Bool :=
  s.frames.head?.any fun frame => (frame name).isSome

/-- export, declare -x and the like act on what the name means here -/
def shellVariableSetExported (s : ShellVariables) (name : Bytes) (exported : Bool) :
    ShellVariables :=
  if (s.shellLocalScopeFind name).isSome then
    s.updateLocal name fun var => { var with exported }
  else if exported then s.shellExportMarkExported name
  else s.shellExportMarkUnexported name

/-! ## arrays -/

/-- `shellArrayRegistryRemove` -/
def removeArray (s : ShellVariables) (name : Bytes) : ShellVariables :=
  { s with arrays := Function.update s.arrays name none }

section
variable (w : ShellWorld)

/-- `shellArrayRegistryAssignFromText` -/
def assignFromText (s : ShellVariables) (name : Bytes) (text : Option Bytes) : ShellVariables :=
  let behind := text.elim s fun text => w.evaluated s (.keys name text)
  let entry :=
    shellArrayRegistryAssignFromText (w.valuation s) w.scanner (s.arrays name) text
  { behind with arrays := Function.update behind.arrays name entry }

def readArray (s : ShellVariables) (name : Bytes) (text : Option Bytes) (isArrayLiteral : Bool) :
    ShellVariables :=
  if isArrayLiteral then assignFromText w s name text else s.removeArray name

def shellArrayRegistryRestoreVisibleValue (s : ShellVariables) (name : Bytes) : ShellVariables :=
  match (s.shellLocalScopeFind name).filter fun var => var.isArrayLiteral with
  | some shadow => assignFromText w s name (some (shadow.value.getD []))
  | none => if (s.getenv name).isSome then assignFromText w s name (s.getenv name)
    else s.removeArray name

end

/-- -1, 0 and 1 of the source are `none`, `some false` and `some true` -/
def shellParseEnvBool (value : Option Bytes) : Option Bool :=
  value.bind fun value =>
    let text := Buckets.toLowerString (value.dropWhile isspace)
    if text = ascii "1" ∨ text = ascii "true" ∨ text = ascii "yes" ∨ text = ascii "on" then some true
    else if text = ascii "0" ∨ text = ascii "false" ∨ text = ascii "no" ∨ text = ascii "off" then
      some false
    else none

def shellAssociativeArraysSupported (s : ShellVariables) : Bool :=
  shellParseEnvBool (s.getenv (ascii "PSCALSHELL_ASSOC_ARRAYS")) ≠ some false

/-- `shellArrayRegistrySetElement`: the element goes to the array and to the environment, whatever
local the name has -/
def setElement (w : ShellWorld) (s : ShellVariables) (name subscript text : Bytes) :
    Bool × ShellVariables :=
  if s.readonly name then (false, s)
  else
    let subscript := trimSpaces subscript
    let plain := declaredAssociative (s.arrays name) || shellSubscriptIsNumeric subscript
    let behind := if plain then s else w.evaluated s (.subscript name subscript)
    let key :=
      if plain then some subscript
      else shellParamSubscriptKey (w.valuation s) (behind.arrays name) subscript
    match key with
    | none => (false, behind)
    | some key =>
      let found := (s.arrays name).isSome
      let before := if found then (behind.arrays name).getD (.indexed []) else .indexed []
      let stored := storeElement behind.shellAssociativeArraysSupported before key text
      let entry := if found then some stored.2 else (behind.arrays name).or (some stored.2)
      let behind := { behind with arrays := Function.update behind.arrays name entry }
      (stored.1, if stored.1 then behind.setenv name (shellBuildArrayLiteral stored.2) else behind)

/-! ## the setters -/

section
variable (w : ShellWorld)

/-- of a name that may be new in the current frame -/
def shellLocalScopeSetOnCurrentFrame (s : ShellVariables) (name text : Bytes)
    (isArrayLiteral : Bool) : ShellVariables :=
  match s.frames with
  | [] => s
  | frame :: frames =>
    let outer := s.shellLocalScopeFind name
    let fresh : ScopedVariable :=
      { exported := s.allexport || outer.elim (s.shellGlobalIsExported name) (·.exported)
        shadowsArray := (s.arrays name).isSome
        shadowsAssociative := declaredAssociative (s.arrays name) }
    let var := (frame name).getD fresh
    let var := { var with value := some text, isArrayLiteral, noValue := false }
    readArray w { s with frames := Function.update frame name (some var) :: frames } name
      (some text) isArrayLiteral

def shellLocalScopeAssignExisting (s : ShellVariables) (name text : Bytes) (isArrayLiteral : Bool) :
    ShellVariables :=
  s.updateLocal name fun var =>
    { var with
      value := some text, isArrayLiteral, noValue := false, exported := var.exported || s.allexport }

/-- `none`: the name is not local -/
def shellLocalScopeUnset (s : ShellVariables) (name : Bytes) : Option ShellVariables :=
  match s.shellLocalScopeFind name with
  | none => none
  | some var =>
    let s := if var.isArrayLiteral then s.removeArray name else s
    if s.inCurrentFrame name then
      -- in the function that made it the name stays local
      some (s.updateLocal name fun var =>
        { var with
          value := none, shadowsArray := var.shadowsArray || var.isArrayLiteral
          isArrayLiteral := false, exported := false, noValue := true, attributes := 0 })
    else
      let gone := { s with frames := removeFromFrames name s.frames }
      some (if var.isArrayLiteral then gone.shellArrayRegistryRestoreVisibleValue w name else gone)
where
  removeFromFrames (name : Bytes) : List ScopeFrame → List ScopeFrame
    | [] => []
    | frame :: frames =>
      if (frame name).isSome then Function.update frame name none :: frames
      else frame :: removeFromFrames name frames

/-- An assignment outside of a scope that is to take it stays global. -/
def localizes (s : ShellVariables) (name : Bytes) : Bool :=
  (s.shellLocalScopeFind name).isNone && s.localizing && !s.frames.isEmpty

def setGlobalText (s : ShellVariables) (name text : Bytes) : ShellVariables :=
  let isNew := (s.getenv name).isNone
  let s := if s.getenv name = some text then s else s.setenv name text
  let s := if isNew then s.shellExportNoteNewVariable name else s
  if s.allexport then s.shellExportMarkExported name else s

def setGlobal (s : ShellVariables) (name text : Bytes) (isArrayLiteral : Bool) : ShellVariables :=
  let s := s.setGlobalText name text
  if isArrayLiteral then
    let s := s.shellExportMarkUnexported name
    assignFromText w s name (s.getenv name)
  else s.removeArray name

def shellSetTrackedVariable (s : ShellVariables) (name text : Bytes) (isArrayLiteral : Bool) :
    Bool × ShellVariables :=
  if s.readonly name then (false, s)
  else
    let s :=
      if s.localizes name then shellLocalScopeSetOnCurrentFrame w s name text isArrayLiteral else s
    if (s.shellLocalScopeFind name).isSome then
      let s := s.shellLocalScopeAssignExisting name text isArrayLiteral
      let s := readArray w s name (some text) isArrayLiteral
      (true, if name = ascii "EXSH_LAST_STATUS" then s.setenv name text else s)
    else (true, setGlobal w s name text isArrayLiteral)

def shellUnsetTrackedVariable (s : ShellVariables) (name : Bytes) : ShellVariables :=
  match shellLocalScopeUnset w s name with
  | some s => s
  | none =>
    let s := s.unsetenv name
    let s := if name = ascii "IFS" then { s with ifsUnset := true } else s
    (s.shellExportForget name).removeArray name

/-- `RANDOM` and `SECONDS` are kept elsewhere -/
def shellHandleSpecialAssignment (s : ShellVariables) (name value : Bytes) :
    Option ShellVariables :=
  if name = ascii "RANDOM" then
    let overflows := 2 ^ 64 ≤ DecimalText.value ((behindSign value).takeWhile DecimalText.isDigit)
    some { s with randomSeed := some (if overflows then 0 else strtoull value % 2 ^ 32) }
  else if name = ascii "SECONDS" then some { s with secondsBase := w.time - (strtol value).1 }
  else none

end

end ShellVariables

/-! ## assignments -/

structure ShellAssignmentEntry where
  text : Bytes
  isArrayLiteral : Bool
deriving DecidableEq, Repr

def bracketsClose : Bool → Bytes → Bool
  | inBrackets, [] => !inBrackets
  | true, ch :: rest => bracketsClose (ch ≠ closeBracket) rest
  | false, ch :: rest => ch = openBracket && bracketsClose true rest

/-- the name, with its subscript, and the value -/
def shellParseAssignment (assignment : Bytes) : Option (Bytes × Bytes) :=
  let name := assignment.takeWhile (· ≠ equalsSign)
  if name.length = assignment.length then none
  else
    match consumeShellIdentifier name false with
    | none => none
    | some length =>
      if bracketsClose false (name.drop length) then some (name, assignment.drop (name.length + 1))
      else none

def shellExtractArrayNameAndSubscript (text : Bytes) : Option (Bytes × Bytes) :=
  let name := text.takeWhile (· ≠ openBracket)
  if name.length = text.length ∨ text.getLast? ≠ some closeBracket ∨ name = [] then none
  else some (name, (text.drop (name.length + 1)).dropLast)

structure AssignmentTarget where
  name : Bytes
  subscript : Option Bytes
  value : Bytes
deriving DecidableEq, Repr

def assignmentTarget (s : ShellVariables) (assignment : Bytes) : Option AssignmentTarget :=
  (shellParseAssignment assignment).map fun (name, value) =>
    match shellExtractArrayNameAndSubscript name with
    | some (base, subscript) =>
      if !shellSubscriptIsNumeric subscript && !s.shellAssociativeArraysSupported then
        ⟨name, none, value⟩
      else ⟨base, some subscript, value⟩
    | none => ⟨name, none, value⟩

structure ShellAssignmentBackup where
  name : Bytes
  previousValue : Bytes
  hadPrevious : Bool
  previousWasArray : Bool
  wasExported : Bool
  wasPendingExport : Bool
  previousNoValue : Bool
deriving DecidableEq, Repr

namespace ShellVariables

section
variable (w : ShellWorld)

/-- what is saved of a name -/
def backup (s : ShellVariables) (name : Bytes) : ShellAssignmentBackup :=
  match s.shellLocalScopeFind name with
  | some var =>
    { name, previousValue := var.value.getD [], hadPrevious := true
      previousWasArray := var.isArrayLiteral, wasExported := var.exported
      wasPendingExport := false, previousNoValue := var.noValue }
  | none =>
    { name, previousValue := (s.getenv name).getD [], hadPrevious := (s.getenv name).isSome
      previousWasArray := (s.getenv name).isSome && (s.arrays name).isSome
      wasExported := s.shellGlobalIsExported name, wasPendingExport := s.pending name
      previousNoValue := false }

def restoreBackup (b : ShellAssignmentBackup) (s : ShellVariables) : ShellVariables :=
  if b.hadPrevious then
    let s := (shellSetTrackedVariable w s b.name b.previousValue b.previousWasArray).2
    let s := s.shellVariableSetExported b.name b.wasExported
    if b.previousNoValue then s.updateLocal b.name fun var => { var with noValue := true } else s
  else
    let s := shellUnsetTrackedVariable w s b.name
    if b.wasPendingExport then s.shellExportMarkExported b.name else s

def shellRestoreAssignments (backups : List ShellAssignmentBackup) (s : ShellVariables) :
    ShellVariables :=
  backups.foldl (fun s b => restoreBackup w b s) s

/-- the value that is assigned, and the variables behind the evaluation of it -/
def assignedValue (forCommand : Bool) (s : ShellVariables) (t : AssignmentTarget)
    (isArrayLiteral : Bool) : Bytes × ShellVariables :=
  if isArrayLiteral || forCommand then (t.value, s)
  else ((w.attributed s t.name t.value).getD t.value, w.evaluated s (.attributes t.name t.value))

def assign (forCommand : Bool) (s : ShellVariables) (t : AssignmentTarget) (isArrayLiteral : Bool) :
    Bool × ShellVariables :=
  let (assigned, s) := assignedValue w forCommand s t isArrayLiteral
  match t.subscript with
  | some subscript => setElement w s t.name subscript assigned
  | none => shellSetTrackedVariable w s t.name assigned isArrayLiteral

/-- what a command starts sees its assignments, but for arrays -/
def assignEntry (forCommand : Bool) (s : ShellVariables) (t : AssignmentTarget)
    (isArrayLiteral : Bool) : Bool × ShellVariables :=
  let r := assign w forCommand s t isArrayLiteral
  if r.1 && forCommand && t.subscript.isNone && !isArrayLiteral then
    (true, r.2.shellVariableSetExported t.name true)
  else r

/-- the backups of the assignments, in their order; false at an invalid one -/
def applyAssignments (forCommand : Bool) : List ShellAssignmentEntry → ShellVariables →
    Bool × List ShellAssignmentBackup × ShellVariables
  | [], s => (true, [], s)
  | entry :: entries, s =>
    match assignmentTarget s entry.text with
    | none => (false, [], s)
    | some t =>
      match shellHandleSpecialAssignment w s t.name t.value with
      | some s => applyAssignments forCommand entries s
      | none =>
        let r := assignEntry w forCommand s t entry.isArrayLiteral
        let (ok, backups, behind) := applyAssignments forCommand entries r.2
        -- `shellReadonlyGetErrorName` is never null, so every failure is taken for a readonly name
        (ok, if r.1 then s.backup t.name :: backups else backups, behind)

def shellApplyAssignments (forCommand : Bool) (entries : List ShellAssignmentEntry)
    (s : ShellVariables) : Bool × List ShellAssignmentBackup × ShellVariables :=
  match applyAssignments w forCommand entries s with
  | (true, backups, s) => (true, backups, s)
  | (false, backups, s) => (false, [], shellRestoreAssignments w backups s)

end

end ShellVariables

end Pscal.Shell
