import Pscal.Lib.LexicalPath

/-!
# Virtual paths

`common/path_truncate.c`: the names that programs see, and the files of the host behind them.

* `PathWorld`  the environment, and the table of mounts;
* `pathTruncateNormalizeAbsolute`  a path without `.` and `..`, in a buffer;
* `pathTruncateFetchPrefix`  the prefix in force, with its alias;
* `pathTruncateMountAdd`, `pathTruncateMountRemove`  the mount table;
* `pathTruncateExpand`  the host path of a name;
* `pathTruncateStrip`  the name of a host path.

A function that writes to a buffer takes the size of it.  The files under `/proc` that an expansion
refreshes are not part of the model.
-/

namespace Pscal.Paths

open Wire (Bytes)
open LexicalPath

inductive PathErrno where
  | EINVAL | ENAMETOOLONG | ENOENT | ENOSPC
deriving DecidableEq, Repr

def ascii (s : String) : Bytes := s.toList.map fun c => UInt8.ofNat c.toNat

/-- a row of `g_pathTruncateMounts` -/
structure MountEntry where
  source : Bytes
  target : Bytes
  type : Bytes
  options : Bytes
  flags : UInt64
deriving DecidableEq, Repr

structure PathWorld where
  /-- `PATH_MAX` -/
  pathMax : Nat
  getenv : String → Option Bytes
  realpath : Bytes → Option Bytes
  mounts : List MountEntry

/-! ## normal forms -/

/-- the buffer, and the lengths to go back to, the last one first -/
structure Normalizing where
  out : Bytes
  anchors : List Nat
deriving DecidableEq, Repr

def normalizeSegment (pathMax outSize : Nat) (st : Normalizing) (segment : Bytes) :
    Except PathErrno Normalizing :=
  if segment = dot then .ok st
  else if segment = dotDot then
    match st.anchors with
    | [] => .ok st
    | anchor :: anchors => .ok ⟨st.out.take anchor, anchors⟩
  else if st.anchors.length ≥ pathMax / 2 then .error .ENAMETOOLONG
  else if st.out.length > 1 ∧ st.out.length + 1 ≥ outSize then .error .ENAMETOOLONG
  else
    let out := if st.out.length > 1 then st.out ++ [slash] else st.out
    if out.length + segment.length ≥ outSize then .error .ENAMETOOLONG
    else
      let anchor := if out.length > 1 then out.length - 1 else 1
      .ok ⟨out ++ segment, anchor :: st.anchors⟩

def pathTruncateNormalizeAbsolute (pathMax : Nat) (input : Bytes) (outSize : Nat) :
    Except PathErrno Bytes :=
  if outSize < 2 then .error .EINVAL
  else if input.head? ≠ some slash then .error .EINVAL
  else do
    let st ← (segments input).foldlM (normalizeSegment pathMax outSize) ⟨[slash], []⟩
    .ok st.out

def atBoundary (s : Bytes) : Bool := s.head?.all (· = slash)

def pathTruncatePrefixMatch (path pre : Bytes) : Bool :=
  pre ≠ [] && pre.isPrefixOf path && atBoundary (path.drop pre.length)

def pathTruncateCopyString (source : Bytes) (outSize : Nat) : Except PathErrno Bytes :=
  if source.length ≥ outSize then .error .ENAMETOOLONG else .ok source

/-! ## the prefix -/

/-- `g_pathTruncatePrimary` and `g_pathTruncateAlias`, which is empty where there is none -/
structure StoredPrefix where
  primary : Bytes
  «alias» : Bytes
deriving DecidableEq, Repr

def pathTruncateStorePrefix (pathMax : Nat) (source : Bytes) : StoredPrefix :=
  let primary := source.take (pathMax - 1)
  let prefixPrivate := ascii "/private"
  if primary.length > prefixPrivate.length ∧ prefixPrivate.isPrefixOf primary then
    let rest := primary.drop prefixPrivate.length
    ⟨primary, if rest.length < pathMax then rest else []⟩
  else if pathTruncatePrefixMatch primary (ascii "/var") then
    let longer := prefixPrivate ++ primary
    ⟨primary, if longer.length < pathMax then longer else []⟩
  else ⟨primary, []⟩

/-- all but the first byte may be a slash that is dropped at the end -/
def dropTrailingSlashes (t : Bytes) : Bytes :=
  let kept := (t.reverse.dropWhile (· = slash)).reverse
  if kept = [] then t.take 1 else kept

def isAbsolute (t : Bytes) : Bool := t.head? = some slash

namespace PathWorld

variable (w : PathWorld)

def nonempty (name : String) : Option Bytes := (w.getenv name).filter (· ≠ [])

def pathTruncateFetchPrefix : Option StoredPrefix :=
  if (w.nonempty "PSCALI_PATH_TRUNCATE_DISABLED").isSome then none
  else
    let env := (w.nonempty "PATH_TRUNCATE").or
      ((w.nonempty "PSCALI_CONTAINER_ROOT").or (w.getenv "HOME"))
    match env.filter isAbsolute with
    | none => none
    | some env =>
      let stored := pathTruncateStorePrefix w.pathMax
        (dropTrailingSlashes ((w.realpath env).getD env))
      if stored.primary = [slash] then
        match (w.getenv "HOME").filter isAbsolute with
        | some home => some (pathTruncateStorePrefix w.pathMax (dropTrailingSlashes home))
        | none => some stored
      else some stored

end PathWorld

/-- which spelling of the prefix a path starts with -/
inductive PrefixMatched where
  | primary | «alias»
deriving DecidableEq, Repr

def pathTruncateMatchesStoredPrefix (stored : StoredPrefix) (path : Bytes) :
    Option (PrefixMatched × Nat) :=
  if path = [] ∨ stored.primary = [] then none
  else if pathTruncatePrefixMatch path stored.primary then
    some (.primary, stored.primary.length)
  else if pathTruncatePrefixMatch path stored.«alias» then
    some (.«alias», stored.«alias».length)
  else none

/-! ## mounts -/

def maxMounts : Nat := 64

/-- the order of `pathTruncateMountCompareByTargetLength`: longer targets first -/
def mountBefore (a b : MountEntry) : Bool :=
  if a.target.length = b.target.length then decide (a.target ≤ b.target)
  else decide (b.target.length < a.target.length)

def pathTruncateMountSort (mounts : List MountEntry) : List MountEntry :=
  if mounts.length ≤ 1 then mounts else mounts.mergeSort mountBefore

/-- the first row of the target is replaced, or a row added at the end -/
def setMount (mounts : List MountEntry) (target : Bytes) (f : MountEntry → MountEntry) :
    List MountEntry :=
  match mounts.findIdx? (·.target = target) with
  | some i => mounts.modify i f
  | none => mounts ++ [f ⟨[], [], [], [], 0⟩]

/-- the result, and the table, which a type or options that do not fit leave changed and unsorted -/
def pathTruncateMountAdd (pathMax : Nat) (mounts : List MountEntry)
    (sourcePath targetPath type options : Bytes) (flags : UInt64) :
    Except PathErrno Unit × List MountEntry :=
  if ¬ isAbsolute sourcePath ∨ ¬ isAbsolute targetPath then (.error .EINVAL, mounts)
  else
    match pathTruncateNormalizeAbsolute pathMax sourcePath pathMax,
        pathTruncateNormalizeAbsolute pathMax targetPath pathMax with
    | .ok source, .ok target =>
      let known := mounts.any (·.target = target)
      if ¬ known ∧ mounts.length ≥ maxMounts then (.error .ENOSPC, mounts)
      else
        let entryType := if type = [] then ascii "auto" else type
        let entryOptions := if options = [] then ascii "rw" else options
        if entryType.length ≥ 32 then
          (.error .ENAMETOOLONG, setMount mounts target fun e =>
            { e with source := source, target := target, type := entryType.take 31 })
        else if entryOptions.length ≥ 128 then
          (.error .ENAMETOOLONG, setMount mounts target fun e =>
            { e with source := source, target := target, type := entryType
                     options := entryOptions.take 127 })
        else
          (.ok (), pathTruncateMountSort (setMount mounts target fun _ =>
            ⟨source, target, entryType, entryOptions, flags⟩))
    | .error e, _ => (.error e, mounts)
    | _, .error e => (.error e, mounts)

def pathTruncateMountRemove (pathMax : Nat) (mounts : List MountEntry) (targetPath : Bytes) :
    Except PathErrno Unit × List MountEntry :=
  if ¬ isAbsolute targetPath then (.error .EINVAL, mounts)
  else
    match pathTruncateNormalizeAbsolute pathMax targetPath pathMax with
    | .error e => (.error e, mounts)
    | .ok target =>
      match mounts.findIdx? (·.target = target) with
      | none => (.error .ENOENT, mounts)
      | some i => (.ok (), mounts.eraseIdx i)

def mountPath (root suffix : Bytes) : Bytes :=
  if root = [slash] then (if suffix = [] then [slash] else suffix) else root ++ suffix

def fits (outSize : Nat) (path : Bytes) : Option Bytes :=
  if path.length < outSize then some path else none

/-- the first mount of the table whose target the path is under -/
def mountOver (mounts : List MountEntry) (path : Bytes) : Option MountEntry :=
  mounts.find? fun entry => pathTruncatePrefixMatch path entry.target

def pathTruncateResolveMountedPath (mounts : List MountEntry) (path : Bytes) (outSize : Nat) :
    Option Bytes :=
  match mountOver mounts path with
  | none => none
  | some entry => fits outSize (mountPath entry.source (path.drop entry.target.length))

/-- the mount with the longest source that the path is under, the first of them -/
def mountUnder (mounts : List MountEntry) (path : Bytes) : Option MountEntry :=
  mounts.foldl (fun best entry =>
    if pathTruncatePrefixMatch path entry.source &&
        decide ((best.elim 0 fun b => b.source.length) < entry.source.length) then some entry
    else best) none

def pathTruncateStripMountedPath (mounts : List MountEntry) (path : Bytes) (outSize : Nat) :
    Option Bytes :=
  match mountUnder mounts path with
  | none => none
  | some entry => fits outSize (mountPath entry.target (path.drop entry.source.length))

/-- a path that no mount is over: under the prefix, unless the path has it already -/
def prefixedPath (stored : StoredPrefix) (path : Bytes) (outSize : Nat) : Except PathErrno Bytes :=
  match pathTruncateMatchesStoredPrefix stored path with
  | some (.primary, _) => pathTruncateCopyString path outSize
  | some (.«alias», matchedLen) =>
    pathTruncateCopyString (stored.primary ++ path.drop matchedLen) outSize
  | none =>
    let trimmed := path.dropWhile (· = slash)
    if trimmed = [] then pathTruncateCopyString stored.primary outSize
    else pathTruncateCopyString (stored.primary ++ [slash] ++ trimmed) outSize

/-! ## what passes through -/

def pathTruncatePathIsUsrBinTree (path : Bytes) : Bool :=
  isAbsolute path && pathTruncatePrefixMatch path (ascii "/usr/bin")

def systemPrefixes : List Bytes := ["/System", "/usr", "/Library", "/Applications"].map ascii

def envRoots : List String :=
  ["PSCALI_INSTALL_ROOT", "PSCAL_INSTALL_ROOT", "PSCAL_INSTALL_ROOT_RESOLVED", "PASCAL_LIB_DIR",
    "CLIKE_LIB_DIR", "REA_LIB_DIR", "PSCALI_ETC_ROOT", "PSCALI_DOCS_ROOT", "PSCAL_EXAMPLES_ROOT",
    "PSCALI_SYSFILES_ROOT"]

/-- what follows `/etc` or `/private/etc` -/
def etcSuffix (path : Bytes) : Option Bytes :=
  if pathTruncatePrefixMatch path (ascii "/etc") then some (path.drop 4)
  else if pathTruncatePrefixMatch path (ascii "/private/etc") then some (path.drop 12)
  else none

def deviceNodes : List Bytes :=
  ["/dev/null", "/dev/zero", "/dev/random", "/dev/urandom"].map ascii

namespace PathWorld

variable (w : PathWorld)

def pathTruncateMatchesEnvRoot (path : Bytes) (envName : String) : Bool :=
  match (w.getenv envName).filter isAbsolute with
  | none => false
  | some value =>
    let root := dropTrailingSlashes value
    let privatePrefix := ascii "/private"
    pathTruncatePrefixMatch path root ||
      (if root.length > privatePrefix.length ∧ privatePrefix.isPrefixOf root then
        pathTruncatePrefixMatch path (root.drop privatePrefix.length)
      else privatePrefix.isPrefixOf path &&
        pathTruncatePrefixMatch (path.drop privatePrefix.length) root)

def pathTruncateIsSystemPath (path : Bytes) : Bool :=
  isAbsolute path && !pathTruncatePathIsUsrBinTree path &&
    (systemPrefixes.any (pathTruncatePrefixMatch path) ||
      envRoots.any (w.pathTruncateMatchesEnvRoot path))

/-- `PSCALI_ETC_ROOT`, if it is absolute -/
def etcRoot : Option Bytes := (w.getenv "PSCALI_ETC_ROOT").filter isAbsolute

def passesThrough (path : Bytes) : Bool :=
  ((etcSuffix path).isSome && w.etcRoot.isNone) || w.pathTruncateIsSystemPath path ||
    decide (path ∈ deviceNodes)

/-- `/dev/fd` is `/proc/self/fd` -/
def procFd (path : Bytes) : Bytes :=
  if pathTruncatePrefixMatch path (ascii "/dev/fd") then
    (ascii "/proc/self/fd" ++ path.drop 7).take (w.pathMax - 1)
  else path

/-- `source_path` of a path that does not pass through -/
def sourcePath (path : Bytes) : Bytes :=
  w.procFd ((pathTruncateNormalizeAbsolute w.pathMax path w.pathMax).toOption.getD path)

/-! ## expanding and stripping -/

/-- the host path of a path that does not pass through -/
def mappedPath (stored : StoredPrefix) (path : Bytes) (outSize : Nat) : Except PathErrno Bytes :=
  match w.etcRoot, etcSuffix path with
  | some root, some suffix => pathTruncateCopyString (root ++ suffix) outSize
  | _, _ =>
    match pathTruncateResolveMountedPath w.mounts path outSize with
    | some host => .ok host
    | none => prefixedPath stored path outSize

def pathTruncateExpand (inputPath : Bytes) (outSize : Nat) : Except PathErrno Bytes :=
  if outSize = 0 then .error .EINVAL
  else
    match w.pathTruncateFetchPrefix with
    | none => pathTruncateCopyString inputPath outSize
    | some stored =>
      if !isAbsolute inputPath || w.passesThrough inputPath then
        pathTruncateCopyString inputPath outSize
      else w.mappedPath stored (w.sourcePath inputPath) outSize

def pathTruncateStrip (absolutePath : Bytes) (outSize : Nat) : Except PathErrno Bytes :=
  if outSize = 0 then .error .EINVAL
  else
    let path := (pathTruncateNormalizeAbsolute w.pathMax absolutePath w.pathMax).toOption.getD
      absolutePath
    match pathTruncateStripMountedPath w.mounts path outSize with
    | some name => .ok name
    | none =>
      match w.pathTruncateFetchPrefix with
      | none => pathTruncateCopyString path outSize
      | some stored =>
        match pathTruncateMatchesStoredPrefix stored path with
        | none => pathTruncateCopyString path outSize
        | some (_, matchedLen) =>
          let remainder := (path.drop matchedLen).dropWhile (· = slash)
          if remainder = [] then pathTruncateCopyString [slash] outSize
          else pathTruncateCopyString (slash :: remainder) outSize

end PathWorld

end Pscal.Paths
