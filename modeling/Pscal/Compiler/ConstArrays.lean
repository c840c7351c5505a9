import Pscal.Symbol.Table
import Pscal.VM.Elements

/-!
# Array accesses with constant indices

`computeConstantArrayAccess` and `buildNestedArrayAccessChain` of `compiler.c`.

* `ConstTables`, `ConstExpr`  the constants in scope, and expressions by their ordinals;
* `TypeNode`, `Access`  the types of arrays, and accesses to them;
* `computeConstantArrayAccess`  the flat offset of an access, where it is folded;
* `buildNestedArrayAccessChain`  an access with many indices as a chain of accesses;
* `BuiltFrom`  the arrays that are built from a declared type.
-/

namespace Pscal.ConstArrays

open Elements

/-! ## constants -/

/-- The constants in scope, by their lower-case names; `none`: not an ordinal. -/
structure ConstTables where
  /-- `current_class_const_table`: those of the class whose method is compiled -/
  classConsts : List (String × Option Int64)
  compilerConstants : List (String × Option Int64)
  /-- the members of enums in the global symbol table -/
  enumMembers : List (String × Option Int64)

def findCompilerConstant (t : ConstTables) (name : String) : Option (Option Int64) :=
  (t.classConsts.lookup (toLowerString name)).or (t.compilerConstants.lookup (toLowerString name))

inductive ConstExpr where
  | number (v : Int64)
  | name (s : String)
  /-- every other expression, by the ordinal that its value has -/
  | other (ordinal : ConstTables → Option Int64)

/-- `valueToOrdinal` of what `evaluateCompileTimeValue` gives -/
def constOrdinal (t : ConstTables) : ConstExpr → Option Int
  | .number v => some v.toInt
  | .name s =>
    (((findCompilerConstant t s).or (t.enumMembers.lookup (toLowerString s))).join).map Int64.toInt
  | .other ordinal => (ordinal t).map Int64.toInt

/-! ## types and accesses -/

/-- A type, with what `resolveTypeAlias` puts for names; a dimension is a subrange (`none`: it is
not). -/
inductive TypeNode where
  | array (dims : List (Option (ConstExpr × ConstExpr))) (element : TypeNode)
  | other

inductive BaseKind where
  | variable | fieldAccess | dereference | other
deriving DecidableEq, Repr

def isValidConstArrayBase : BaseKind → Bool
  | .variable | .fieldAccess | .dereference => true
  | .other => false

/-- an expression; its type is what `resolveArrayTypeForExpression` gives -/
inductive Access where
  | base (kind : BaseKind) (type : TypeNode)
  /-- `AST_ARRAY_ACCESS`: one pair of brackets -/
  | index (left : Access) (children : List ConstExpr) (type : TypeNode)

namespace Access

/-- `resolveArrayTypeForExpression` -/
def type : Access → TypeNode
  | .base _ type => type
  | .index _ _ type => type

def root : Access → Access
  | .base kind type => .base kind type
  | .index left _ _ => left.root

def chainLen : Access → Nat
  | .base _ _ => 0
  | .index left _ _ => left.chainLen + 1

def indices : Access → List ConstExpr
  | .base _ _ => []
  | .index left children _ => left.indices ++ children

end Access

/-! ## folding -/

/-- arithmetic in a `long long` wraps -/
def longLong (v : Int) : Int := v.bmod (2 ^ 64)

structure ConstArrayDimInfo where
  index : Int
  lower : Int
  upper : Int
deriving DecidableEq, Repr

structure ConstArrayAccessInfo where
  baseExpr : Access
  elementType : TypeNode
  offset : Int
  dimCount : Nat

structure FoldState where
  currentType : TypeNode
  dimCursor : Nat := 0
  baseLevelDone : Bool := false
  dims : List ConstArrayDimInfo := []

def constBounds (t : ConstTables) (dim : Option (ConstExpr × ConstExpr)) : Option (Int × Int) := do
  let (lower, upper) ← dim
  return (← constOrdinal t lower, ← constOrdinal t upper)

def foldIndex (t : ConstTables) (st : FoldState) (e : ConstExpr) : Option FoldState :=
  if st.baseLevelDone = true then none
  else match st.currentType with
    | .other => none
    | .array dims element =>
      if dims.length ≤ st.dimCursor then none
      else do
        let index ← constOrdinal t e
        let (lower, upper) ← constBounds t (dims.getD st.dimCursor none)
        if index < lower ∨ index > upper then none
        else
          let infos := st.dims ++ [⟨index, lower, upper⟩]
          if dims.length ≤ st.dimCursor + 1 then
            return { currentType := element, dimCursor := 0, baseLevelDone := true, dims := infos }
          else return { st with dimCursor := st.dimCursor + 1, dims := infos }

def foldSegments (t : ConstTables) : Access → Option FoldState
  | .base kind type => if isValidConstArrayBase kind = true then some { currentType := type } else none
  | .index left children _ => do
    let st ← foldSegments t left
    children.foldlM (foldIndex t) st

def flatOffset (dims : List ConstArrayDimInfo) : Int :=
  (dims.foldr
    (fun d acc => (longLong (acc.1 + longLong ((d.index - d.lower) * acc.2)),
      longLong (acc.2 * (d.upper - d.lower + 1)))) (0, 1)).1

def computeConstantArrayAccess (t : ConstTables) (node : Access) : Option ConstArrayAccessInfo :=
  match node with
  | .base _ _ => none
  | .index _ _ _ =>
    if 64 < node.chainLen then none
    else do
      let st ← foldSegments t node
      if st.dims = [] ∨ st.dimCursor ≠ 0 then none
      else
        let offset := flatOffset st.dims
        if offset < 0 ∨ offset > 2 ^ 32 - 1 then none
        else return ⟨node.root, st.currentType, offset, st.dims.length⟩

/-! ## nesting -/

def directDims : TypeNode → Nat
  | .array dims _ => if dims = [] then 1 else dims.length
  | .other => 1

def elementType : TypeNode → TypeNode
  | .array _ element => element
  | .other => .other

/-- The loop of `buildNestedArrayAccessChain` for the indices that remain.  Where some remain behind a
segment, it took as many as its level has. -/
def nestAccesses (base : Access) (type : TypeNode) (remaining : List ConstExpr) : Option Access :=
  if remaining = [] then none
  else
    let segment := .index base (remaining.take (directDims type)) (elementType type)
    let rest := remaining.drop (directDims type)
    if rest = [] then some segment
    else nestAccesses segment (elementType type) rest
  termination_by remaining.length
  decreasing_by
    rename_i hne _
    rw [List.length_drop]
    have hpos := List.length_pos_of_ne_nil hne
    have hdirect : 0 < directDims type := by
      unfold directDims
      split
      · split
        · exact Nat.one_pos
        · exact List.length_pos_of_ne_nil ‹_›
      · exact Nat.one_pos
    omega

/-- `none`: the access stays as it is -/
def buildNestedArrayAccessChain (node : Access) : Option Access :=
  match node with
  | .base _ _ => none
  | .index left children _ =>
    if children.length ≤ 1 then none
    else match left.type with
      | .other => none
      | .array dims element =>
        if children.length ≤ directDims (.array dims element) then none
        else nestAccesses left (.array dims element) children

/-! ## arrays -/

/-- `vmCheckArrayDimension` and `makeArrayND` have made an array with the bounds of the type, as they
are in this scope; it holds at most 256 MB. -/
structure BuiltFrom (t : ConstTables) (dims : List (Option (ConstExpr × ConstExpr)))
    (bounds : List (Int × Int)) : Prop where
  bounds_eq : dims.mapM (constBounds t) = some bounds
  dimension : ∀ b ∈ bounds, -2 ^ 31 ≤ b.1 ∧ b.1 ≤ b.2 ∧ b.2 < 2 ^ 31
  size : (bounds.map span).prod ≤ 2 ^ 28

end Pscal.ConstArrays
