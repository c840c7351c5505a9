import Pscal.Core.Reals

/-!
# The ways to call a routine

The frame that `CALL`, `CALL_USER_PROC`, `CALL_INDIRECT` and `PROC_CALL_INDIRECT` set up, and the
one that `threadStart` sets up for a job of `CreateThread` or `TaskSpawn`.  Each has found the
symbol of the routine.  A copy of a value is not told from the value.

* `Routine`  a procedure symbol: its parameter groups, its arity, its locals;
* `setUpCall`  what the four opcodes do with the arguments;
* `threadFrame`  what a worker does with them;
* `callPaths_agree`  where they agree.
-/

namespace Pscal

open List Option

namespace CallPaths

/-- a child of a routine's declaration: a group of parameters, if it is an `AST_VAR_DECL` -/
structure ParamGroup where
  isVarDecl : Bool
  childCount : Nat
  varType : VarType

structure Routine where
  arity : Nat
  typeDef : Option (List ParamGroup)
  localsCount : Nat

/-- the cells of a new frame: the parameters, then the locals -/
structure Frame where
  slots : List Value
  localsCount : Nat
  slotCount : Nat
  discardResultOnReturn : Bool

def nilValue : Value := .boxed .nil 0

variable (F : Reals)

/-! ## the opcodes -/

def coerceArgument (param : VarType) : Value → Value
  | .scalar t n =>
    match param.realType with
    | some r => .real r (F.store r (F.ofInt n))
    | none => .scalar t n
  | .real r bits =>
    match param.intType with
    | some t => .scalar t (assignRealToIntChecked F t (F.load r bits))
    | none => .real r bits
  | v => v

/-- the i-th argument goes with the i-th child of the declaration -/
def coerceArguments (p : Routine) (args : List Value) : List Value :=
  match p.typeDef with
  | some children =>
    if args.length ≤ children.length then
      List.zipWith (fun c v => coerceArgument F c.varType v) children args
    else args
  | none => args

def vmCheckCallArity (p : Routine) (passed : Nat) : Bool := p.arity = passed

def setUpCall (discard : Bool) (p : Routine) (args : List Value) : Option Frame :=
  if vmCheckCallArity p args.length then
    some
      { slots := coerceArguments F p args ++ List.replicate p.localsCount nilValue
        localsCount := p.localsCount
        slotCount := (args.length + p.localsCount) % 2 ^ 16
        discardResultOnReturn := discard }
  else none

def call (p : Routine) (args : List Value) : Option Frame := setUpCall F false p args

def callUserProc (p : Routine) (args : List Value) : Option Frame := setUpCall F false p args

def callIndirect (p : Routine) (args : List Value) : Option Frame := setUpCall F false p args

/-- a statement: the result of a function is dropped when it returns -/
def procCallIndirect (p : Routine) (args : List Value) : Option Frame := setUpCall F true p args

/-! ## the worker -/

def ParamGroup.names (g : ParamGroup) : Nat := if 0 < g.childCount then g.childCount else 1

def vmProcParamCount (p : Routine) : Option Nat :=
  if 0 < p.arity then some p.arity
  else p.typeDef.map fun children =>
    ((children.filter ParamGroup.isVarDecl).map ParamGroup.names).sum

/-- the group of the parameter, after the `seen` parameters of the groups before -/
def paramDeclFrom : List ParamGroup → Nat → Nat → Option ParamGroup
  | [], _, _ => none
  | g :: groups, seen, index =>
    if g.isVarDecl = false then paramDeclFrom groups seen index
    else if index < seen + g.names then some g
    else paramDeclFrom groups (seen + g.names) index

def vmProcParamDecl (children : List ParamGroup) (index : Nat) : Option ParamGroup :=
  paramDeclFrom children 0 index

def coerceThreadArgument (param : VarType) : Value → Value
  | .scalar t n =>
    match param.realType with
    | some r => .real r (F.store r (F.ofInt n))
    | none => .scalar t n
  | v => v

/-- as many arguments as the routine takes, if that is known -/
def threadArguments (p : Routine) (args : List Value) : List Value :=
  (args.take ((vmProcParamCount p).getD args.length)).mapIdx fun i v =>
    match p.typeDef with
    | some children =>
      match vmProcParamDecl children i with
      | some g => coerceThreadArgument F g.varType v
      | none => v
    | none => v

/-- `threadStart` for a bytecode job -/
def threadFrame (p : Routine) (args : List Value) : Frame :=
  let pushed := threadArguments F p args
  { slots := pushed ++ List.replicate p.localsCount nilValue
    localsCount := p.localsCount
    slotCount := (pushed.length + p.localsCount) % 2 ^ 16
    discardResultOnReturn := false }

def vmCheckThreadArity (p : Routine) (argc : Nat) (allowExtra : Bool) : Bool :=
  match vmProcParamCount p with
  | none => true
  | some expected => expected = argc || (allowExtra && expected < argc)

/-- `vmHostCreateThreadAddr` -/
def createThread (p : Routine) (args : List Value) : Option Frame :=
  if vmCheckThreadArity p args.length true then some (threadFrame F p args) else none

/-- `vmHostCreateTaskEntry` -/
def taskSpawn (p : Routine) (args : List Value) : Option Frame :=
  if vmCheckThreadArity p args.length false then some (threadFrame F p args) else none

/-! ## where they agree -/

/-- What the compiler makes of a declaration: every group names a parameter, and the arity is the
number of the names.  A procedure without parameters is known to have none by its declaration. -/
structure Routine.Declared (p : Routine) : Prop where
  named : ∀ children, p.typeDef = some children → ∀ g ∈ children, g.isVarDecl = true →
    0 < g.childCount
  counted : ∀ children, p.typeDef = some children →
    p.arity = ((children.filter ParamGroup.isVarDecl).map ParamGroup.childCount).sum
  known : 0 < p.arity ∨ p.typeDef ≠ none

/-- every parameter has a group of its own, and no real is given for an int-like one -/
def SingleGroups (children : List ParamGroup) (args : List Value) : Prop :=
  (∀ g ∈ children, g.isVarDecl = true ∧ g.childCount = 1) ∧
    ∀ (i : Nat) (g : ParamGroup) (r : RealType) (bits : Nat), children[i]? = some g →
      args[i]? = some (.real r bits) → g.varType.intType = none

/-- there are fewer groups than parameters, and no int-like value is given for a real one -/
def SharedGroups (children : List ParamGroup) (args : List Value) : Prop :=
  children.length < args.length ∧
    ∀ (i : Nat) (g : ParamGroup) (t : IntType) (n : Int), vmProcParamDecl children i = some g →
      args[i]? = some (.scalar t n) → g.varType.realType = none

theorem names_eq {g : ParamGroup} (h : 0 < g.childCount) : g.names = g.childCount := if_pos h

theorem vmProcParamCount_declared {p : Routine} (h : p.Declared) :
    vmProcParamCount p = some p.arity := by
  unfold vmProcParamCount
  split
  · rfl
  · next harity =>
    obtain ⟨children, hchildren⟩ := ne_none_iff_exists'.mp (h.known.resolve_left harity)
    rw [hchildren, map_some, h.counted children hchildren]
    refine congrArg (fun l : List Nat => some l.sum) (map_congr_left fun g hg => ?_)
    obtain ⟨hmem, hvar⟩ := mem_filter.mp hg
    exact names_eq (h.named children hchildren g hmem hvar)

variable {children : List ParamGroup}

theorem sum_single (h : ∀ g ∈ children, g.isVarDecl = true ∧ g.childCount = 1) :
    ((children.filter ParamGroup.isVarDecl).map ParamGroup.childCount).sum = children.length := by
  induction children with
  | nil => rfl
  | cons g groups ih =>
    obtain ⟨hvar, hone⟩ := h g mem_cons_self
    rw [filter_cons_of_pos hvar, map_cons, sum_cons, hone,
      ih fun g hg => h g (mem_cons_of_mem _ hg), length_cons, Nat.add_comm]

theorem paramDeclFrom_single (h : ∀ g ∈ children, g.isVarDecl = true ∧ g.childCount = 1)
    (seen i : Nat) : paramDeclFrom children seen (seen + i) = children[i]? := by
  induction children generalizing seen i with
  | nil => rfl
  | cons g groups ih =>
    obtain ⟨hvar, hone⟩ := h g mem_cons_self
    have hnames : g.names = 1 := by rw [names_eq (by omega), hone]
    unfold paramDeclFrom
    rw [hvar, if_neg Bool.noConfusion, hnames]
    cases i with
    | zero =>
      rw [if_pos (by omega)]
      rfl
    | succ i =>
      rw [if_neg (by omega), show seen + (i + 1) = seen + 1 + i by omega,
        ih (fun g hg => h g (mem_cons_of_mem _ hg)) (seen + 1) i, getElem?_cons_succ]

theorem coerceThreadArgument_eq {param : VarType} {v : Value}
    (h : ∀ r bits, v = .real r bits → param.intType = none) :
    coerceThreadArgument F param v = coerceArgument F param v := by
  cases v with
  | real r bits =>
    unfold coerceArgument
    rw [h r bits rfl]
    rfl
  | _ => rfl

theorem coerceThreadArgument_id {param : VarType} {v : Value}
    (h : ∀ t n, v = .scalar t n → param.realType = none) : coerceThreadArgument F param v = v := by
  cases v with
  | scalar t n =>
    unfold coerceThreadArgument
    rw [h t n rfl]
  | _ => rfl

variable {p : Routine} {args : List Value}

theorem threadArguments_single (hlen : args.length = p.arity) (hp : p.Declared)
    (hchildren : p.typeDef = some children) (h : SingleGroups children args) :
    threadArguments F p args = coerceArguments F p args := by
  have harity : args.length = children.length := by
    rw [hlen, hp.counted children hchildren, sum_single h.1]
  unfold threadArguments coerceArguments
  rw [vmProcParamCount_declared hp, getD_some, ← hlen, take_length, hchildren]
  simp only
  rw [if_pos (Nat.le_of_eq harity)]
  refine ext_getElem? fun i => ?_
  have hdecl : vmProcParamDecl children i = children[i]? := by
    have hfrom := paramDeclFrom_single h.1 0 i
    rwa [Nat.zero_add] at hfrom
  rw [getElem?_mapIdx, getElem?_zipWith', hdecl]
  cases hg : children[i]? with
  | none =>
    have hv : args[i]? = none := by
      rw [List.getElem?_eq_none_iff] at hg ⊢
      omega
    rw [hv]
    rfl
  | some g =>
    cases hv : args[i]? with
    | none => rfl
    | some v =>
      refine congrArg some (coerceThreadArgument_eq F fun r bits hreal => ?_)
      exact h.2 i g r bits hg (hreal ▸ hv)

theorem threadArguments_shared (hlen : args.length = p.arity) (hp : p.Declared)
    (hchildren : p.typeDef = some children) (h : SharedGroups children args) :
    threadArguments F p args = coerceArguments F p args := by
  unfold threadArguments coerceArguments
  rw [vmProcParamCount_declared hp, getD_some, ← hlen, take_length, hchildren]
  simp only
  rw [if_neg (Nat.not_le.mpr h.1)]
  refine ext_getElem? fun i => ?_
  rw [getElem?_mapIdx]
  cases hv : args[i]? with
  | none => rfl
  | some v =>
    refine congrArg some ?_
    split
    · next g hg => exact coerceThreadArgument_id F fun t n hscalar => h.2 i g t n hg (hscalar ▸ hv)
    · rfl

theorem threadArguments_unknown (htype : p.typeDef = none) (hlen : args.length = p.arity)
    (hp : p.Declared) : threadArguments F p args = coerceArguments F p args := by
  unfold threadArguments coerceArguments
  rw [vmProcParamCount_declared hp, getD_some, ← hlen, take_length, htype]
  exact mapIdx_eq_iff.mpr fun i => Option.map_id'.symm

/-- the arguments of which the worker makes what the opcodes make -/
def Routine.Agreeing (p : Routine) (args : List Value) : Prop :=
  match p.typeDef with
  | some children => SingleGroups children args ∨ SharedGroups children args
  | none => True

theorem threadArguments_agreeing (hlen : args.length = p.arity) (hp : p.Declared)
    (h : p.Agreeing args) : threadArguments F p args = coerceArguments F p args := by
  unfold Routine.Agreeing at h
  split at h
  · next children hchildren =>
    rcases h with hsingle | hshared
    · exact threadArguments_single F hlen hp hchildren hsingle
    · exact threadArguments_shared F hlen hp hchildren hshared
  · next hnone => exact threadArguments_unknown F hnone hlen hp

theorem threadArguments_length (hp : p.Declared) :
    (threadArguments F p args).length = min p.arity args.length := by
  unfold threadArguments
  rw [length_mapIdx, length_take, vmProcParamCount_declared hp, getD_some]

theorem threadFrame_take (hp : p.Declared) :
    threadFrame F p (args.take p.arity) = threadFrame F p args := by
  have harguments : threadArguments F p (args.take p.arity) = threadArguments F p args := by
    unfold threadArguments
    rw [vmProcParamCount_declared hp, getD_some, getD_some, take_take, Nat.min_self]
  unfold threadFrame
  rw [harguments]

theorem threadFrame_agreeing (hlen : args.length = p.arity) (hp : p.Declared)
    (h : p.Agreeing args) : some (threadFrame F p args) = call F p args := by
  have hcheck : vmCheckCallArity p args.length = true := decide_eq_true hlen.symm
  unfold call setUpCall threadFrame
  simp only
  rw [if_pos hcheck, threadArguments_length F hp, hlen, Nat.min_self,
    threadArguments_agreeing F hlen hp h]

theorem call_eq_none : call F p args = none ↔ args.length ≠ p.arity := by
  unfold call setUpCall vmCheckCallArity
  by_cases h : p.arity = args.length
  · rw [if_pos (decide_eq_true h)]
    exact ⟨fun hnone => absurd hnone (some_ne_none _), fun hne => absurd h.symm hne⟩
  · rw [if_neg (by rwa [decide_eq_true_iff])]
    exact ⟨fun _ heq => h heq.symm, fun _ => rfl⟩

theorem vmCheckThreadArity_declared (hp : p.Declared) (argc : Nat) (allowExtra : Bool) :
    vmCheckThreadArity p argc allowExtra = true ↔
      p.arity = argc ∨ allowExtra = true ∧ p.arity < argc := by
  unfold vmCheckThreadArity
  rw [vmProcParamCount_declared hp, Bool.or_eq_true, Bool.and_eq_true, decide_eq_true_iff,
    decide_eq_true_iff]

/-- `procedure P(a: Real; n: Integer)` with one local -/
def instanceRoutine : Routine :=
  { arity := 2
    typeDef := some [⟨true, 1, .double⟩, ⟨true, 1, .int32⟩]
    localsCount := 1 }

theorem instanceRoutine_declared : instanceRoutine.Declared := by
  refine ⟨?_, ?_, .inl (by decide)⟩
  · rintro _ ⟨⟩
    decide
  · rintro _ ⟨⟩
    rfl

/-- `procedure P(a, b: Real)`: only the worker makes the integers real -/
example :
    let p : Routine := { instanceRoutine with typeDef := some [⟨true, 2, .double⟩] }
    let args : List Value := [.scalar .int32 2, .scalar .int32 2]
    (call integralReals p args).map Frame.slots ≠ (taskSpawn integralReals p args).map Frame.slots := by
  intro p args h
  cases h

end CallPaths

end Pscal
