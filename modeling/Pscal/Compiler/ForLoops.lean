import Mathlib
import Pscal.Compiler.Statements
import Pscal.Lib.Transitions
import Pscal.VM.Ordinals

/-!
# The passes of a `for` loop

The code of `AST_FOR_TO` and `AST_FOR_DOWNTO` (`compiler.c`), one step from each of its places to the
next: the test at the entry, the body, the test behind it with the step, and the last step.

* `ControlType`  the type of a control variable; `ControlType.limit` is `emitForLoopTypeLimit`;
* `LoopEnv`  what the expressions and the body of the loop do;
* `forStep`, `ForRun`  the loop, and its runs with the values at each pass of the body;
* `RunsOver`  the body is run once for each value from start to bound;
* `runsOver_iff`  when it is.
-/

namespace Pscal.Statements

open Transitions List Option

/-! ## control variables -/

/-- A type that `isOrdinalLoopControlType` accepts.  A subrange has the values of its base type; its
bounds are not in them. -/
structure ControlType where
  base : OrdinalBase
  subrange : Option (Int × Int) := none
  counted : base.Counted
  inside : ∀ lo hi, subrange = some (lo, hi) → base.first ≤ lo ∧ hi ≤ base.last

/-- the constant of `addIntConstant` -/
def addIntConstant (v : Int) : Value :=
  let c := if v > 2 ^ 31 - 1 ∨ v < -2 ^ 31 then makeInt64 v else makeInt v
  .scalar c.type c.value

namespace ControlType

variable (ty : ControlType)

def first : Int :=
  match ty.subrange with
  | none => ty.base.first
  | some (lo, _) => lo

def last : Int :=
  match ty.subrange with
  | none => ty.base.last
  | some (_, hi) => hi

def InRange (x : Int) : Prop := ty.first ≤ x ∧ x ≤ ty.last

instance (x : Int) : Decidable (ty.InRange x) := inferInstanceAs (Decidable (_ ∧ _))

def edge (down : Bool) : Int := if down then ty.first else ty.last

/-- `emitForLoopTypeLimit` (`none`: the range is not known) -/
def limit (down : Bool) : Option Value :=
  match ty.base with
  | .int .widechar | .int .thread => none
  | .int .uint64 => if down then none else some (.scalar .uint64 (2 ^ 64 - 1))
  | .int .boolean => some (makeBoolean (!down))
  | .int t => some (addIntConstant (if down then t.first else t.last))
  | .enum name members _ =>
    if ty.subrange.isSome = true ∨ members = 0 then none
    else some (.enum name (if down then 0 else members - 1))

theorem base_range {x : Int} (h : ty.InRange x) : ty.base.first ≤ x ∧ x ≤ ty.base.last := by
  obtain ⟨hmin, hmax⟩ := h
  unfold first at hmin
  unfold last at hmax
  cases hsub : ty.subrange with
  | none =>
    rw [hsub] at hmin hmax
    exact ⟨hmin, hmax⟩
  | some p =>
    obtain ⟨hlo, hhi⟩ := ty.inside p.1 p.2 hsub
    rw [hsub] at hmin hmax
    exact ⟨Int.le_trans hlo hmin, Int.le_trans hmax hhi⟩

theorem limit_spec {down : Bool} {l : Value} (h : ty.limit down = some l) :
    ty.base.Comparable l ∧ l.ordinal = ty.base.edge down := by
  unfold limit at h
  cases hbase : ty.base with
  | int t =>
    rw [hbase] at h
    cases t <;> cases down <;> cases h <;> exact ⟨rfl, rfl⟩
  | enum name members hasMeta =>
    rw [hbase] at h
    dsimp only at h
    by_cases hunknown : ty.subrange.isSome = true ∨ members = 0
    · rw [if_pos hunknown] at h
      cases h
    · rw [if_neg hunknown] at h
      cases h
      exact ⟨rfl, by cases down <;> rfl⟩

theorem limit_boolean {down : Bool} (h : ty.limit down = none) : ty.base ≠ .int .boolean := by
  intro hbase
  rw [limit, hbase] at h
  cases h

end ControlType

/-! ## the loop -/

/-- What surrounds the code of the loop: the control variable, and what the bound and the body do
besides.  Neither assigns the variable (`validateLoopBodyReadOnlyWrites`). -/
structure LoopEnv (M : Type) where
  get : M → Value
  set : Value → M → M
  bound : M → M
  body : M → M
  get_set : ∀ v r, get (set v r) = v
  get_bound : ∀ r, get (bound r) = get r
  get_body : ∀ r, get (body r) = get r

inductive ForPhase where
  | entry | body | after | last | done
deriving DecidableEq, Repr

structure ForState (M : Type) where
  phase : ForPhase
  rest : M

section
variable {M : Type} (ext : Externals) (ty : ControlType) (loop : ForLoop) (bound : Value)
  (e : LoopEnv M)

/-- the variable one further, and on to `phase` -/
def stepTo (phase : ForPhase) (r : M) : Option (Option Int × ForState M) := do
  let v ← ty.base.next loop.down (e.get r)
  let v ← ty.base.store v
  return (none, ⟨phase, e.set v r⟩)

/-- from one place of the code to the next; at a pass of the body, also the number of the variable -/
def forStep (σ : ForState M) : Option (Option Int × ForState M) :=
  match σ.phase with
  | .entry => do
    let enter ← vmCompare ext loop.entryTest (e.get σ.rest) bound
    return (none, ⟨if enter then .body else .done, e.bound σ.rest⟩)
  | .body => some (some (e.get σ.rest).ordinal, ⟨.after, e.body σ.rest⟩)
  | .after => do
    let again ← vmCompare ext loop.stepTest (e.get σ.rest) bound
    if again then stepTo ty loop e .body (e.bound σ.rest)
    else return (none, ⟨.last, e.bound σ.rest⟩)
  | .last =>
    match ty.limit loop.down with
    | none => stepTo ty loop e .done σ.rest
    | some limit => do
      let again ← vmCompare ext loop.stepTest (e.get σ.rest) limit
      if again then stepTo ty loop e .done σ.rest else return (none, ⟨.done, σ.rest⟩)
  | .done => none

def ForRun : ForState M → List (Option Int) → ForState M → Prop :=
  Run fun σ pass σ' => forStep ext ty loop bound e σ = some (pass, σ')

end

/-! ## values -/

/-- `y` is beyond `x` in the direction of the loop -/
def Beyond (down : Bool) (x y : Int) : Prop := if down then y < x else x < y

instance (down : Bool) (x y : Int) : Decidable (Beyond down x y) := by
  unfold Beyond
  infer_instance

def countFrom (down : Bool) (x : Int) : Nat → List Int
  | 0 => []
  | k + 1 => x :: countFrom down (x + onward down) k

/-- the values from `x` to `y` in the direction of the loop -/
def forValues (down : Bool) (x y : Int) : List Int :=
  countFrom down x (onward down * (y - x) + 1).toNat

variable {down : Bool} {x y : Int}

theorem mem_countFrom {k : Nat} (h : y ∈ countFrom down x k) :
    ∃ i : Nat, i < k ∧ y = x + onward down * i := by
  induction k generalizing x with
  | zero => cases h
  | succ k ih =>
    rcases mem_cons.mp h with rfl | h
    · exact ⟨0, Nat.succ_pos k, by simp⟩
    · obtain ⟨i, hi, rfl⟩ := ih h
      refine ⟨i + 1, Nat.succ_lt_succ hi, ?_⟩
      rw [Nat.cast_succ, Int.mul_add, Int.mul_one]
      omega

theorem forValues_nil (h : Beyond down y x) : forValues down x y = [] := by
  have hzero : (onward down * (y - x) + 1).toNat = 0 := by
    cases down <;> simp only [Beyond, onward, Bool.false_eq_true, if_true, if_false] at h ⊢ <;> omega
  rw [forValues, hzero]
  rfl

theorem distance (h : ¬Beyond down y x) :
    ∃ k : Nat, y = x + onward down * k ∧ forValues down x y = countFrom down x (k + 1) := by
  refine ⟨(onward down * (y - x)).toNat, ?_, ?_⟩ <;>
    cases down <;> simp only [Beyond, onward, Bool.false_eq_true, if_true, if_false] at h ⊢
  · omega
  · omega
  · rw [forValues]
    congr 1
    simp only [onward, Bool.false_eq_true, if_false]
    omega
  · rw [forValues]
    congr 1
    simp only [onward, if_true]
    omega

theorem last_mem_countFrom (down : Bool) (x : Int) (k : Nat) :
    x + onward down * k ∈ countFrom down x (k + 1) := by
  induction k generalizing x with
  | zero =>
    rw [Nat.cast_zero, Int.mul_zero, Int.add_zero]
    exact mem_cons_self
  | succ k ih =>
    have hnext : x + onward down * (k + 1 : Nat) = x + onward down + onward down * k := by
      rw [Nat.cast_succ, Int.mul_add, Int.mul_one]
      omega
    rw [hnext]
    exact mem_cons_of_mem _ (ih _)

/-! ## steps -/

section
variable {M : Type} {ext : Externals} {ty : ControlType} {loop : ForLoop} {bound : Value}
  {e : LoopEnv M} {r : M}

theorem entryTest_eq {base : OrdinalBase} {v b : Value} (hv : base.Holds v)
    (hb : base.Comparable b) :
    vmCompare ext loop.entryTest v b = some (decide (¬Beyond loop.down b.ordinal v.ordinal)) := by
  have htest : loop.entryTest = .less ∨ loop.entryTest = .lessEqual ∨ loop.entryTest = .greater ∨
      loop.entryTest = .greaterEqual := by
    unfold ForLoop.entryTest
    cases loop.down
    · exact .inr (.inl rfl)
    · exact .inr (.inr (.inr rfl))
  rw [compare_ordinal ext _ htest hv hb, compareResult_threeWay]
  unfold ForLoop.entryTest Beyond
  cases loop.down <;> exact congrArg some (decide_eq_decide.mpr Int.not_lt.symm)

theorem stepTest_eq {base : OrdinalBase} {v b : Value} (hv : base.Holds v)
    (hb : base.Comparable b) :
    vmCompare ext loop.stepTest v b = some (decide (Beyond loop.down v.ordinal b.ordinal)) := by
  have htest : loop.stepTest = .less ∨ loop.stepTest = .lessEqual ∨ loop.stepTest = .greater ∨
      loop.stepTest = .greaterEqual := by
    unfold ForLoop.stepTest
    cases loop.down
    · exact .inl rfl
    · exact .inr (.inr (.inl rfl))
  rw [compare_ordinal ext _ htest hv hb, compareResult_threeWay]
  unfold ForLoop.stepTest Beyond
  cases loop.down <;> rfl

theorem forStep_entry (hv : ty.base.Holds (e.get r)) (hb : ty.base.Comparable bound) :
    forStep ext ty loop bound e ⟨.entry, r⟩ =
      some (none, ⟨if Beyond loop.down bound.ordinal (e.get r).ordinal then .done else .body,
        e.bound r⟩) := by
  unfold forStep
  dsimp only
  rw [entryTest_eq hv hb]
  by_cases h : Beyond loop.down bound.ordinal (e.get r).ordinal
  · rw [if_pos h, decide_eq_false (not_not.mpr h)]
    rfl
  · rw [if_neg h, decide_eq_true h]
    rfl

theorem forStep_after (ext : Externals) (hv : ty.base.Holds (e.get r)) (hb : ty.base.Comparable bound) :
    forStep ext ty loop bound e ⟨.after, r⟩ =
      if Beyond loop.down (e.get r).ordinal bound.ordinal then stepTo ty loop e .body (e.bound r)
      else some (none, ⟨.last, e.bound r⟩) := by
  unfold forStep
  dsimp only
  rw [stepTest_eq hv hb]
  by_cases h : Beyond loop.down (e.get r).ordinal bound.ordinal
  · rw [if_pos h, decide_eq_true h]
    rfl
  · rw [if_neg h, decide_eq_false h]
    rfl

theorem forStep_last (hv : ty.base.Holds (e.get r)) : forStep ext ty loop bound e ⟨.last, r⟩ =
      if ty.limit loop.down = none ∨ Beyond loop.down (e.get r).ordinal (ty.base.edge loop.down) then
        stepTo ty loop e .done r
      else some (none, ⟨.done, r⟩) := by
  unfold forStep
  dsimp only
  cases hlimit : ty.limit loop.down with
  | none => exact (if_pos (.inl rfl)).symm
  | some l =>
    obtain ⟨hcomparable, hordinal⟩ := ty.limit_spec hlimit
    dsimp only
    rw [stepTest_eq hv hcomparable, hordinal]
    by_cases h : Beyond loop.down (e.get r).ordinal (ty.base.edge loop.down)
    · rw [if_pos (.inr h), decide_eq_true h]
      rfl
    · rw [if_neg (fun hor => hor.elim (fun h => by cases h) h), decide_eq_false h]
      rfl

theorem stepTo_inside (phase : ForPhase) (hv : ty.base.Holds (e.get r))
    (hmin : ty.base.first ≤ (e.get r).ordinal + onward loop.down)
    (hmax : (e.get r).ordinal + onward loop.down ≤ ty.base.last) :
    ∃ r', stepTo ty loop e phase r = some (none, ⟨phase, r'⟩) ∧ ty.base.Holds (e.get r') ∧
      (e.get r').ordinal = (e.get r).ordinal + onward loop.down := by
  obtain ⟨w, w', hnext, hstore, hholds, hordinal⟩ := next_inside hv hmin hmax
  refine ⟨e.set w' r, ?_, ?_, ?_⟩
  · unfold stepTo
    rw [hnext]
    show (ty.base.store w).bind _ = _
    rw [hstore]
    rfl
  · rw [e.get_set]
    exact hholds
  · rw [e.get_set]
    exact hordinal

/-! ## runs -/

theorem run_to_last (ext : Externals) (hb : ty.base.Comparable bound) {k : Nat} (hv : ty.base.Holds (e.get r))
    (hk : bound.ordinal = (e.get r).ordinal + onward loop.down * k)
    (hrange : ∀ x ∈ countFrom loop.down (e.get r).ordinal (k + 1),
      ty.base.first ≤ x ∧ x ≤ ty.base.last) :
    ∃ tr r', ForRun ext ty loop bound e ⟨.body, r⟩ tr ⟨.last, r'⟩ ∧
      tr.reduceOption = countFrom loop.down (e.get r).ordinal (k + 1) ∧
      ty.base.Holds (e.get r') ∧ (e.get r').ordinal = bound.ordinal := by
  induction k generalizing r with
  | zero =>
    rw [Nat.cast_zero, Int.mul_zero, Int.add_zero] at hk
    have hnot : ¬Beyond loop.down (e.get (e.body r)).ordinal bound.ordinal := by
      rw [e.get_body, hk]
      unfold Beyond
      split <;> exact lt_irrefl _
    have hbodied : ty.base.Holds (e.get (e.body r)) := by
      rw [e.get_body]
      exact hv
    have hafter : forStep ext ty loop bound e ⟨.after, e.body r⟩ = _ :=
      forStep_after ext hbodied hb
    rw [if_neg hnot] at hafter
    refine ⟨[some (e.get r).ordinal, none], e.bound (e.body r), ?_, rfl, ?_, ?_⟩
    · exact Run.cons rfl (Run.cons hafter .start)
    · rw [e.get_bound, e.get_body]
      exact hv
    · rw [e.get_bound, e.get_body]
      exact hk.symm
  | succ k ih =>
    have hbody : e.get (e.bound (e.body r)) = e.get r := by rw [e.get_bound, e.get_body]
    have hbeyond : Beyond loop.down (e.get (e.body r)).ordinal bound.ordinal := by
      rw [e.get_body, hk]
      unfold Beyond onward
      cases loop.down <;> simp only [Bool.false_eq_true, if_false, if_true] <;> omega
    have hbodied : ty.base.Holds (e.get (e.body r)) := by
      rw [e.get_body]
      exact hv
    have hafter : forStep ext ty loop bound e ⟨.after, e.body r⟩ = _ :=
      forStep_after ext hbodied hb
    rw [if_pos hbeyond] at hafter
    have hin := hrange _ (mem_cons_of_mem _ mem_cons_self)
    rw [← hbody] at hin hv
    obtain ⟨r', hstep, hholds, hordinal⟩ := stepTo_inside .body hv hin.1 hin.2
    rw [hstep] at hafter
    rw [hbody] at hordinal
    have hk' : bound.ordinal = (e.get r').ordinal + onward loop.down * k := by
      rw [hordinal, hk, Nat.cast_succ, Int.mul_add, Int.mul_one]
      omega
    obtain ⟨tr, r'', hrun, hvalues, hlast⟩ := ih hholds hk' (fun x hx => hrange x (by
      rw [hordinal] at hx
      exact mem_cons_of_mem _ hx))
    refine ⟨some (e.get r).ordinal :: none :: tr, r'', Run.cons rfl (Run.cons hafter hrun), ?_, hlast⟩
    rw [reduceOption_cons_of_some, reduceOption_cons_of_none, hvalues, hordinal]
    rfl

/-! ## when the loop does what it should -/

variable (ext ty loop bound e)

/-- The body is run once for each value from the start to the bound, in order, and the loop ends.
The variable stays in its type.  Where the body was run, it is left one past the bound, or at the
bound if that is the last value of the type. -/
def RunsOver (start : Value) (r : M) : Prop :=
  ∃ v tr r', ty.base.store start = some v ∧
    ForRun ext ty loop bound e ⟨.entry, e.set v r⟩ tr ⟨.done, r'⟩ ∧
    tr.reduceOption = forValues loop.down start.ordinal bound.ordinal ∧
    (∀ x ∈ forValues loop.down start.ordinal bound.ordinal, ty.InRange x) ∧
    if Beyond loop.down bound.ordinal start.ordinal then e.get r' = v
    else ty.InRange (e.get r').ordinal ∧
      (e.get r').ordinal = if bound.ordinal = ty.edge loop.down then bound.ordinal
        else bound.ordinal + onward loop.down

/-- The start is beyond the bound, also as it is stored; or both are in the type, and where the bound
is its last value, `emitForLoopTypeLimit` knows that. -/
def Covers (down : Bool) (start : Value) : Prop :=
  ty.base.Comparable bound ∧
    if Beyond down bound.ordinal start.ordinal then
      ∃ v, ty.base.store start = some v ∧ Beyond down bound.ordinal v.ordinal
    else ty.InRange start.ordinal ∧ ty.InRange bound.ordinal ∧
      (bound.ordinal = ty.edge down → ∃ l, ty.limit down = some l ∧ l.ordinal = bound.ordinal)

variable {ext ty loop bound e}

theorem ControlType.inRange_edge {down : Bool} {x : Int} (h : ty.InRange x) (hne : x ≠ ty.edge down) :
    ty.InRange (x + onward down) := by
  obtain ⟨hmin, hmax⟩ := h
  unfold ControlType.edge at hne
  cases down <;> simp only [Bool.false_eq_true, if_false, if_true] at hne <;>
    refine ⟨?_, ?_⟩ <;> simp only [onward, Bool.false_eq_true, if_false, if_true] <;> omega

theorem forValues_inRange {down : Bool} {x y : Int} (hx : ty.InRange x) (hy : ty.InRange y) :
    ∀ z ∈ forValues down x y, ty.InRange z := by
  intro z hz
  obtain ⟨i, hi, rfl⟩ := mem_countFrom hz
  obtain ⟨hxmin, hxmax⟩ := hx
  obtain ⟨hymin, hymax⟩ := hy
  cases down <;> refine ⟨?_, ?_⟩ <;>
    simp only [onward, Bool.false_eq_true, if_false, if_true] at hi ⊢ <;> omega

theorem last_done (ext : Externals) (hv : ty.base.Holds (e.get r)) (hbound : (e.get r).ordinal = bound.ordinal)
    (hrange : ty.InRange bound.ordinal) (hedge : bound.ordinal = ty.edge loop.down →
      ∃ l, ty.limit loop.down = some l ∧ l.ordinal = bound.ordinal) :
    ∃ r', forStep ext ty loop bound e ⟨.last, r⟩ = some (none, ⟨.done, r'⟩) ∧
      ty.InRange (e.get r').ordinal ∧
      (e.get r').ordinal = if bound.ordinal = ty.edge loop.down then bound.ordinal
        else bound.ordinal + onward loop.down := by
  rw [forStep_last hv, hbound]
  by_cases h : bound.ordinal = ty.edge loop.down
  · obtain ⟨l, hlimit, hl⟩ := hedge h
    have hbase : bound.ordinal = ty.base.edge loop.down := hl.symm.trans (ty.limit_spec hlimit).2
    have hnot : ¬(ty.limit loop.down = none ∨
        Beyond loop.down bound.ordinal (ty.base.edge loop.down)) := by
      rw [hlimit, ← hbase]
      rintro (h | h)
      · cases h
      · unfold Beyond at h
        split at h <;> exact lt_irrefl _ h
    rw [if_neg hnot, if_pos h]
    exact ⟨r, rfl, hbound ▸ hrange, hbound⟩
  · have hnext := ty.inRange_edge hrange h
    have hbase := ty.base_range hnext
    rw [← hbound] at hbase
    obtain ⟨r', hstep, -, hordinal⟩ := stepTo_inside .done hv hbase.1 hbase.2
    have hstepped : ty.limit loop.down = none ∨
        Beyond loop.down bound.ordinal (ty.base.edge loop.down) := by
      right
      rw [hbound] at hbase
      revert hbase
      unfold Beyond OrdinalBase.edge onward
      cases loop.down <;> simp only [Bool.false_eq_true, if_false, if_true] <;> omega
    rw [if_pos hstepped, if_neg h]
    rw [hbound] at hordinal
    exact ⟨r', hstep, hordinal ▸ hnext, hordinal⟩

variable {start : Value} {r' : M}

theorem run_passes (ext : Externals) (e : LoopEnv M) (hstart : ty.base.Admits start)
    (hb : ty.base.Comparable bound) (hs : ty.InRange start.ordinal)
    (hrange : ty.InRange bound.ordinal) (h : ¬Beyond loop.down bound.ordinal start.ordinal) (r : M)
    : ∃ v tr r', ty.base.store start = some v ∧
      ForRun ext ty loop bound e ⟨.entry, e.set v r⟩ tr ⟨.last, r'⟩ ∧
      tr.reduceOption = forValues loop.down start.ordinal bound.ordinal ∧
      ty.base.Holds (e.get r') ∧ (e.get r').ordinal = bound.ordinal := by
  have hbase := ty.base_range hs
  obtain ⟨v, hstore⟩ := store_some ty.counted hstart hbase.1 hbase.2
  have hordinal := store_ordinal ty.counted hstart hstore hbase.1 hbase.2
  have hholds := store_holds hstart hstore
  have hget : e.get (e.bound (e.set v r)) = v := by rw [e.get_bound, e.get_set]
  obtain ⟨k, hk, hcount⟩ := distance h
  have hentry : forStep ext ty loop bound e ⟨.entry, e.set v r⟩ = _ :=
    forStep_entry (by rw [e.get_set]; exact hholds) hb
  rw [e.get_set, hordinal, if_neg h] at hentry
  have hstarted : (e.get (e.bound (e.set v r))).ordinal = start.ordinal := by rw [hget, hordinal]
  rw [← hget] at hholds
  rw [← hstarted] at hk hcount
  obtain ⟨tr, r', hrun, hvalues, hlast⟩ := run_to_last ext hb hholds hk fun x hx =>
    ty.base_range (forValues_inRange hs hrange x (by rwa [← hcount, hstarted] at hx))
  refine ⟨v, none :: tr, r', hstore, Run.cons hentry hrun, ?_, hlast⟩
  rw [reduceOption_cons_of_none, hvalues, ← hcount, hstarted]

theorem runsOver_of_covers (hstart : ty.base.Admits start) (h : Covers ty bound loop.down start)
    (r : M) : RunsOver ext ty loop bound e start r := by
  obtain ⟨hb, h⟩ := h
  by_cases hbeyond : Beyond loop.down bound.ordinal start.ordinal
  · rw [if_pos hbeyond] at h
    obtain ⟨v, hstore, hv⟩ := h
    have hentry : forStep ext ty loop bound e ⟨.entry, e.set v r⟩ = _ :=
      forStep_entry (by rw [e.get_set]; exact store_holds hstart hstore) hb
    rw [e.get_set, if_pos hv] at hentry
    refine ⟨v, [none], e.bound (e.set v r), hstore, Run.cons hentry .start, ?_, ?_, ?_⟩
    · rw [forValues_nil hbeyond]
      rfl
    · rw [forValues_nil hbeyond]
      exact fun x hx => by cases hx
    · rw [if_pos hbeyond, e.get_bound, e.get_set]
  · rw [if_neg hbeyond] at h
    obtain ⟨hs, hrange, hedge⟩ := h
    obtain ⟨v, tr, r₁, hstore, hrun, hvalues, hholds, hordinal⟩ :=
      run_passes ext e hstart hb hs hrange hbeyond r
    obtain ⟨r', hlast, hfinal⟩ := last_done ext hholds hordinal hrange hedge
    refine ⟨v, tr ++ [none], r', hstore, hrun.trans (Run.cons hlast .start), ?_,
      forValues_inRange hs hrange, ?_⟩
    · rw [reduceOption_append, hvalues]
      exact append_nil _
    · rw [if_neg hbeyond]
      exact hfinal

theorem passes_of_enter {r : M} {tr : List (Option Int)} {s : ForState M}
    (hentry : forStep ext ty loop bound e ⟨.entry, r⟩ = some (none, ⟨.body, r'⟩))
    (hrun : ForRun ext ty loop bound e ⟨.entry, r⟩ tr s) (hs : s.phase = .done) :
    tr.reduceOption ≠ [] := by
  cases tr with
  | nil =>
    rw [hrun.eq_of_nil] at hs
    cases hs
  | cons p tr =>
    obtain ⟨s₁, hstep, hrest⟩ := hrun.uncons
    rw [hentry] at hstep
    cases hstep
    cases tr with
    | nil =>
      rw [hrest.eq_of_nil] at hs
      cases hs
    | cons p tr =>
      obtain ⟨s₂, hstep, -⟩ := hrest.uncons
      cases hstep
      rw [reduceOption_cons_of_none, reduceOption_cons_of_some]
      exact cons_ne_nil _ _

theorem last_ends {r : M} {p : Option Int × ForState M} (hv : ty.base.Holds (e.get r))
    (hlast : forStep ext ty loop bound e ⟨.last, r⟩ = some p) : ∃ r', p = (none, ⟨.done, r'⟩) := by
  rw [forStep_last hv] at hlast
  split at hlast
  · unfold stepTo at hlast
    obtain ⟨w, -, hlast⟩ := bind_eq_some_iff.mp hlast
    obtain ⟨w', -, hlast⟩ := bind_eq_some_iff.mp hlast
    exact ⟨_, (some_inj.mp hlast).symm⟩
  · exact ⟨_, (some_inj.mp hlast).symm⟩

theorem not_done_of_edge {r : M} (hv : ty.base.Holds (e.get r))
    (hbound : (e.get r).ordinal = bound.ordinal) (hrange : ty.InRange bound.ordinal)
    (hunknown : ¬∃ l, ty.limit loop.down = some l ∧ l.ordinal = bound.ordinal)
    (hlast : forStep ext ty loop bound e ⟨.last, r⟩ = some (none, ⟨.done, r'⟩)) :
    (e.get r').ordinal ≠ bound.ordinal := by
  have hbase := ty.base_range hrange
  rw [forStep_last hv] at hlast
  cases hlimit : ty.limit loop.down with
  | none =>
    rw [if_pos (.inl hlimit)] at hlast
    unfold stepTo at hlast
    obtain ⟨w, hnext, hlast⟩ := bind_eq_some_iff.mp hlast
    obtain ⟨w', hstore, hlast⟩ := bind_eq_some_iff.mp hlast
    cases hlast
    rw [e.get_set, ← hbound]
    exact next_ne hv (ty.limit_boolean hlimit) hnext hstore
  | some l =>
    have hbeyond : Beyond loop.down bound.ordinal (ty.base.edge loop.down) := by
      have hne : ty.base.edge loop.down ≠ bound.ordinal := fun h =>
        hunknown ⟨l, hlimit, (ty.limit_spec hlimit).2.trans h⟩
      revert hne
      unfold Beyond OrdinalBase.edge
      cases loop.down <;> simp only [Bool.false_eq_true, if_false, if_true] <;> omega
    have hin : ty.base.first ≤ bound.ordinal + onward loop.down ∧
        bound.ordinal + onward loop.down ≤ ty.base.last := by
      revert hbeyond
      unfold Beyond OrdinalBase.edge onward
      cases loop.down <;> simp only [Bool.false_eq_true, if_false, if_true] <;> omega
    rw [← hbound] at hin
    obtain ⟨r'', hstep, -, hordinal⟩ := stepTo_inside .done hv hin.1 hin.2
    rw [hbound, if_pos (.inr hbeyond), hstep] at hlast
    cases hlast
    rw [hordinal, hbound]
    cases loop.down <;> simp only [onward, Bool.false_eq_true, if_false, if_true] <;> omega

theorem covers_of_runsOver (hstart : ty.base.Admits start) (hbound : ty.base.Admits bound) {r : M}
    (h : RunsOver ext ty loop bound e start r) : Covers ty bound loop.down start := by
  obtain ⟨v, tr, r', hstore, hrun, hvalues, hrange, hfinal⟩ := h
  have hholds : ty.base.Holds (e.get (e.set v r)) := by
    rw [e.get_set]
    exact store_holds hstart hstore
  have hb : ty.base.Comparable bound := by
    by_contra hnot
    cases tr with
    | nil => cases hrun.eq_of_nil
    | cons p tr =>
      obtain ⟨s, hstep, -⟩ := hrun.uncons
      unfold forStep at hstep
      dsimp only at hstep
      rw [compare_none ext _ hholds hbound hnot] at hstep
      cases hstep
  refine ⟨hb, ?_⟩
  have hentry : forStep ext ty loop bound e ⟨.entry, e.set v r⟩ = _ := forStep_entry hholds hb
  rw [e.get_set] at hentry
  by_cases hbeyond : Beyond loop.down bound.ordinal start.ordinal
  · rw [if_pos hbeyond]
    refine ⟨v, hstore, ?_⟩
    by_contra hnot
    rw [if_neg hnot] at hentry
    refine passes_of_enter hentry hrun rfl ?_
    rw [hvalues, forValues_nil hbeyond]
  · obtain ⟨k, hk, hcount⟩ := distance hbeyond
    have hs := hrange start.ordinal (by rw [hcount]; exact mem_cons_self)
    have hbr := hrange bound.ordinal (by rw [hcount, hk]; exact last_mem_countFrom _ _ _)
    rw [if_neg hbeyond] at hfinal ⊢
    refine ⟨hs, hbr, fun hedge => ?_⟩
    by_contra hunknown
    obtain ⟨v', tr₁, r₁, hstore', hrun₁, -, hholds₁, hordinal⟩ :=
      run_passes ext e hstart hb hs hbr hbeyond r
    rw [hstore] at hstore'
    cases hstore'
    cases hlast : forStep ext ty loop bound e ⟨.last, r₁⟩ with
    | none => cases (hrun₁.determined hrun hlast rfl).2
    | some p =>
      obtain ⟨r₂, rfl⟩ := last_ends hholds₁ hlast
      obtain ⟨-, hend⟩ := (hrun₁.next hlast).determined hrun rfl rfl
      cases hend
      rw [if_pos hedge] at hfinal
      exact not_done_of_edge hholds₁ hordinal hbr hunknown hlast hfinal.2

theorem never_done {t : IntType} (hbase : ty.base = .int t) (hb : ty.base.Comparable bound)
    (hbeyond : Beyond loop.down (ty.base.edge loop.down) bound.ordinal) {r : M}
    {tr : List (Option Int)} (hv : ty.base.Holds (e.get r)) :
    ¬ForRun ext ty loop bound e ⟨.entry, r⟩ tr ⟨.done, r'⟩ := by
  intro hrun
  -- the variable stays on the near side of the bound, so that no test ends the loop
  have hnear : ∀ r : M, ty.base.Holds (e.get r) →
      Beyond loop.down (e.get r).ordinal bound.ordinal ∧
        ¬Beyond loop.down bound.ordinal (e.get r).ordinal := by
    intro r hv
    have hrange : ty.base.first ≤ (e.get r).ordinal ∧ (e.get r).ordinal ≤ ty.base.last := by
      rw [hbase] at hv ⊢
      exact int_range hv
    revert hbeyond
    unfold Beyond OrdinalBase.edge
    cases loop.down <;> simp only [Bool.false_eq_true, if_false, if_true] <;> intro <;>
      constructor <;> omega
  have hinv := Run.invariant (I := fun _ σ =>
    (σ.phase = .entry ∨ σ.phase = .body ∨ σ.phase = .after) ∧ ty.base.Holds (e.get σ.rest))
    ⟨.inl rfl, hv⟩ (by
    rintro tr ⟨phase, r⟩ p s ⟨hphase, hv⟩ hstep
    obtain ⟨hbefore, hnot⟩ := hnear r hv
    rcases hphase with h | h | h <;> obtain rfl : phase = _ := h
    · rw [forStep_entry hv hb, if_neg hnot] at hstep
      cases hstep
      exact ⟨.inr (.inl rfl), (congrArg ty.base.Holds (e.get_bound r)).mpr hv⟩
    · cases hstep
      exact ⟨.inr (.inr rfl), (congrArg ty.base.Holds (e.get_body r)).mpr hv⟩
    · rw [forStep_after ext hv hb, if_pos hbefore] at hstep
      unfold stepTo at hstep
      obtain ⟨w, hnext, hstep⟩ := bind_eq_some_iff.mp hstep
      obtain ⟨w', hstore, hstep⟩ := bind_eq_some_iff.mp hstep
      cases hstep
      rw [e.get_bound] at hnext
      exact ⟨.inr (.inl rfl),
        (congrArg ty.base.Holds (e.get_set _ _)).mpr (next_holds hv hnext hstore)⟩) hrun
  rcases hinv.1 with h | h | h <;> cases h

theorem runsOver_iff (hstart : ty.base.Admits start) (hbound : ty.base.Admits bound) (r : M) :
    RunsOver ext ty loop bound e start r ↔ Covers ty bound loop.down start :=
  ⟨covers_of_runsOver hstart hbound, fun h => runsOver_of_covers hstart h r⟩

end

end Pscal.Statements
