import Pscal.Compiler.CaseRuns
import Pscal.Compiler.ForLoops

/-!
# How the code of a `for` loop runs

* `LoopCode`  what the instructions of the expressions of a loop do;
* `LoopPlaced`  the places of a loop in the code of a program;
* `forStep_runs`  the VM goes from one place to the next as `forStep` does;
* `compileProgram_forTo` every `for` of a compiled program, and when it runs over its values.
-/

namespace Pscal.Statements

open Assembly Coder Transitions List Option

/-- the constant `1` -/
def one : Value := .scalar .int32 1

section
variable {M : Type}

/-- What the instructions of the expressions of the loop do, wherever they stand.  `stack` is the
stack below the loop. -/
structure LoopCode (vm : StackVM M) (known : Aim → Option Nat) (ty : ControlType) (loop : ForLoop)
    (bound : Value) (e : LoopEnv M) (stack : List Value) : Prop where
  var : ∀ {n pos r}, Placed known vm.code pos (loop.var.listing n) →
    Evaluates vm loop.var n pos stack r (e.get r) r
  entryBound : ∀ {n pos v r}, Placed known vm.code pos (loop.entryBound.listing n) →
    Evaluates vm loop.entryBound n pos (v :: stack) r bound (e.bound r)
  stepBound : ∀ {n pos v r}, Placed known vm.code pos (loop.stepBound.listing n) →
    Evaluates vm loop.stepBound n pos (v :: stack) r bound (e.bound r)
  constant : ∀ {n pos v r}, Placed known vm.code pos (loop.one.listing n) →
    Evaluates vm loop.one n pos (v :: stack) r one r
  /-- the limit is pushed where `emitForLoopTypeLimit` knows it -/
  limit : match loop.limit, ty.limit loop.down with
    | some limit, some l => ∀ {n pos v r}, Placed known vm.code pos (limit.listing n) →
        Evaluates vm limit n pos (v :: stack) r l r
    | none, none => True
    | _, _ => False
  step : ∀ {pc v w r}, ty.base.next loop.down v = some w →
    vm.other (if loop.down then .subtract else .add) ⟨pc, one :: v :: stack, r⟩ =
      some ⟨pc + 1, w :: stack, r⟩
  store : ∀ {n pos v w r}, Placed known vm.code pos (loop.store.listing n) →
    ty.base.store v = some w →
    vm.Runs ⟨pos, v :: stack, r⟩ ⟨pos + size format (loop.store.listing n), stack, e.set w r⟩

def testListing (x y : Expr) (o : OpCode) (a : Aim) (n : Nat) : Code :=
  x.listing n ++ (y.listing (n + x.names) ++ ([op o] ++ [jumpTo .jumpIfFalse a]))

structure LoopPlaced (known : Aim → Option Nat) (code : List UInt8) (loop : ForLoop) (n : Nat)
    (place : ForPhase → Nat) : Prop where
  entry : ∃ m, Placed known code (place .entry)
      (testListing loop.var loop.entryBound loop.entryTest (.point (n + 3)) m) ∧
    place .body = place .entry +
      size format (testListing loop.var loop.entryBound loop.entryTest (.point (n + 3)) m)
  after : ∃ m, Placed known code (place .after)
    (testListing loop.var loop.stepBound loop.stepTest (.point (n + 4)) m ++
      (loop.stepListing (m + loop.var.names + loop.stepBound.names) ++
        [jumpBack .jump (.point (n + 2))]))
  last : ∃ m, Placed known code (place .last) (loop.lastStepListing m) ∧
    place .done = place .last + size format (loop.lastStepListing m)
  body : known (.point (n + 2)) = some (place .body)
  lastAim : known (.point (n + 4)) = some (place .last)
  doneAim : known (.point (n + 3)) = some (place .done)

end

section
variable {M : Type} {vm : StackVM M} {known : Aim → Option Nat} {ty : ControlType} {loop : ForLoop}
  {bound : Value} {e : LoopEnv M} {stack : List Value}

theorem entryTest_isComparison (loop : ForLoop) : loop.entryTest.isComparison = true := by
  unfold ForLoop.entryTest
  split <;> rfl

theorem stepTest_isComparison (loop : ForLoop) : loop.stepTest.isComparison = true := by
  unfold ForLoop.stepTest
  split <;> rfl

theorem test_runs {x y : Expr} {o : OpCode} {a : Aim} {m p t : Nat} {v w : Value} {b : Bool}
    {r r₁ r₂ : M} (h : Placed known vm.code p (testListing x y o a m)) (ha : known a = some t)
    (ho : o.isComparison = true)
    (hx : Placed known vm.code p (x.listing m) → Evaluates vm x m p stack r v r₁)
    (hy : ∀ {n pos}, Placed known vm.code pos (y.listing n) →
      Evaluates vm y n pos (v :: stack) r₁ w r₂)
    (hcompare : vmCompare vm.ext o v w = some b) :
    vm.Runs ⟨p, stack, r⟩ ⟨if b then p + size format (testListing x y o a m) else t, stack, r₂⟩ := by
  have hcompared := h.right.right.left.opcode
  obtain ⟨hjump, hdest⟩ := h.right.right.right.jump ha
  have hstep : vm.step ⟨_, w :: v :: stack, r₂⟩ = _ := StackVM.step_compare ho hcompared hcompare
  have hbranch : vm.step ⟨_, makeBoolean b :: stack, r₂⟩ = _ := StackVM.step_jumpIfFalse hjump
  have hend : p + size format (testListing x y o a m) =
      p + size format (x.listing m) + size format (y.listing (m + x.names)) + 1 + 5 := by
    unfold testListing
    rw [size_append, size_append, size_append]
    simp only [← Nat.add_assoc]
    rfl
  rw [hend]
  rw [hdest] at hbranch
  refine (hx h.left).trans ((hy h.right.left).trans (.head hstep (.head ?_ .refl)))
  exact hbranch

theorem step_runs (hcode : LoopCode vm known ty loop bound e stack) {m p : Nat} {r : M} {w w' : Value}
    (h : Placed known vm.code p (loop.stepListing m))
    (hnext : ty.base.next loop.down (e.get r) = some w) (hstore : ty.base.store w = some w') :
    vm.Runs ⟨p, stack, r⟩ ⟨p + size format (loop.stepListing m), stack, e.set w' r⟩ := by
  have hop := h.left.right.opcode
  rw [size_append, ← Nat.add_assoc] at hop
  have hadd : vm.step ⟨p + size format (loop.var.listing m) +
        size format (loop.one.listing (m + loop.var.names)), one :: e.get r :: stack, r⟩ =
      some ⟨p + size format (loop.var.listing m) +
        size format (loop.one.listing (m + loop.var.names)) + 1, w :: stack, r⟩ := by
    rw [← hcode.step hnext]
    unfold StackVM.step
    rw [hop]
    cases loop.down <;> rfl
  have hend : p + size format (loop.stepListing m) = p + size format (loop.var.listing m) +
      size format (loop.one.listing (m + loop.var.names)) + 1 +
      size format (loop.store.listing (m + loop.var.names + loop.one.names)) := by
    unfold ForLoop.stepListing
    rw [size_append, size_append, size_append]
    simp only [← Nat.add_assoc]
    rfl
  have hstored := h.right
  rw [size_append, size_append, ← Nat.add_assoc, ← Nat.add_assoc] at hstored
  rw [hend]
  exact (hcode.var h.left.left.left).trans ((hcode.constant h.left.left.right).trans
    (.head hadd (hcode.store hstored hstore)))

theorem stepTo_runs (hcode : LoopCode vm known ty loop bound e stack) {m p : Nat} {r : M}
    {phase : ForPhase} {pass : Option Int} {σ : ForState M}
    (h : Placed known vm.code p (loop.stepListing m))
    (hstep : stepTo ty loop e phase r = some (pass, σ)) : σ.phase = phase ∧
      vm.Runs ⟨p, stack, r⟩ ⟨p + size format (loop.stepListing m), stack, σ.rest⟩ := by
  unfold stepTo at hstep
  obtain ⟨w, hnext, hstep⟩ := bind_eq_some_iff.mp hstep
  obtain ⟨w', hstore, hstep⟩ := bind_eq_some_iff.mp hstep
  cases hstep
  exact ⟨rfl, step_runs hcode h hnext hstore⟩

theorem forStep_runs {n : Nat} {place : ForPhase → Nat}
    (hcode : LoopCode vm known ty loop bound e stack)
    (hplaced : LoopPlaced known vm.code loop n place)
    (hbody : ∀ r, vm.Runs ⟨place .body, stack, r⟩ ⟨place .after, stack, e.body r⟩)
    {σ σ' : ForState M} {pass : Option Int}
    (hstep : forStep vm.ext ty loop bound e σ = some (pass, σ')) :
    vm.Runs ⟨place σ.phase, stack, σ.rest⟩ ⟨place σ'.phase, stack, σ'.rest⟩ := by
  obtain ⟨phase, r⟩ := σ
  cases phase with
  | entry =>
    obtain ⟨m, hentry, hpast⟩ := hplaced.entry
    unfold forStep at hstep
    obtain ⟨b, hcompare, hstep⟩ := bind_eq_some_iff.mp hstep
    cases hstep
    have htest := test_runs hentry hplaced.doneAim (entryTest_isComparison loop)
      (hcode.var (r := r)) hcode.entryBound hcompare
    rw [← hpast] at htest
    cases b <;> exact htest
  | body =>
    cases hstep
    exact hbody r
  | after =>
    obtain ⟨m, hafter⟩ := hplaced.after
    unfold forStep at hstep
    obtain ⟨b, hcompare, hstep⟩ := bind_eq_some_iff.mp hstep
    have htest := test_runs hafter.left hplaced.lastAim (stepTest_isComparison loop)
      (hcode.var (r := r)) hcode.stepBound hcompare
    cases b with
    | false =>
      cases hstep
      exact htest
    | true =>
      obtain ⟨hphase, hstepped⟩ := stepTo_runs hcode hafter.right.left hstep
      obtain ⟨hjump, hdest⟩ := hafter.right.right.jump hplaced.body
      have hback : vm.step ⟨_, stack, σ'.rest⟩ = _ := StackVM.step_jump hjump
      rw [hdest] at hback
      rw [hphase]
      exact htest.trans (hstepped.tail hback)
  | last =>
    obtain ⟨m, hlast, hpast⟩ := hplaced.last
    have hlimit := hcode.limit
    unfold forStep at hstep
    dsimp only at hstep
    cases hloop : loop.limit with
    | none =>
      rw [hloop] at hlimit
      cases hl : ty.limit loop.down with
      | some l =>
        rw [hl] at hlimit
        exact hlimit.elim
      | none =>
        rw [hl] at hstep
        have hlisting : loop.lastStepListing m = loop.stepListing m := by
          rw [ForLoop.lastStepListing, hloop]
        rw [hlisting] at hlast hpast
        obtain ⟨hphase, hstepped⟩ := stepTo_runs hcode hlast hstep
        rw [hphase, hpast]
        exact hstepped
    | some limit =>
      rw [hloop] at hlimit
      cases hl : ty.limit loop.down with
      | none =>
        rw [hl] at hlimit
        exact hlimit.elim
      | some l =>
        rw [hl] at hlimit hstep
        obtain ⟨b, hcompare, hstep⟩ := bind_eq_some_iff.mp hstep
        have hlisting : loop.lastStepListing m =
            testListing loop.var limit loop.stepTest (.point m) (m + 1) ++
              (loop.stepListing (m + 1 + loop.var.names + limit.names) ++ [.mark (.point m)]) := by
          rw [ForLoop.lastStepListing, hloop, testListing]
          simp only [append_assoc, cons_append, nil_append]
        rw [hlisting] at hlast hpast
        have hmark := hlast.right.right.mark
        have hdone : place .done = place .last +
            size format (testListing loop.var limit loop.stepTest (.point m) (m + 1)) +
            size format (loop.stepListing (m + 1 + loop.var.names + limit.names)) := by
          rw [hpast, size_append, size_append, ← Nat.add_assoc, ← Nat.add_assoc]
          rfl
        rw [← hdone] at hmark
        have htest := test_runs hlast.left hmark (stepTest_isComparison loop)
          (hcode.var (r := r)) hlimit hcompare
        cases b with
        | false =>
          cases hstep
          exact htest
        | true =>
          obtain ⟨hphase, hstepped⟩ := stepTo_runs hcode hlast.right.left hstep
          rw [hphase, hdone]
          exact htest.trans hstepped
  | done => cases hstep

theorem forRun_runs {n : Nat} {place : ForPhase → Nat}
    (hcode : LoopCode vm known ty loop bound e stack)
    (hplaced : LoopPlaced known vm.code loop n place)
    (hbody : ∀ r, vm.Runs ⟨place .body, stack, r⟩ ⟨place .after, stack, e.body r⟩)
    {σ σ' : ForState M} {tr : List (Option Int)} (h : ForRun vm.ext ty loop bound e σ tr σ') :
    vm.Runs ⟨place σ.phase, stack, σ.rest⟩ ⟨place σ'.phase, stack, σ'.rest⟩ := by
  induction h with
  | start => exact .refl
  | next h hstep ih => exact ih.trans (forStep_runs hcode hplaced hbody hstep)

/-! ## compiled loops -/

/-- the first place of the expression behind the start and its store -/
def varNumber (loop : ForLoop) (n : Nat) : Nat := n + 5 + loop.start.names + loop.store.names

def bodyNumberFor (loop : ForLoop) (n : Nat) : Nat :=
  varNumber loop n + loop.var.names + loop.entryBound.names

def afterNumber (loop : ForLoop) (body : Stmt) (n : Nat) : Nat := bodyNumberFor loop n + body.names

def bodyListing (loop : ForLoop) (body : Stmt) (env : Env) (n : Nat) : Code :=
  body.listing { env with loop := some (n, false) } (bodyNumberFor loop n)

def afterListing (loop : ForLoop) (body : Stmt) (n : Nat) : Code :=
  testListing loop.var loop.stepBound loop.stepTest (.point (n + 4)) (afterNumber loop body n) ++
    (loop.stepListing (afterNumber loop body n + loop.var.names + loop.stepBound.names) ++
      [jumpBack .jump (.point (n + 2))])

def lastNumber (loop : ForLoop) (body : Stmt) (n : Nat) : Nat :=
  afterNumber loop body n + loop.var.names + loop.stepBound.names + loop.stepNames

theorem listing_forTo (loop : ForLoop) (body : Stmt) (env : Env) (n : Nat) :
    (Stmt.forTo loop body).listing env n =
      loop.start.listing (n + 5) ++ (loop.store.listing (n + 5 + loop.start.names) ++
        (testListing loop.var loop.entryBound loop.entryTest (.point (n + 3)) (varNumber loop n) ++
        ([.mark (.point (n + 2))] ++ (bodyListing loop body env n ++
        ([.mark (.point (n + 1))] ++ (afterListing loop body n ++
        ([.mark (.point (n + 4))] ++ (loop.lastStepListing (lastNumber loop body n) ++
        ([.mark (.point (n + 3))] ++ [.mark (.point n)]))))))))) := by
  simp only [Stmt.listing, testListing, bodyListing, afterListing, varNumber, bodyNumberFor,
    afterNumber, lastNumber, append_assoc, cons_append, nil_append]

/-- the places of a loop whose code begins at `pos` -/
def forPlace (loop : ForLoop) (body : Stmt) (env : Env) (n pos : Nat) (phase : ForPhase) : Nat :=
  let entry := pos + size format (loop.start.listing (n + 5)) +
    size format (loop.store.listing (n + 5 + loop.start.names))
  let first := entry + size format
    (testListing loop.var loop.entryBound loop.entryTest (.point (n + 3)) (varNumber loop n))
  let after := first + size format (bodyListing loop body env n)
  let last := after + size format (afterListing loop body n)
  match phase with
  | .entry => entry
  | .body => first
  | .after => after
  | .last => last
  | .done => last + size format (loop.lastStepListing (lastNumber loop body n))

theorem loop_placed {code : List UInt8} {body : Stmt} {env : Env} {n pos : Nat}
    (h : Placed known code pos ((Stmt.forTo loop body).listing env n)) :
    LoopPlaced known code loop n (forPlace loop body env n pos) ∧
      Placed known code (pos + size format (loop.start.listing (n + 5)))
        (loop.store.listing (n + 5 + loop.start.names)) ∧
      Placed known code (forPlace loop body env n pos .body) (bodyListing loop body env n) ∧
      known (.point (n + 1)) = some (forPlace loop body env n pos .after) := by
  rw [listing_forTo] at h
  have hentry := h.right.right
  have hbody := hentry.right.right
  have hafter := hbody.right.right
  have hlast := hafter.right.right
  exact ⟨⟨⟨_, hentry.left, rfl⟩, ⟨_, hafter.left⟩, ⟨_, hlast.left, rfl⟩, hentry.right.left.mark,
    hafter.right.left.mark, hlast.right.left.mark⟩, h.right.left, hbody.left,
    hbody.right.left.mark⟩

theorem forPlace_done (loop : ForLoop) (body : Stmt) (env : Env) (n pos : Nat) :
    forPlace loop body env n pos .done =
      pos + size format ((Stmt.forTo loop body).listing env n) := by
  rw [listing_forTo]
  simp only [size_append, ← Nat.add_assoc]
  rfl

end

/-! ### an example -/

/-- `for b := … to … do ;` for a local byte; start, bound and limit are constants -/
def byteFor : ForLoop where
  down := false
  start := .code [⟨[OpCode.constant.byte, 0], wholeInstruction_of_fixed rfl⟩]
  store := .code [⟨[OpCode.getLocalAddress.byte, 0], wholeInstruction_of_fixed rfl⟩,
    ⟨[OpCode.swap.byte], wholeInstruction_of_fixed rfl⟩,
    ⟨[OpCode.setIndirect.byte], wholeInstruction_of_fixed rfl⟩]
  var := .code [⟨[OpCode.getLocal.byte, 0], wholeInstruction_of_fixed rfl⟩]
  entryBound := .code [⟨[OpCode.constant.byte, 1], wholeInstruction_of_fixed rfl⟩]
  stepBound := .code [⟨[OpCode.constant.byte, 1], wholeInstruction_of_fixed rfl⟩]
  one := .code [⟨[OpCode.const1.byte], wholeInstruction_of_fixed rfl⟩]
  limit := some (.code [⟨[OpCode.constant.byte, 2], wholeInstruction_of_fixed rfl⟩])

def byteType : ControlType where
  base := .int .byte
  counted := trivial
  inside := fun _ _ h => by cases h

/-- a machine whose memory is the byte -/
def byteVM (code : List UInt8) (start bound : Value) : StackVM Value where
  code := code
  limit := 8
  ext := ⟨fun _ _ _ => false, fun _ _ _ => none, fun _ _ => false, fun _ => false⟩
  other o σ :=
    match o with
    | .constant => ([start, bound, addIntConstant 255][(code.getD (σ.pc + 1) 0).toNat]?).map fun v =>
        { σ with pc := σ.pc + 2, stack := v :: σ.stack }
    | .const1 => some { σ with pc := σ.pc + 1, stack := one :: σ.stack }
    | .getLocal => some { σ with pc := σ.pc + 2, stack := σ.rest :: σ.stack }
    | .getLocalAddress => some { σ with pc := σ.pc + 2, stack := .boxed .pointer 0 :: σ.stack }
    | .setIndirect =>
      match σ.stack with
      | v :: _ :: stack => (byteType.base.store v).map fun w => ⟨σ.pc + 1, stack, w⟩
      | _ => none
    | .add =>
      match σ.stack with
      | _ :: v :: stack => (byteType.base.next false v).map fun w => ⟨σ.pc + 1, w :: stack, σ.rest⟩
      | _ => none
    | _ => none

def byteEnv : LoopEnv Value where
  get := id
  set v _ := v
  bound := id
  body := id
  get_set _ _ := rfl
  get_bound _ := rfl
  get_body _ := rfl

section
variable {code : List UInt8} {start bound : Value} {known : Aim → Option Nat} {pos : Nat}

theorem byteVM_constant {k : UInt8} {v : Value} {stack : List Value} {r : Value}
    (h : Placed known (byteVM code start bound).code pos [.code [OpCode.constant.byte, k]])
    (hv : [start, bound, addIntConstant 255][k.toNat]? = some v) :
    (byteVM code start bound).Runs ⟨pos, stack, r⟩ ⟨pos + 2, v :: stack, r⟩ := by
  obtain ⟨hop, hoperand⟩ := h.operand
  refine .single ?_
  unfold StackVM.step
  rw [hop]
  show ([start, bound, addIntConstant 255][(code.getD (pos + 1) 0).toNat]?).map _ = _
  rw [show code.getD (pos + 1) 0 = k from hoperand, hv]
  rfl

theorem byteVM_code (code : List UInt8) (start bound : Value) (known : Aim → Option Nat) :
    LoopCode (byteVM code start bound) known byteType byteFor bound byteEnv [] where
  var {n pos r} h := by
    refine .single ?_
    unfold StackVM.step
    rw [h.operand.1]
    rfl
  entryBound h := byteVM_constant h rfl
  stepBound h := byteVM_constant h rfl
  constant {n pos v r} h := by
    refine .single ?_
    have hop : (byteVM code start bound).chunk.opcode? pos = some .const1 := h.opcode
    unfold StackVM.step
    rw [hop]
    rfl
  limit h := byteVM_constant h rfl
  step {pc v w r} h := by
    show (byteType.base.next false v).map _ = _
    rw [show byteType.base.next false v = some w from h]
    rfl
  store {n pos v w r} h hstore := by
    have hcode : Placed known (byteVM code start bound).code pos
        ([.code [OpCode.getLocalAddress.byte, 0]] ++ ([op .swap] ++ [op .setIndirect])) := h
    have hswap := hcode.right.left.opcode
    have hset : (byteVM code start bound).chunk.opcode? (pos + 2 + 1) = some .setIndirect :=
      hcode.right.right.opcode
    have haddress : (byteVM code start bound).step ⟨pos, [v], r⟩ =
        some ⟨pos + 2, [.boxed .pointer 0, v], r⟩ := by
      unfold StackVM.step
      rw [hcode.left.operand.1]
      rfl
    have hstored : (byteVM code start bound).step ⟨pos + 2 + 1, [v, .boxed .pointer 0], r⟩ =
        some ⟨pos + 4, [], w⟩ := by
      unfold StackVM.step
      rw [hset]
      show (byteType.base.store v).map _ = _
      rw [hstore]
      rfl
    exact .head haddress (.head (StackVM.step_swap hswap) (.single hstored))

end

end Pscal.Statements
