import Pscal.VM.Channel

/-!
# The slots of the worker pool

`threadStart` of `vm/vm.c` and what other threads do to the slot of a worker: `createThreadJob`,
`vmThreadTakeResultInPool`, `vmThreadReleaseForReuse`, `vmThreadStopJob`, `vmHandleGlobalInterrupt`.

* `Thread`  a slot of the pool, and where its worker is;
* `WorkerPhase`  the places of `threadStart` between two sections;
* `CodePhase`  the code of a job: native, or the loop of `interpretBytecode`;
* `WorkerStep`, `CodeStep`, `CallerStep`  the steps of a worker, of its job and of the others.

A section under a lock is one step.  A worker keeps `stateMutex` over several steps when it takes
a job up and when it leaves one, a caller keeps `resultMutex` over the tests of a take.  What the
code of a job does is not fixed, so each of its steps may come at any time.
-/

namespace Pscal

structure VmFlags where
  abortRequested : Bool := false
  exitRequested : Bool := false
  runtimeErrorRaised : Bool := false
deriving DecidableEq

inductive CodePhase where
  | native
  /-- `interpretBytecode` before it clears the flags -/
  | entry
  /-- before `vmTaskRearmStopRequest` -/
  | rearm
  | loop
  /-- before `vmConsumeInterruptRequest` -/
  | interrupt
  | errorCheck
  | exitCheck
  /-- before `returnFromCall` leaves a frame for an exit -/
  | unwind
  | instruction
deriving DecidableEq

inductive WorkerPhase where
  | gone
  | claimed
  | cleared
  | top (job : Option Nat)
  /-- before the worker counts itself as available -/
  | announce
  | pop
  | popped (job : Option Nat)
  | pickup (job : Nat)
  /-- with `stateMutex`, the slot is reset -/
  | generation (job : Nat)
  /-- with `stateMutex`, the generation is published -/
  | flags (job : Nat)
  | prepare (job : Nat)
  | signal (job : Nat) (prepared : Bool)
  | unprepared (job : Nat)
  | awaitResume (job : Nat)
  | startCheck (job : Nat)
  | code (job : Nat) (code : CodePhase)
  /-- before the result of the code is stored -/
  | store (job : Nat) (result : Option Value) (success stopped : Bool)
  /-- before the test of `statusReady` after the job -/
  | ran (job : Nat) (stopped : Bool)
  | ranStore (job : Nat) (stopped : Bool)
  | ranStopped (job : Nat)
  /-- `vmThreadJobAwaitConsumedAndDestroy` -/
  | awaitConsumed (job : Nat)
  /-- `vmThreadAwaitRelease` -/
  | park
  | parked
  /-- with `stateMutex` -/
  | leave (exitLoop : Bool)
  /-- the end of `threadStart` -/
  | exitJob (job : Nat)
  | exitConsumed (job : Nat)
  | exitRegistry
  | exitVm
  | exitReset
  | exitPool

/-- the worker has `stateMutex` between two steps -/
def WorkerPhase.holdsState : WorkerPhase → Bool
  | .generation _ | .flags _ | .leave _ => true
  | _ => false

/-- The arguments of `vmThreadTakeResultInPool`; `wantsResult` says that there is a place for the
value.  Only `vmTaskTakeResult` names a generation. -/
structure TakeArgs where
  generation : Nat
  wantsResult : Bool
  takeValue : Bool
  takeStatus : Bool
  task : generation ≠ 0 → takeValue = true ∧ takeStatus = true

inductive ResultMutex (C : Type) where
  | free
  /-- a caller has it and is at the top of the wait loop -/
  | waiting (caller : C) (args : TakeArgs)
  /-- and has found the generation it names -/
  | matched (caller : C) (args : TakeArgs)

structure Thread (C : Type) where
  worker : WorkerPhase := .gone
  vm : Option VmFlags := none
  active : Bool := false
  statusReady : Bool := false
  statusFlag : Bool := false
  statusConsumed : Bool := false
  resultReady : Bool := false
  resultConsumed : Bool := false
  resultValue : Value := makeNil
  resultMutex : ResultMutex C := .free
  paused : Bool := false
  cancelRequested : Bool := false
  killRequested : Bool := false
  inPool : Bool := false
  idle : Bool := false
  /-- 32 bits, `0` before the first job -/
  jobGeneration : Nat := 0
  currentJob : Option Nat := none
  awaitingReuse : Bool := false
  readyForReuse : Bool := false

/-- What a step on a slot is, for the rest of the pool and for its history. -/
inductive SlotEvent (C : Type) where
  | moved
  | retired
  | announced
  | popped (job : Option Nat)
  /-- after the pop the worker is not idle -/
  | unidled
  | picked (job generation : Nat)
  | assigned (job generation : Nat)
  | refused (job : Nat)
  | jobConsumed (job : Nat)
  | left
  | started (job : Nat)
  | stored (job : Nat) (result : Option Value) (success : Bool)
  | instruction (job : Nat)
  /-- `vmThreadStopRequested` -/
  | polled (job : Nat) (stop : Bool)
  | stopped (job : Nat)
  /-- a runtime error of its own, or an interrupt key -/
  | failed (job : Nat)
  | unwound (job : Nat)
  | recovered (job : Nat)
  | claimed (caller : C)
  | claimCleared (caller : C)
  | created (caller : C) (job : Nat)
  | abandoned (caller : C)
  | abandonReset (caller : C)
  | abandonCleared (caller : C)
  | locked (caller : C) (args : TakeArgs)
  | unlocked (caller : C) (args : TakeArgs)
  | taken (caller : C) (args : TakeArgs) (value : Option Value) (status release : Bool)
  | joinRead (caller : C) (statusReady : Bool)
  | released (caller : C) (generation : Nat) (counted : Bool)
  | stopRequested (caller : C) (job generation : Nat) (kill parked : Bool)
  | interrupted

namespace Thread

variable {C : Type} (t : Thread C)

def nextGeneration : Nat :=
  let jobGeneration := (t.jobGeneration + 1) % 2 ^ 32
  if jobGeneration = 0 then 1 else jobGeneration

def vmThreadStopPending : Bool := t.cancelRequested || t.killRequested

def vmThreadResetResult : Thread C :=
  { t with
    resultValue := makeNil, resultReady := false, resultConsumed := false, statusReady := false
    statusFlag := false, statusConsumed := false, awaitingReuse := false, currentJob := none
    readyForReuse := false }

def vmThreadStoreResultDirect (result : Option Value) (success : Bool) : Thread C :=
  { t with
    resultValue := result.getD makeNil, resultReady := result.isSome, resultConsumed := false
    statusFlag := success, statusReady := true, statusConsumed := false }

def vmThreadJobFinishedLocked : Bool := t.statusReady && (t.awaitingReuse || !t.active)

/-- `vmThreadSlotHoldsGeneration`, `vmThreadGenerationMatchesLocked` -/
def holdsGeneration (generation : Nat) : Bool := generation == 0 || t.jobGeneration == generation

/-- the flags of the VM after `f` -/
def setVm (f : VmFlags → VmFlags) : Thread C := { t with vm := t.vm.map f }

def vmThreadRequestStopLocked (kill : Bool) : Thread C :=
  let t' := if kill then { t with killRequested := true } else { t with cancelRequested := true }
  if t.currentJob.isSome then t'.setVm fun f => { f with abortRequested := true } else t'

/-- `vmTaskStopIfRequested` when a stop is pending -/
def stopVm : Thread C :=
  t.setVm fun f => { f with abortRequested := true, runtimeErrorRaised := true }

def takenValue (args : TakeArgs) : Option Value :=
  if args.wantsResult ∧ t.resultReady then some t.resultValue else none

def consume (args : TakeArgs) : Thread C :=
  { t with
    statusConsumed := t.statusConsumed || args.takeStatus
    resultValue := if args.takeValue && t.resultReady then makeNil else t.resultValue
    resultReady := t.resultReady && !args.takeValue
    resultConsumed := t.resultConsumed || args.takeValue }

def dropResult : Thread C :=
  { t with
    resultValue := if t.resultReady then makeNil else t.resultValue
    resultReady := false, statusReady := false, statusConsumed := false, resultConsumed := false }

/-- a take after the wait, and whether it gives the worker back -/
def takeResult (args : TakeArgs) : Thread C × Bool :=
  let t' := t.consume args
  if t'.statusConsumed ∧ (t'.resultReady = false ∨ t'.resultConsumed) then (t'.dropResult, true)
  else (t', false)

/-- `vmThreadReleaseForReuse`, and whether it counts the worker as available -/
def releaseForReuse (generation : Nat) : Thread C × Bool :=
  if t.awaitingReuse ∧ t.readyForReuse = false ∧ t.holdsGeneration generation then
    ({ t with idle := true, readyForReuse := true }, !t.idle)
  else (t, false)

/-- `vmThreadStopJob` on a slot whose job the request names -/
def stopJob (kill : Bool) : Thread C :=
  if t.awaitingReuse then { t with killRequested := t.killRequested || kill }
  else { t.vmThreadRequestStopLocked kill with readyForReuse := true }

end Thread

/-! ## the code of a job -/

/-- The steps of the job `j`.  A runtime error sets two flags of the VM; a read of a key may turn
an abort into an exit, and the shell goes on after some errors. -/
inductive CodeStep {C : Type} : Thread C → SlotEvent C → Thread C → Prop where
  | poll {t : Thread C} {j : Nat} (h : t.worker = .code j .native) :
      CodeStep t (.polled j t.vmThreadStopPending) t
  | nativeFail {t : Thread C} {j : Nat} (h : t.worker = .code j .native) :
      CodeStep t (.failed j) t.stopVm
  /-- `vmThreadStoreResult` -/
  | nativeStore {t : Thread C} {j : Nat} (h : t.worker = .code j .native)
      (hfree : t.resultMutex = .free) (value : Value) (success : Bool) :
      CodeStep t (.stored j (some value) success) (t.vmThreadStoreResultDirect (some value) success)
  | callbackDone {t : Thread C} {j : Nat} (h : t.worker = .code j .native) :
      CodeStep t .moved { t with worker := .ran j false }
  | builtinDone {t : Thread C} {j : Nat} {f : VmFlags} (h : t.worker = .code j .native)
      (hvm : t.vm = some f) (value : Value) :
      CodeStep t .moved { t with worker := .store j (some value) (!f.abortRequested) false }
  | entry {t : Thread C} {j : Nat} (h : t.worker = .code j .entry) :
      CodeStep t .moved
        { t.setVm fun f => { f with abortRequested := false, runtimeErrorRaised := false } with
          worker := .code j .rearm }
  /-- `vmTaskRearmStopRequest` -/
  | rearm {t : Thread C} {j : Nat} (h : t.worker = .code j .rearm) :
      CodeStep t .moved
        { (if t.vmThreadStopPending then t.stopVm else t) with worker := .code j .loop }
  /-- `attention` is a signal, or a flag of the owner -/
  | loop {t : Thread C} {j : Nat} {f : VmFlags} (h : t.worker = .code j .loop)
      (hvm : t.vm = some f) (attention : Bool) :
      CodeStep t .moved { t with
        worker :=
          if attention || f.abortRequested || f.exitRequested || t.paused then .code j .interrupt
          else .code j .errorCheck }
  | interruptStop {t : Thread C} {j : Nat} (h : t.worker = .code j .interrupt)
      (hstop : t.vmThreadStopPending = true) :
      CodeStep t (.stopped j) { t.stopVm with worker := .code j .errorCheck }
  | interrupt {t : Thread C} {j : Nat} (h : t.worker = .code j .interrupt)
      (hstop : t.vmThreadStopPending = false) (hpaused : t.paused = false) :
      CodeStep t .moved { t with worker := .code j .errorCheck }
  | errorReturn {t : Thread C} {j : Nat} {f : VmFlags} (h : t.worker = .code j .errorCheck)
      (hvm : t.vm = some f) (hraised : f.runtimeErrorRaised = true)
      (habort : f.abortRequested = true) :
      CodeStep t .moved { t with worker := .store j none false false }
  | errorCheck {t : Thread C} {j : Nat} {f : VmFlags} (h : t.worker = .code j .errorCheck)
      (hvm : t.vm = some f) (hraised : f.runtimeErrorRaised = false ∨ f.abortRequested = false) :
      CodeStep t .moved
        { t.setVm fun f => { f with runtimeErrorRaised := false } with
          worker := .code j .exitCheck }
  | exitStop {t : Thread C} {j : Nat} {f : VmFlags} (h : t.worker = .code j .exitCheck)
      (hvm : t.vm = some f) (hflags : f.exitRequested = true ∨ f.abortRequested = true)
      (hstop : t.vmThreadStopPending = true) :
      CodeStep t (.stopped j) { t.stopVm with worker := .store j none false false }
  /-- `shellRuntimeShouldDeferExit`, or not -/
  | exitCheck {t : Thread C} {j : Nat} {f : VmFlags} (h : t.worker = .code j .exitCheck)
      (hvm : t.vm = some f) (hflags : f.exitRequested = true ∨ f.abortRequested = true)
      (hstop : t.vmThreadStopPending = false) (defer : Bool) :
      CodeStep t .moved
        { t with worker := if defer then .code j .loop else .code j .unwind }
  | fetch {t : Thread C} {j : Nat} {f : VmFlags} (h : t.worker = .code j .exitCheck)
      (hvm : t.vm = some f) (hexit : f.exitRequested = false) (habort : f.abortRequested = false) :
      CodeStep t (.instruction j) { t with worker := .code j .instruction }
  | unwindFail {t : Thread C} {j : Nat} (h : t.worker = .code j .unwind) :
      CodeStep t .moved { t with worker := .store j none false false }
  | unwindHalt {t : Thread C} {j : Nat} (h : t.worker = .code j .unwind)
      (result : Option Value) :
      CodeStep t .moved
        { t.setVm fun f => { f with exitRequested := false, abortRequested := false } with
          worker := if result.isSome then .store j result true false else .ran j false }
  | unwind {t : Thread C} {j : Nat} (h : t.worker = .code j .unwind) (suspendUnwind : Bool) :
      CodeStep t (.unwound j)
        { t.setVm fun f => { f with exitRequested := suspendUnwind, abortRequested := false } with
          worker := .code j .loop }
  | done {t : Thread C} {j : Nat} (h : t.worker = .code j .instruction) :
      CodeStep t .moved { t with worker := .code j .loop }
  | fail {t : Thread C} {j : Nat} (h : t.worker = .code j .instruction) (returns : Bool) :
      CodeStep t (.failed j)
        { t.stopVm with
          worker := if returns then .store j none false false else .code j .loop }
  | exit {t : Thread C} {j : Nat} (h : t.worker = .code j .instruction) :
      CodeStep t .moved
        { t.setVm fun f => { f with exitRequested := true } with worker := .code j .loop }
  | readKey {t : Thread C} {j : Nat} (h : t.worker = .code j .instruction) :
      CodeStep t .moved
        { t.setVm fun f => { f with abortRequested := false, exitRequested := true } with
          worker := .code j .loop }
  | abortKey {t : Thread C} {j : Nat} (h : t.worker = .code j .instruction) :
      CodeStep t (.failed j)
        { t.setVm fun f => { f with abortRequested := true, exitRequested := true } with
          worker := .code j .loop }
  | recover {t : Thread C} {j : Nat} (h : t.worker = .code j .instruction) :
      CodeStep t (.recovered j)
        { t.setVm fun f => { f with abortRequested := false, exitRequested := false } with
          worker := .code j .loop }
  /-- a wait polls `vmConsumeInterruptRequest` -/
  | waitStop {t : Thread C} {j : Nat} (h : t.worker = .code j .instruction)
      (hstop : t.vmThreadStopPending = true) :
      CodeStep t (.stopped j) { t.stopVm with worker := .code j .loop }
  /-- a call of `interpretBytecode` from the instruction -/
  | nested {t : Thread C} {j : Nat} (h : t.worker = .code j .instruction) :
      CodeStep t .moved { t with worker := .code j .entry }
  | finish {t : Thread C} {j : Nat} (h : t.worker = .code j .instruction)
      (result : Option Value) :
      CodeStep t .moved
        { t with worker := if result.isSome then .store j result true false else .ran j false }

/-! ## `threadStart` -/

/-- The steps of a worker outside the code of its job; `sd` is `shuttingDownWorkers`. -/
inductive WorkerStep {C : Type} (sd : Bool) : Thread C → SlotEvent C → Thread C → Prop where
  | topExit {t : Thread C} (h : t.worker = .top none) (hstop : (sd || t.killRequested) = true) :
      WorkerStep sd t .retired { t with worker := .exitRegistry }
  | topExitJob {t : Thread C} {j : Nat} (h : t.worker = .top (some j))
      (hstop : (sd || t.killRequested) = true) :
      WorkerStep sd t .moved { t with worker := .exitJob j }
  | top {t : Thread C} (h : t.worker = .top none) (hstop : (sd || t.killRequested) = false) :
      WorkerStep sd t .moved { t with worker := .announce }
  | topJob {t : Thread C} {j : Nat} (h : t.worker = .top (some j))
      (hstop : (sd || t.killRequested) = false) :
      WorkerStep sd t .moved { t with worker := .pickup j }
  | announce {t : Thread C} (h : t.worker = .announce) :
      WorkerStep sd t .announced { t with idle := true, worker := .pop }
  /-- `vmThreadJobQueuePop`: the queue shuts down, or the worker is killed -/
  | popNone {t : Thread C} (h : t.worker = .pop) :
      WorkerStep sd t (.popped none) { t with worker := .popped none }
  | pop {t : Thread C} (h : t.worker = .pop) (hkill : t.killRequested = false) (j : Nat) :
      WorkerStep sd t (.popped (some j)) { t with worker := .popped (some j) }
  | unidle {t : Thread C} {job : Option Nat} (h : t.worker = .popped job) :
      WorkerStep sd t .unidled
        { t with idle := false, worker := job.elim .exitRegistry .pickup }
  | reset {t : Thread C} {j : Nat} (h : t.worker = .pickup j) (hfree : t.resultMutex = .free) :
      WorkerStep sd t .moved { t.vmThreadResetResult with worker := .generation j }
  | generation {t : Thread C} {j : Nat} (h : t.worker = .generation j) :
      WorkerStep sd t (.picked j t.nextGeneration)
        { t with currentJob := some j, jobGeneration := t.nextGeneration, worker := .flags j }
  | flags {t : Thread C} {j : Nat} (h : t.worker = .flags j) :
      WorkerStep sd t .moved
        { t with active := true, cancelRequested := false, paused := false, worker := .prepare j }
  /-- `vmThreadPrepareWorkerVm`, which resets the VM there is or makes one -/
  | prepare {t : Thread C} {j : Nat} (h : t.worker = .prepare j) :
      WorkerStep sd t .moved { t with vm := some {}, worker := .signal j true }
  | prepareFail {t : Thread C} {j : Nat} (h : t.worker = .prepare j) (hvm : t.vm = none) :
      WorkerStep sd t .moved { t with worker := .signal j false }
  | signal {t : Thread C} {j : Nat} {prepared : Bool} (h : t.worker = .signal j prepared) :
      WorkerStep sd t (.assigned j t.jobGeneration)
        { t with worker := if prepared then .awaitResume j else .unprepared j }
  | unprepared {t : Thread C} {j : Nat} (h : t.worker = .unprepared j)
      (hfree : t.resultMutex = .free) :
      WorkerStep sd t (.stored j none false)
        { t.vmThreadStoreResultDirect none false with worker := .awaitConsumed j }
  /-- `vmThreadAwaitResume` -/
  | awaitResume {t : Thread C} {j : Nat} (h : t.worker = .awaitResume j)
      (hpaused : t.paused = false ∨ t.killRequested = true) :
      WorkerStep sd t .moved
        { t with
          cancelRequested := t.cancelRequested || t.killRequested, worker := .startCheck j }
  | startStop {t : Thread C} {j : Nat} (h : t.worker = .startCheck j)
      (hstop : t.vmThreadStopPending = true) :
      WorkerStep sd t (.stopped j) { t with worker := .store j none false true }
  | startShutdown {t : Thread C} {j : Nat} (h : t.worker = .startCheck j)
      (hstop : t.vmThreadStopPending = false) (hsd : sd = true) :
      WorkerStep sd t .moved { t with worker := .store j none false true }
  | start {t : Thread C} {j : Nat} (h : t.worker = .startCheck j)
      (hstop : t.vmThreadStopPending = false) (hsd : sd = false) (bytecode : Bool) :
      WorkerStep sd t (.started j)
        { t with
          vm := t.vm.map fun _ => {}
          worker := .code j (if bytecode then .entry else .native) }
  | store {t : Thread C} {j : Nat} {result : Option Value} {success stopped : Bool}
      (h : t.worker = .store j result success stopped) (hfree : t.resultMutex = .free) :
      WorkerStep sd t (.stored j result success)
        { t.vmThreadStoreResultDirect result success with worker := .ran j stopped }
  | ran {t : Thread C} {j : Nat} {stopped : Bool} (h : t.worker = .ran j stopped)
      (hfree : t.resultMutex = .free) :
      WorkerStep sd t .moved
        { t with
          worker :=
            if t.statusReady = false then .ranStore j stopped
            else if stopped then .ranStopped j else .awaitConsumed j }
  | ranStore {t : Thread C} {j : Nat} {stopped : Bool} (h : t.worker = .ranStore j stopped)
      (hfree : t.resultMutex = .free) :
      WorkerStep sd t (.stored j none (!stopped))
        { t.vmThreadStoreResultDirect none (!stopped) with
          worker := if stopped then .ranStopped j else .awaitConsumed j }
  | ranStopped {t : Thread C} {j : Nat} (h : t.worker = .ranStopped j)
      (hfree : t.resultMutex = .free) :
      WorkerStep sd t (.stored j none false)
        { t.vmThreadStoreResultDirect none false with worker := .awaitConsumed j }
  | awaitConsumed {t : Thread C} {j : Nat} (h : t.worker = .awaitConsumed j) :
      WorkerStep sd t (.jobConsumed j) { t with worker := .park }
  | park {t : Thread C} (h : t.worker = .park) (hfree : t.resultMutex = .free) :
      WorkerStep sd t .moved { t with awaitingReuse := true, worker := .parked }
  | leave {t : Thread C} (h : t.worker = .parked)
      (hready : t.readyForReuse = true) (hstop : (sd || t.killRequested) = false) :
      WorkerStep sd t .moved
        { t with
          readyForReuse := false, active := false, cancelRequested := false
          worker := .leave false }
  | leaveExit {t : Thread C} (h : t.worker = .parked) (hstop : (sd || t.killRequested) = true) :
      WorkerStep sd t .retired
        { t with
          readyForReuse := false, active := false, cancelRequested := false
          worker := .leave true }
  | leaveReset {t : Thread C} (h : t.worker = .leave false) (hfree : t.resultMutex = .free) :
      WorkerStep sd t .moved { t.vmThreadResetResult with worker := .top none }
  | leaveAwaiting {t : Thread C} (h : t.worker = .leave true) (hfree : t.resultMutex = .free) :
      WorkerStep sd t .moved { t with awaitingReuse := false, worker := .exitRegistry }
  | exitJob {t : Thread C} {j : Nat} (h : t.worker = .exitJob j) :
      WorkerStep sd t (.refused j) { t with worker := .exitConsumed j }
  | exitConsumed {t : Thread C} {j : Nat} (h : t.worker = .exitConsumed j) :
      WorkerStep sd t (.jobConsumed j) { t with worker := .exitRegistry }
  | exitRegistry {t : Thread C} (h : t.worker = .exitRegistry) :
      WorkerStep sd t .left { t with idle := false, active := false, worker := .exitVm }
  | exitVm {t : Thread C} (h : t.worker = .exitVm) :
      WorkerStep sd t .moved { t with vm := none, worker := .exitReset }
  | exitReset {t : Thread C} (h : t.worker = .exitReset) (hfree : t.resultMutex = .free) :
      WorkerStep sd t .moved { t.vmThreadResetResult with worker := .exitPool }
  | exitPool {t : Thread C} (h : t.worker = .exitPool) :
      WorkerStep sd t .moved
        { t with currentJob := none, inPool := false, worker := .gone }

/-! ## the other threads -/

/-- The steps of callers.  The late steps of `vmThreadAbandonClaimedSlot` come after it has given
the slot back, so the slot may be in any phase by then. -/
inductive CallerStep {C : Type} (sd : Bool) : Thread C → SlotEvent C → Thread C → Prop where
  | claim {t : Thread C} (h : t.worker = .gone) (c : C) :
      CallerStep sd t (.claimed c)
        { t with inPool := true, active := true, idle := false, worker := .claimed }
  | claimClear {t : Thread C} (h : t.worker = .claimed) (c : C) :
      CallerStep sd t (.claimCleared c)
        { t with
          readyForReuse := false, awaitingReuse := false, cancelRequested := false
          killRequested := false, worker := .cleared }
  | create {t : Thread C} (h : t.worker = .cleared) (c : C) (j : Nat) :
      CallerStep sd t (.created c j) { t with worker := .top (some j) }
  | abandon {t : Thread C} (h : t.worker = .cleared) (c : C) :
      CallerStep sd t (.abandoned c)
        { t with
          inPool := false, active := false, idle := false, awaitingReuse := false
          readyForReuse := false, currentJob := none, worker := .gone }
  | abandonReset {t : Thread C} (hfree : t.resultMutex = .free) (c : C) :
      CallerStep sd t (.abandonReset c) t.vmThreadResetResult
  | abandonClear {t : Thread C} (c : C) :
      CallerStep sd t (.abandonCleared c)
        { t with cancelRequested := false, killRequested := false, paused := false }
  /-- a take has `resultMutex`, again after each wait -/
  | lock {t : Thread C} (hfree : t.resultMutex = .free) (c : C) (args : TakeArgs) :
      CallerStep sd t (.locked c args) { t with resultMutex := .waiting c args }
  | generationMatches {t : Thread C} {c : C} {args : TakeArgs}
      (h : t.resultMutex = .waiting c args) (hgen : t.holdsGeneration args.generation = true) :
      CallerStep sd t .moved { t with resultMutex := .matched c args }
  | generationDiffers {t : Thread C} {c : C} {args : TakeArgs}
      (h : t.resultMutex = .waiting c args) (hgen : t.holdsGeneration args.generation = false) :
      CallerStep sd t (.unlocked c args) { t with resultMutex := .free }
  /-- nothing to wait for, a wait that fails, or the release for the poll and the timed wait -/
  | unfinished {t : Thread C} {c : C} {args : TakeArgs} (h : t.resultMutex = .matched c args)
      (hfinished : t.vmThreadJobFinishedLocked = false) :
      CallerStep sd t (.unlocked c args) { t with resultMutex := .free }
  | take {t : Thread C} {c : C} {args : TakeArgs} (h : t.resultMutex = .matched c args)
      (hfinished : t.vmThreadJobFinishedLocked = true) :
      CallerStep sd t (.taken c args (t.takenValue args) t.statusFlag (t.takeResult args).2)
        { (t.takeResult args).1 with resultMutex := .free }
  /-- the end of `vmJoinThreadById` -/
  | joinRead {t : Thread C} (hfree : t.resultMutex = .free) (c : C) :
      CallerStep sd t (.joinRead c t.statusReady) t
  | release {t : Thread C} (hstate : t.worker.holdsState = false) (hfree : t.resultMutex = .free)
      (c : C) (generation : Nat) :
      CallerStep sd t (.released c generation (t.releaseForReuse generation).2)
        (t.releaseForReuse generation).1
  | stopJob {t : Thread C} {j : Nat} (hstate : t.worker.holdsState = false)
      (hfree : t.resultMutex = .free) (hpool : t.inPool = true) (hjob : t.currentJob = some j)
      (c : C) {generation : Nat} (hgen : t.holdsGeneration generation = true) (kill : Bool) :
      CallerStep sd t (.stopRequested c j generation kill t.awaitingReuse) (t.stopJob kill)
  /-- `vmHandleGlobalInterrupt` at a slot, which cancels first -/
  | interruptCancel {t : Thread C} (hsd : sd = true) :
      CallerStep sd t .interrupted { t with cancelRequested := true }
  | interruptKill {t : Thread C} (hsd : sd = true) (hstate : t.worker.holdsState = false) :
      CallerStep sd t .interrupted (t.vmThreadRequestStopLocked true)
  | pause {t : Thread C} (hpool : t.inPool = true) (paused : Bool) :
      CallerStep sd t .moved { t with paused := paused }

inductive ThreadStep {C : Type} (sd : Bool) (t : Thread C) (e : SlotEvent C) (t' : Thread C) :
    Prop where
  | code (h : CodeStep t e t')
  | worker (h : WorkerStep sd t e t')
  | caller (h : CallerStep sd t e t')

end Pscal
