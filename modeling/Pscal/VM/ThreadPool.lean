import Mathlib
import Pscal.Lib.Transitions
import Pscal.VM.Threads

/-!
# The worker pool

`createThreadJob`, the job queue and the callers of the pool of `vm/vm.c`, around the slots.

* `ThreadJob`, `Pool`  the jobs, the queue, the counters, the slots and the callers;
* `CallerPhase`  where a caller is between two sections;
* `PoolEffect`  what a step on a slot does to the rest of the pool;
* `PoolStep`  the steps of all workers and callers, in any order.

A caller is any thread that spawns, takes, joins, cancels or kills, so also a worker whose job
does.  A wait may end at any time, so a signal adds no step.
-/

namespace Pscal

open Function

structure ThreadJob (n : Nat) where
  submitOnly : Bool
  /-- the slot and the generation, or that no worker takes the job up -/
  assigned : Option (Option (Fin n × Nat)) := none
  assignmentConsumed : Bool := false

inductive CallerPhase (n : Nat) where
  | idle
  /-- `createThreadJob` before the registry lock -/
  | claim (job : Nat)
  | claimed (job : Nat) (i : Fin n)
  /-- before `pthread_create` -/
  | cleared (job : Nat) (i : Fin n)
  /-- `vmThreadAbandonClaimedSlot` after the registry lock -/
  | abandonReset (i : Fin n)
  | abandonClear (i : Fin n)
  | push (job : Nat)
  | wait (job : Nat)
  | awaitAssignment (job : Nat)
  | take (i : Fin n) (args : TakeArgs) (join : Bool)
  /-- with `resultMutex` -/
  | taking (i : Fin n) (args : TakeArgs) (join : Bool)
  /-- before `vmThreadReleaseForReuse` -/
  | release (i : Fin n) (generation : Nat) (join : Bool)
  /-- `vmJoinThreadById` after its take -/
  | joined (i : Fin n)

/-- `n` slots are reserved -/
structure Pool (C : Type) (n : Nat) where
  threads : Fin n → Thread C
  threadsCommittedCount : Nat
  availableWorkers : Int
  workerCount : Int
  shuttingDownWorkers : Bool
  queue : List Nat
  queueShuttingDown : Bool
  jobs : Nat → ThreadJob n
  nextJob : Nat
  caller : C → CallerPhase n

inductive PoolEvent (C : Type) (n : Nat) where
  | slot (i : Fin n) (e : SlotEvent C)
  | queued (caller : C) (job : Nat)
  | spawned (caller : C) (job : Nat) (assigned : Option (Fin n × Nat))
  | moved

namespace Pool

variable {C : Type} {n : Nat} (w : Pool C n)

/-- a new pool of `committed` slots -/
def init (committed : Nat) : Pool C n where
  threads := fun _ => {}
  threadsCommittedCount := committed
  availableWorkers := 0
  workerCount := 0
  shuttingDownWorkers := false
  queue := []
  queueShuttingDown := false
  jobs := fun _ => { submitOnly := false }
  nextJob := 0
  caller := fun _ => .idle

def setThread (i : Fin n) (t : Thread C) : Pool C n :=
  { w with threads := Function.update w.threads i t }

def setCaller [DecidableEq C] (c : C) (p : CallerPhase n) : Pool C n :=
  { w with caller := Function.update w.caller c p }

def setJob (j : Nat) (job : ThreadJob n) : Pool C n :=
  { w with jobs := Function.update w.jobs j job }

theorem jobs_setJob (j k : Nat) (job : ThreadJob n) :
    (w.setJob j job).jobs k = if k = j then job else w.jobs k :=
  update_apply ..

theorem threads_setThread (i k : Fin n) (t : Thread C) :
    (w.setThread i t).threads k = if k = i then t else w.threads k :=
  update_apply ..

theorem caller_setCaller [DecidableEq C] (c d : C) (p : CallerPhase n) :
    (w.setCaller c p).caller d = if d = c then p else w.caller d :=
  update_apply ..

/-- `vmThreadSlot` names the slot `i` -/
def hasSlot (i : Fin n) : Prop := 0 < i.val ∧ i.val < w.threadsCommittedCount

/-- the scan of `createThreadJob` -/
def freeSlot : Option (Fin n) :=
  (List.finRange n).find? fun i =>
    decide (0 < i.val) && decide (i.val < w.threadsCommittedCount) && !(w.threads i).inPool

/-- the slot of a new worker and the slots committed then; `grown` says that `mprotect` works -/
def claimSlot (ceiling : Nat) (grown : Bool) : Option (Fin n × Nat) :=
  if w.availableWorkers = 0 ∧ w.workerCount < ceiling - 1 then
    match w.freeSlot with
    | some i => some (i, w.threadsCommittedCount)
    | none =>
      if h : w.threadsCommittedCount < n then
        if w.threadsCommittedCount < ceiling ∧ grown then
          some (⟨w.threadsCommittedCount, h⟩,
            min n (max (w.threadsCommittedCount * 2) (w.threadsCommittedCount + 1)))
        else none
      else none
  else none

end Pool

def SlotEvent.isLocal {C : Type} : SlotEvent C → Bool
  | .moved | .retired | .picked .. | .started _ | .stored .. | .instruction _ | .polled ..
  | .stopped _ | .failed _ | .unwound _ | .recovered _ | .interrupted => true
  | _ => false

/-- What goes with a step on the slot `i`. -/
inductive PoolEffect {C : Type} [DecidableEq C] {n : Nat} (ceiling : Nat) (w : Pool C n)
    (i : Fin n) : SlotEvent C → Pool C n → Prop where
  | local {e : SlotEvent C} (h : e.isLocal = true) : PoolEffect ceiling w i e w
  | announced : PoolEffect ceiling w i .announced
      { w with availableWorkers := w.availableWorkers + if (w.threads i).idle then 0 else 1 }
  | popNone (h : w.queueShuttingDown = true ∨ (w.threads i).killRequested = true) :
      PoolEffect ceiling w i (.popped none) w
  | pop {j : Nat} {rest : List Nat} (h : w.queueShuttingDown = false) (hqueue : w.queue = j :: rest) :
      PoolEffect ceiling w i (.popped (some j)) { w with queue := rest }
  | unidled : PoolEffect ceiling w i .unidled
      { w with availableWorkers := w.availableWorkers - if w.availableWorkers > 0 then 1 else 0 }
  | assigned (j generation : Nat) : PoolEffect ceiling w i (.assigned j generation)
      (w.setJob j { w.jobs j with assigned := some (some (i, generation)) })
  | refused (j : Nat) : PoolEffect ceiling w i (.refused j)
      (w.setJob j { w.jobs j with assigned := some none })
  | jobConsumed {j : Nat} (h : (w.jobs j).assignmentConsumed = true) :
      PoolEffect ceiling w i (.jobConsumed j) w
  | left : PoolEffect ceiling w i .left
      { w with
        availableWorkers := w.availableWorkers -
          if w.availableWorkers > 0 ∧ (w.threads i).idle then 1 else 0
        workerCount := w.workerCount - 1 }
  | claimed {c : C} {j committed : Nat} (grown : Bool) (hc : w.caller c = .claim j)
      (hsd : w.shuttingDownWorkers = false)
      (hslot : w.claimSlot ceiling grown = some (i, committed)) :
      PoolEffect ceiling w i (.claimed c)
        { w.setCaller c (.claimed j i) with
          workerCount := w.workerCount + 1, threadsCommittedCount := committed }
  | claimCleared {c : C} {j : Nat} (hc : w.caller c = .claimed j i) :
      PoolEffect ceiling w i (.claimCleared c) (w.setCaller c (.cleared j i))
  | created {c : C} {j : Nat} (hc : w.caller c = .cleared j i) :
      PoolEffect ceiling w i (.created c j) (w.setCaller c (.awaitAssignment j))
  | abandoned {c : C} {j : Nat} (hc : w.caller c = .cleared j i) :
      PoolEffect ceiling w i (.abandoned c)
        { w.setCaller c (.abandonReset i) with workerCount := w.workerCount - 1 }
  | abandonReset {c : C} (hc : w.caller c = .abandonReset i) :
      PoolEffect ceiling w i (.abandonReset c) (w.setCaller c (.abandonClear i))
  | abandonCleared {c : C} (hc : w.caller c = .abandonClear i) :
      PoolEffect ceiling w i (.abandonCleared c) (w.setCaller c .idle)
  | locked {c : C} {args : TakeArgs} {join : Bool} (hc : w.caller c = .take i args join) :
      PoolEffect ceiling w i (.locked c args) (w.setCaller c (.taking i args join))
  | unlocked {c : C} {args : TakeArgs} {join : Bool} (hc : w.caller c = .taking i args join)
      {p : CallerPhase n} (hp : p = .take i args join ∨ p = .idle ∨ join = true ∧ p = .joined i) :
      PoolEffect ceiling w i (.unlocked c args) (w.setCaller c p)
  | taken {c : C} {args : TakeArgs} {join : Bool} (hc : w.caller c = .taking i args join)
      (value : Option Value) (status release : Bool) :
      PoolEffect ceiling w i (.taken c args value status release)
        (w.setCaller c
          (if release then .release i args.generation join else if join then .joined i else .idle))
  | joinRead {c : C} (hc : w.caller c = .joined i) (statusReady : Bool) :
      PoolEffect ceiling w i (.joinRead c statusReady)
        (w.setCaller c (if statusReady then .idle else .release i 0 false))
  | released {c : C} {generation : Nat} {join : Bool} (hc : w.caller c = .release i generation join)
      (counted : Bool) :
      PoolEffect ceiling w i (.released c generation counted)
        { w.setCaller c (if join then .joined i else .idle) with
          availableWorkers := w.availableWorkers + if counted then 1 else 0 }
  | stopRequested {c : C} (hc : w.caller c = .idle) (hslot : w.hasSlot i) (j generation : Nat)
      (kill parked : Bool) :
      PoolEffect ceiling w i (.stopRequested c j generation kill parked)
        (w.setCaller c (if parked then .release i (w.threads i).jobGeneration false else .idle))

inductive PoolStep {C : Type} [DecidableEq C] {n : Nat} (ceiling : Nat) :
    Pool C n → PoolEvent C n → Pool C n → Prop where
  | slot {w w' : Pool C n} {i : Fin n} {e : SlotEvent C} {t : Thread C}
      (h : ThreadStep w.shuttingDownWorkers (w.threads i) e t) (heffect : PoolEffect ceiling w i e w') :
      PoolStep ceiling w (.slot i e) (w'.setThread i t)
  | spawn {w : Pool C n} {c : C} (hc : w.caller c = .idle) (submitOnly : Bool) :
      PoolStep ceiling w .moved
        { (w.setJob w.nextJob { submitOnly := submitOnly }).setCaller c (.claim w.nextJob) with
          nextJob := w.nextJob + 1 }
  | refuse {w : Pool C n} {c : C} {j : Nat} (hc : w.caller c = .claim j)
      (hsd : w.shuttingDownWorkers = true) : PoolStep ceiling w .moved (w.setCaller c .idle)
  | full {w : Pool C n} {c : C} {j : Nat} (grown : Bool) (hc : w.caller c = .claim j)
      (hsd : w.shuttingDownWorkers = false) (hslot : w.claimSlot ceiling grown = none)
      (havailable : w.availableWorkers = 0) (hsubmit : (w.jobs j).submitOnly = false) :
      PoolStep ceiling w .moved (w.setCaller c .idle)
  | toQueue {w : Pool C n} {c : C} {j : Nat} (grown : Bool) (hc : w.caller c = .claim j)
      (hsd : w.shuttingDownWorkers = false) (hslot : w.claimSlot ceiling grown = none)
      (havailable : w.availableWorkers ≠ 0 ∨ (w.jobs j).submitOnly = true) :
      PoolStep ceiling w .moved (w.setCaller c (.push j))
  | pushFail {w : Pool C n} {c : C} {j : Nat} (hc : w.caller c = .push j)
      (hqueue : w.queueShuttingDown = true) : PoolStep ceiling w .moved (w.setCaller c .idle)
  | push {w : Pool C n} {c : C} {j : Nat} (hc : w.caller c = .push j)
      (hqueue : w.queueShuttingDown = false) :
      PoolStep ceiling w (.queued c j) { w.setCaller c (.wait j) with queue := w.queue ++ [j] }
  | assigned {w : Pool C n} {c : C} {j : Nat} (hc : w.caller c = .wait j)
      (hjob : (w.jobs j).assigned.isSome = true) :
      PoolStep ceiling w .moved (w.setCaller c (.awaitAssignment j))
  /-- a job still in the queue is taken back, for good or for another try -/
  | takeBack {w : Pool C n} {c : C} {j : Nat} (hc : w.caller c = .wait j) (hmem : j ∈ w.queue)
      (retry : Bool) :
      PoolStep ceiling w .moved
        { w.setCaller c (if retry then .claim j else .idle) with queue := w.queue.erase j }
  | consume {w : Pool C n} {c : C} {j : Nat} {a : Option (Fin n × Nat)}
      (hc : w.caller c = .awaitAssignment j) (hjob : (w.jobs j).assigned = some a) :
      PoolStep ceiling w (.spawned c j a)
        ((w.setJob j { w.jobs j with assignmentConsumed := true }).setCaller c .idle)
  | take {w : Pool C n} {c : C} (hc : w.caller c = .idle) {i : Fin n} (hslot : w.hasSlot i)
      (args : TakeArgs) (join : Bool) :
      PoolStep ceiling w .moved (w.setCaller c (.take i args join))
  | shutdown {w : Pool C n} :
      PoolStep ceiling w .moved { w with shuttingDownWorkers := true }
  | queueShutdown {w : Pool C n} (hsd : w.shuttingDownWorkers = true) :
      PoolStep ceiling w .moved { w with queueShuttingDown := true }

section
variable {C : Type} [DecidableEq C] {n ceiling : Nat} {w w' : Pool C n} {i : Fin n}
  {e : SlotEvent C} {t : Thread C}

theorem PoolStep.caller (h : CallerStep w.shuttingDownWorkers (w.threads i) e t)
    (heffect : PoolEffect ceiling w i e w') : PoolStep ceiling w (.slot i e) (w'.setThread i t) :=
  .slot (.caller h) heffect

end

/-! ## a pool run seen from one slot -/

def PoolEvent.at {C : Type} {n : Nat} (i : Fin n) : PoolEvent C n → Option (SlotEvent C)
  | .slot j e => if j = i then some e else none
  | _ => none

/-- the history of the slot `i` -/
def slotTrace {C : Type} {n : Nat} (i : Fin n) (tr : List (PoolEvent C n)) : List (SlotEvent C) :=
  tr.filterMap (PoolEvent.at i)

end Pscal
