import Mathlib
import Pscal.Lib.Transitions

/-!
# The mutex registry

`createMutex`, `lockMutex`, `unlockMutex`, `destroyMutex` and `vmReleaseHeldMutexes` of `vm/vm.c`,
run by any number of VMs on one registry.

* `Mutex`, `MutexWorld`  the slots of the registry and what each VM is doing;
* `MutexPhase`  where a VM is between two critical sections;
* `lockGuarded`, `unlockGuarded`, `destroyCheck`, `destroyMark`, `releaseGuarded`  the critical
  sections;
* `MutexStep`  the steps of all VMs, in any order.

A section under the guard of a mutex, or one that takes the registry lock and gives it back, is
one step.  `destroyMutex` and `vmReleaseHeldMutexes` keep the registry lock over several.  A timed
wait may end at any time, so a signal adds no step.
-/

namespace Pscal

open Function

structure Mutex (V : Type) where
  initialized : Bool := false
  active : Bool := false
  recursive : Bool := false
  holder : Option V := none
  /-- an `int` -/
  depth : Int := 0
  waiters : Nat := 0
  users : Nat := 0

inductive VmMutexStatus where
  | ok | invalid | deadlock | notOwner | busy | interrupted
deriving DecidableEq, Repr

inductive MutexPhase where
  | idle
  | ended
  /-- `lockMutex` before its guard -/
  | lockUse (id : Nat)
  | lockWait (id : Nat)
  | lockPoll (id : Nat)
  | unlockUse (id : Nat)
  /-- before `vmMutexEndUse` -/
  | endUse (id : Nat)
  | destroyCheck (id : Nat)
  | destroyMark (id : Nat)
  /-- `vmReleaseHeldMutexes` before the registry lock -/
  | releaseStart
  | releasing (i : Nat)
deriving DecidableEq, Repr

inductive MutexEvent (V : Type) where
  | created (vm : V) (id : Nat)
  | locked (vm : V) (id : Nat)
  | relocked (vm : V) (id : Nat)
  | unlocked (vm : V) (id : Nat)
  | destroyed (vm : V) (id : Nat)
  | released (vm : V) (id : Nat)
  | failed (vm : V) (status : VmMutexStatus)
  | moved (vm : V)

structure MutexWorld (V : Type) where
  mutexes : Nat → Mutex V
  mutexCount : Nat
  registryLock : Option V
  heldMutexCount : V → Int
  phase : V → MutexPhase

namespace MutexWorld

variable {V : Type} [DecidableEq V] (w : MutexWorld V)

/-- every slot of a fresh registry is zero; each VM runs code or has no job yet -/
def start (jobs : V → Bool) : MutexWorld V where
  mutexes := fun _ => {}
  mutexCount := 0
  registryLock := none
  heldMutexCount := fun _ => 0
  phase := fun v => if jobs v then .idle else .ended

def setMutex (id : Nat) (m : Mutex V) : MutexWorld V :=
  { w with mutexes := Function.update w.mutexes id m }

def setPhase (v : V) (p : MutexPhase) : MutexWorld V :=
  { w with phase := Function.update w.phase v p }

def addHeld (v : V) (k : Int) : MutexWorld V :=
  { w with heldMutexCount := Function.update w.heldMutexCount v (w.heldMutexCount v + k) }

omit [DecidableEq V] in
theorem mutexes_setMutex_self (id : Nat) (m : Mutex V) : (w.setMutex id m).mutexes id = m :=
  update_self ..

theorem phase_setPhase_self (v : V) (p : MutexPhase) : (w.setPhase v p).phase v = p :=
  update_self ..

def setRegistry (lock : Option V) : MutexWorld V := { w with registryLock := lock }

def lookup (id : Int) : Option Nat :=
  if id < 0 ∨ id ≥ w.mutexCount then none
  else if (w.mutexes id.toNat).active then some id.toNat else none

/-! ## sections under the registry lock -/

/-- `vmMutexBeginUse` -/
def beginUse (v : V) (id : Int) (next : Nat → MutexPhase) : MutexWorld V × MutexEvent V :=
  match w.lookup id with
  | none => (w, .failed v .invalid)
  | some id =>
    let m := w.mutexes id
    ((w.setMutex id { m with users := m.users + 1 }).setPhase v (next id), .moved v)

/-- the slot `createMutex` takes, of `ceiling` at most; `grown` says that a new one is committed -/
def createId (ceiling : Nat) (grown : Bool) : Option Nat :=
  match (List.range w.mutexCount).find? fun i => !(w.mutexes i).active with
  | some i => some i
  | none => if w.mutexCount ≥ ceiling ∨ grown = false then none else some w.mutexCount

/-- `createMutex`; `constructed` says that the guard of an untouched slot is made -/
def createMutex (ceiling : Nat) (grown constructed : Bool) (v : V) (recursive : Bool) :
    MutexWorld V × MutexEvent V :=
  match w.createId ceiling grown with
  | none => (w, .failed v .invalid)
  | some id =>
    let m := w.mutexes id
    if m.initialized = false ∧ constructed = false then (w, .failed v .invalid)
    else
      ({ w.setMutex id { m with
          initialized := true, recursive := recursive, holder := none, depth := 0, waiters := 0
          active := true } with
          mutexCount := if id = w.mutexCount then w.mutexCount + 1 else w.mutexCount },
        .created v id)

/-- `destroyMutex` takes the registry lock and looks the mutex up -/
def destroyStart (v : V) (id : Int) : MutexWorld V × MutexEvent V :=
  match w.lookup id with
  | none => (w, .failed v .invalid)
  | some id => ((w.setRegistry (some v)).setPhase v (.destroyCheck id), .moved v)

def destroyCheck (v : V) (id : Nat) : MutexWorld V × MutexEvent V :=
  let m := w.mutexes id
  if m.holder ≠ none ∨ m.waiters > 0 ∨ m.users > 0 then
    ((w.setRegistry none).setPhase v .idle, .failed v .busy)
  else (w.setPhase v (.destroyMark id), .moved v)

def shrinkCount (mutexes : Nat → Mutex V) : Nat → Nat
  | 0 => 0
  | count + 1 => if (mutexes count).active then count + 1 else shrinkCount mutexes count

def destroyMark (v : V) (id : Nat) : MutexWorld V × MutexEvent V :=
  let w' := w.setMutex id { w.mutexes id with active := false }
  (({ w' with mutexCount := shrinkCount w'.mutexes w.mutexCount }.setRegistry none).setPhase v
    .idle, .destroyed v id)

/-! ## sections under the guard of a mutex -/

/-- the loop of `lockMutex`: the VM waits, or becomes the holder -/
def lockLoop (v : V) (id : Nat) : MutexWorld V × MutexEvent V :=
  let m := w.mutexes id
  if m.holder ≠ none then
    ((w.setMutex id { m with waiters := m.waiters + 1 }).setPhase v (.lockWait id), .moved v)
  else
    (((w.setMutex id { m with holder := some v, depth := 1 }).addHeld v 1).setPhase v (.endUse id),
      .locked v id)

def lockGuarded (v : V) (id : Nat) : MutexWorld V × MutexEvent V :=
  let m := w.mutexes id
  if m.holder = some v then
    if m.recursive then
      ((w.setMutex id { m with depth := (m.depth + 1).bmod (2 ^ 32) }).setPhase v (.endUse id),
        .relocked v id)
    else (w.setPhase v (.endUse id), .failed v .deadlock)
  else w.lockLoop v id

/-- after the wait; `rc` says that `pthread_cond_timedwait` returned `0` -/
def lockWoken (v : V) (id : Nat) (rc : Bool) : MutexWorld V × MutexEvent V :=
  let m := w.mutexes id
  let w' := w.setMutex id { m with waiters := m.waiters - 1 }
  if m.holder = none ∨ rc = true then w'.lockLoop v id else (w'.setPhase v (.lockPoll id), .moved v)

def lockPolled (v : V) (id : Nat) (interrupted : Bool) : MutexWorld V × MutexEvent V :=
  if interrupted then (w.setPhase v (.endUse id), .failed v .interrupted) else w.lockLoop v id

def unlockGuarded (v : V) (id : Nat) : MutexWorld V × MutexEvent V :=
  let m := w.mutexes id
  let depth := (m.depth - 1).bmod (2 ^ 32)
  if m.holder ≠ some v then (w.setPhase v (.endUse id), .failed v .notOwner)
  else if depth ≤ 0 then
    (((w.setMutex id { m with holder := none, depth := 0 }).addHeld v (-1)).setPhase v (.endUse id),
      .unlocked v id)
  else ((w.setMutex id { m with depth := depth }).setPhase v (.endUse id), .unlocked v id)

/-- `vmMutexEndUse` -/
def endUse (v : V) (id : Nat) : MutexWorld V × MutexEvent V :=
  let m := w.mutexes id
  ((w.setMutex id { m with users := m.users - 1 }).setPhase v .idle, .moved v)

/-! ## the end of a job -/

/-- `vmReleaseHeldMutexes` up to the registry lock -/
def releaseStart (v : V) : MutexWorld V × MutexEvent V :=
  if w.heldMutexCount v ≤ 0 then (w.setPhase v .ended, .moved v)
  else
    (({ w with heldMutexCount := Function.update w.heldMutexCount v 0 }).setPhase v .releaseStart,
      .moved v)

/-- its loop at a mutex -/
def releaseGuarded (v : V) (i : Nat) : MutexWorld V × MutexEvent V :=
  if i < w.mutexCount then
    let m := w.mutexes i
    if m.active = true ∧ m.initialized = true ∧ m.holder = some v then
      ((w.setMutex i { m with holder := none, depth := 0 }).setPhase v (.releasing (i + 1)),
        .released v i)
    else (w.setPhase v (.releasing (i + 1)), .moved v)
  else ((w.setRegistry none).setPhase v .ended, .moved v)

/-- The next section of a VM that is inside one of the functions (`none`: it is not, or it needs
the registry lock and another has it). -/
def section? (v : V) (rc interrupted : Bool) : Option (MutexWorld V × MutexEvent V) :=
  match w.phase v with
  | .idle | .ended => none
  | .lockUse id => some (w.lockGuarded v id)
  | .lockWait id => some (w.lockWoken v id rc)
  | .lockPoll id => some (w.lockPolled v id interrupted)
  | .unlockUse id => some (w.unlockGuarded v id)
  | .endUse id => some (w.endUse v id)
  | .destroyCheck id => some (w.destroyCheck v id)
  | .destroyMark id => some (w.destroyMark v id)
  | .releaseStart =>
    if w.registryLock = none then
      some ((w.setRegistry (some v)).setPhase v (.releasing 0), .moved v)
    else none
  | .releasing i => some (w.releaseGuarded v i)

end MutexWorld

/-- A call starts in the code of a program, when the registry lock is free. -/
inductive MutexStep {V : Type} [DecidableEq V] (ceiling : Nat) :
    MutexWorld V → MutexEvent V → MutexWorld V → Prop where
  | create {w : MutexWorld V} {v : V} (h : w.phase v = .idle) (hlock : w.registryLock = none)
      (grown constructed recursive : Bool) :
      MutexStep ceiling w (w.createMutex ceiling grown constructed v recursive).2
        (w.createMutex ceiling grown constructed v recursive).1
  | lock {w : MutexWorld V} {v : V} (h : w.phase v = .idle) (hlock : w.registryLock = none)
      (id : Int) :
      MutexStep ceiling w (w.beginUse v id .lockUse).2 (w.beginUse v id .lockUse).1
  | unlock {w : MutexWorld V} {v : V} (h : w.phase v = .idle) (hlock : w.registryLock = none)
      (id : Int) :
      MutexStep ceiling w (w.beginUse v id .unlockUse).2 (w.beginUse v id .unlockUse).1
  | destroy {w : MutexWorld V} {v : V} (h : w.phase v = .idle) (hlock : w.registryLock = none)
      (id : Int) : MutexStep ceiling w (w.destroyStart v id).2 (w.destroyStart v id).1
  | jobEnd {w : MutexWorld V} {v : V} (h : w.phase v = .idle) :
      MutexStep ceiling w (w.releaseStart v).2 (w.releaseStart v).1
  | jobStart {w : MutexWorld V} {v : V} (h : w.phase v = .ended) :
      MutexStep ceiling w (.moved v) (w.setPhase v .idle)
  | section {w : MutexWorld V} {v : V} {rc interrupted : Bool}
      {r : MutexWorld V × MutexEvent V} (h : w.section? v rc interrupted = some r) :
      MutexStep ceiling w r.2 r.1

end Pscal
