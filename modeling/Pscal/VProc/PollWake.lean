import Mathlib
import Pscal.Lib.Transitions

/-!
# Waking the pollers

`pscal_fd.c` and the loop of the `poll` of `vproc.c`: any number of wakers, which change files and
then call `pscal_fd_poll_wakeup`, and any number of pollers, each a thread with a pipe of its own.

* `WakeChannel`, `PollWorld`  the channels, the list of them, and what each thread is doing;
* `PollerPhase`, `WakeVisit`  where a thread is between two of its steps;
* `WakeStep`  the steps of all threads, in any order.

Each load, exchange and write of a waker is a step; so is each read of a poller, and each look at
one of its files.  The steps follow one another, as the fences make them.
-/

namespace Pscal

/-- `struct wakeChannel`: its flag, and the bytes in its pipe -/
structure WakeChannel where
  pending : Bool
  bytes : Nat
deriving DecidableEq, Repr

def pipeCapacity : Nat := 512

def WakeChannel.wakePipeWrite (ch : WakeChannel) : WakeChannel :=
  { ch with bytes := if ch.bytes < pipeCapacity then ch.bytes + 1 else ch.bytes }

/-- the size of the buffer of `pscalPollDrain` -/
def sinkSize : Nat := 64

section
variable (W P F : Type)

inductive PollerPhase where
  /-- outside of `poll` -/
  | idle
  /-- the files still to look at before the next wait -/
  | looking (left : List F)
  /-- `wakeChannelCreate` with its pipe made -/
  | made
  /-- `wakeChannelCreate` with a byte in the pipe -/
  | charged
  | asleep
  /-- `pscalPollDrain` before a read -/
  | reading
  /-- `pscalPollDrain` after a short read -/
  | clearing

/-- `pscal_fd_poll_wakeup` on its way through the list -/
inductive WakeVisit where
  /-- before the load of the flag of the next channel -/
  | visiting (rest : List P)
  /-- before the exchange of the flag of `p` -/
  | exchanging (p : P) (rest : List P)
  /-- before the write to the pipe of `p` -/
  | writing (p : P) (rest : List P)

structure PollWorld where
  channel : P → Option WakeChannel
  /-- `gWakeChannels` -/
  wakeChannels : List P
  /-- `gWakeLock`, with what the waker that holds it is doing -/
  wakeLock : Option (W × WakeVisit P)
  poller : P → PollerPhase F
  /-- the files of the current `poll` -/
  files : P → List F
  /-- the poller has not looked at the file since the waker changed it -/
  unseen : P → F → W → Prop
  /-- the waker has changed a file and not yet called `pscal_fd_poll_wakeup` -/
  changed : W → Bool

end

namespace PollWorld

variable {W P F : Type} [DecidableEq W] [DecidableEq P] (s : PollWorld W P F)

/-- no thread polls or wakes, and no channel is made -/
def start : PollWorld W P F where
  channel := fun _ => none
  wakeChannels := []
  wakeLock := none
  poller := fun _ => .idle
  files := fun _ => []
  unseen := fun _ _ _ => False
  changed := fun _ => false

def setLock (lock : Option (W × WakeVisit P)) : PollWorld W P F := { s with wakeLock := lock }

def setChanged (w : W) (b : Bool) : PollWorld W P F :=
  { s with changed := Function.update s.changed w b }

def setWakeChannels (l : List P) : PollWorld W P F := { s with wakeChannels := l }

def setPoller (p : P) (phase : PollerPhase F) : PollWorld W P F :=
  { s with poller := Function.update s.poller p phase }

def setChannel (p : P) (ch : Option WakeChannel) : PollWorld W P F :=
  { s with channel := Function.update s.channel p ch }

def setFiles (p : P) (fs : List F) : PollWorld W P F :=
  { s with files := Function.update s.files p fs }

def change (w : W) (f : F) : PollWorld W P F :=
  { s with unseen := fun p g v => (g = f ∧ v = w) ∨ s.unseen p g v }

def look (p : P) (f : F) : PollWorld W P F :=
  { s with unseen := fun q g v => ¬ (q = p ∧ g = f) ∧ s.unseen q g v }

end PollWorld

section
variable {W P F : Type} [DecidableEq W] [DecidableEq P]

inductive WakeParty (W P : Type) where
  | waker (w : W)
  | poller (p : P)

inductive WakeStep : PollWorld W P F → WakeParty W P → PollWorld W P F → Prop where
  | change {s} (w : W) (f : F) (hw : ∀ v, s.wakeLock ≠ some (w, v)) :
      WakeStep s (.waker w) ((s.change w f).setChanged w true)
  /-- `pscal_fd_poll_wakeup` takes the lock -/
  | enter {s} (w : W) (hlock : s.wakeLock = none) :
      WakeStep s (.waker w) ((s.setChanged w false).setLock (some (w, .visiting s.wakeChannels)))
  | loadSet {s} (w : W) {p rest} {ch : WakeChannel}
      (hlock : s.wakeLock = some (w, .visiting (p :: rest))) (hch : s.channel p = some ch)
      (hset : ch.pending = true) : WakeStep s (.waker w) (s.setLock (some (w, .visiting rest)))
  | loadClear {s} (w : W) {p rest} {ch : WakeChannel}
      (hlock : s.wakeLock = some (w, .visiting (p :: rest))) (hch : s.channel p = some ch)
      (hclear : ch.pending = false) :
      WakeStep s (.waker w) (s.setLock (some (w, .exchanging p rest)))
  | exchangeSet {s} (w : W) {p rest} {ch : WakeChannel}
      (hlock : s.wakeLock = some (w, .exchanging p rest)) (hch : s.channel p = some ch)
      (hset : ch.pending = true) : WakeStep s (.waker w) (s.setLock (some (w, .visiting rest)))
  | exchangeClear {s} (w : W) {p rest} {ch : WakeChannel}
      (hlock : s.wakeLock = some (w, .exchanging p rest)) (hch : s.channel p = some ch)
      (hclear : ch.pending = false) :
      WakeStep s (.waker w)
        ((s.setChannel p (some { ch with pending := true })).setLock (some (w, .writing p rest)))
  | write {s} (w : W) {p rest} {ch : WakeChannel}
      (hlock : s.wakeLock = some (w, .writing p rest)) (hch : s.channel p = some ch) :
      WakeStep s (.waker w)
        ((s.setChannel p (some ch.wakePipeWrite)).setLock (some (w, .visiting rest)))
  | leave {s} (w : W) (hlock : s.wakeLock = some (w, .visiting [])) :
      WakeStep s (.waker w) (s.setLock none)
  /-- `poll` is called -/
  | poll {s} (p : P) (fs : List F) (hp : s.poller p = .idle) :
      WakeStep s (.poller p) ((s.setFiles p fs).setPoller p (.looking fs))
  | look {s} (p : P) {f : F} {left} (hp : s.poller p = .looking (f :: left)) :
      WakeStep s (.poller p) ((s.look p f).setPoller p (.looking left))
  /-- `poll` returns, with something ready or at its deadline -/
  | ready {s} (p : P) (hp : s.poller p = .asleep ∨ ∃ left, s.poller p = .looking left) :
      WakeStep s (.poller p) ((s.setFiles p []).setPoller p .idle)
  | create {s} (p : P) (hp : s.poller p = .looking []) (hch : s.channel p = none) :
      WakeStep s (.poller p) ((s.setChannel p (some ⟨true, 0⟩)).setPoller p .made)
  /-- `wakeChannelCreate` gives up, and the files are looked at without a pipe -/
  | createFails {s} (p : P) (hp : s.poller p = .made ∨ s.poller p = .charged) :
      WakeStep s (.poller p) ((s.setChannel p none).setPoller p (.looking (s.files p)))
  | charge {s} (p : P) {ch : WakeChannel} (hp : s.poller p = .made) (hch : s.channel p = some ch) :
      WakeStep s (.poller p) ((s.setChannel p (some ch.wakePipeWrite)).setPoller p .charged)
  | link {s} (p : P) (hp : s.poller p = .charged) (hlock : s.wakeLock = none) :
      WakeStep s (.poller p)
        ((s.setWakeChannels (p :: s.wakeChannels)).setPoller p (.looking []))
  | sleep {s} (p : P) {ch : WakeChannel} (hp : s.poller p = .looking []) (hch : s.channel p = some ch) :
      WakeStep s (.poller p) (s.setPoller p .asleep)
  /-- the wait ends by the time or for a signal -/
  | timeout {s} (p : P) (hp : s.poller p = .asleep) :
      WakeStep s (.poller p) (s.setPoller p (.looking (s.files p)))
  | wake {s} (p : P) {ch : WakeChannel} (hp : s.poller p = .asleep) (hch : s.channel p = some ch)
      (hbytes : 0 < ch.bytes) : WakeStep s (.poller p) (s.setPoller p .reading)
  | read {s} (p : P) {ch : WakeChannel} (hp : s.poller p = .reading) (hch : s.channel p = some ch) :
      WakeStep s (.poller p)
        ((s.setChannel p (some { ch with bytes := ch.bytes - min sinkSize ch.bytes })).setPoller p
          (if min sinkSize ch.bytes = sinkSize then .reading else .clearing))
  | clear {s} (p : P) {ch : WakeChannel} (hp : s.poller p = .clearing) (hch : s.channel p = some ch) :
      WakeStep s (.poller p)
        ((s.setChannel p (some { ch with pending := false })).setPoller p (.looking (s.files p)))
  /-- `wakeChannelEnd`, as the thread ends -/
  | finish {s} (p : P) (hp : p ∈ s.wakeChannels) (hlock : s.wakeLock = none) :
      WakeStep s (.poller p)
        ((((s.setChannel p none).setFiles p []).setWakeChannels
          (s.wakeChannels.filter (· ≠ p))).setPoller p .idle)

end

end Pscal
