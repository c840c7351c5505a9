import Pscal.VProc.PollWake

/-!
# No wake-up of a poller is lost

* `WakeAt s p ch`  the flag of a channel is clear, or its one wake-up is in the pipe, with a waker,
  or with the poller;
* `PollInv`  what holds between any two steps;
* `PollInv.step`  each step keeps it;
* `noLostWakeup`  a poller asleep on an empty pipe has nothing to be woken for but what a waker is
  about to tell it.
-/

namespace Pscal

open Transitions List Option Function

variable {W P F : Type}

/-! ## the invariant -/

/-- outside of `wakeChannelCreate` and `pscalPollDrain` -/
def PollerPhase.Calm : PollerPhase F → Prop
  | .idle | .looking _ | .asleep => True
  | .made | .charged | .reading | .clearing => False

def PollerPhase.Unpiped : PollerPhase F → Prop
  | .idle | .looking _ => True
  | _ => False

def PollerPhase.Creating : PollerPhase F → Prop
  | .made | .charged => True
  | _ => False

def PollerPhase.left : PollerPhase F → List F
  | .looking left => left
  | _ => []

def WakeVisit.left : WakeVisit P → List P
  | .visiting rest => rest
  | .exchanging p rest => p :: rest
  | .writing _ rest => rest

def WakeVisit.all : WakeVisit P → List P
  | .visiting rest => rest
  | .exchanging p rest => p :: rest
  | .writing p rest => p :: rest

/-- a waker is between setting the flag of `p` and writing the byte -/
def Writing (s : PollWorld W P F) (p : P) : Prop :=
  ∃ w rest, s.wakeLock = some (w, .writing p rest)

/-- the waker has changed a file and not yet come to the channel of `p` -/
def StillToVisit (s : PollWorld W P F) (w : W) (p : P) : Prop :=
  s.changed w = true ∨ ∃ v, s.wakeLock = some (w, v) ∧ p ∈ v.left

inductive WakeAt (s : PollWorld W P F) (p : P) (ch : WakeChannel) : Prop where
  | nowhere (hflag : ch.pending = false) (hbytes : ch.bytes = 0) (hw : ¬ Writing s p)
      (hp : (s.poller p).Calm)
  | pipe (hflag : ch.pending = true) (hbytes : ch.bytes = 1) (hw : ¬ Writing s p)
      (hp : s.poller p ≠ .made ∧ s.poller p ≠ .clearing)
  | waker (hflag : ch.pending = true) (hbytes : ch.bytes = 0) (hw : Writing s p)
      (hp : (s.poller p).Calm)
  | poller (hflag : ch.pending = true) (hbytes : ch.bytes = 0) (hw : ¬ Writing s p)
      (hp : s.poller p = .made ∨ s.poller p = .clearing)

structure PollInv (s : PollWorld W P F) : Prop where
  visits : ∀ w v, s.wakeLock = some (w, v) → ∀ p ∈ v.all, p ∈ s.wakeChannels
  linked : ∀ p ∈ s.wakeChannels, s.channel p ≠ none ∧ ¬ (s.poller p).Creating
  channels : ∀ p, s.channel p ≠ none → p ∈ s.wakeChannels ∨ (s.poller p).Creating
  phases : ∀ p, s.channel p = none → (s.poller p).Unpiped
  wakes : ∀ p ch, s.channel p = some ch → WakeAt s p ch
  /-- what a poller with its flag clear has not seen, it is yet to look at or to be told -/
  seen : ∀ p ch, s.channel p = some ch → ch.pending = false → ∀ f ∈ s.files p,
    f ∉ (s.poller p).left → ∀ w, s.unseen p f w → StillToVisit s w p

theorem PollInv.start : PollInv (PollWorld.start : PollWorld W P F) where
  visits := by simp [PollWorld.start]
  linked := by simp [PollWorld.start]
  channels := by simp [PollWorld.start]
  phases := by simp [PollWorld.start, PollerPhase.Unpiped]
  wakes := by simp [PollWorld.start]
  seen := by simp [PollWorld.start]

section
variable {s s' : PollWorld W P F}

variable {p : P} {w : W} {ch : WakeChannel}

theorem PollInv.not_writing (h : PollInv s) (hp : p ∉ s.wakeChannels) : ¬ Writing s p := by
  rintro ⟨w, rest, hlock⟩
  exact hp (h.visits w _ hlock p mem_cons_self)

theorem PollInv.not_linked (h : PollInv s) (hp : s.channel p = none) : p ∉ s.wakeChannels :=
  fun hmem => (h.linked p hmem).1 hp

theorem not_writing_of_unlocked (hlock : s.wakeLock = none) (p : P) : ¬ Writing s p := by
  rintro ⟨v, rest', hlock'⟩
  cases hlock.symm.trans hlock'

theorem not_writing_of_visiting {rest : List P} (hlock : s.wakeLock = some (w, .visiting rest))
    (p : P) : ¬ Writing s p := by
  rintro ⟨v, rest', hlock'⟩
  cases hlock.symm.trans hlock'

theorem not_writing_of_exchanging {q : P} {rest : List P}
    (hlock : s.wakeLock = some (w, .exchanging q rest)) (p : P) : ¬ Writing s p := by
  rintro ⟨v, rest', hlock'⟩
  cases hlock.symm.trans hlock'

theorem writing_iff {q : P} {rest : List P} (hlock : s.wakeLock = some (w, .writing q rest)) (p : P)
    : Writing s p ↔ p = q := by
  constructor
  · rintro ⟨v, rest', hlock'⟩
    cases hlock.symm.trans hlock'
    rfl
  · rintro rfl
    exact ⟨w, rest, hlock⟩

theorem WakeAt.frame (h : WakeAt s p ch) (hpoller : s'.poller p = s.poller p)
    (hw : Writing s' p ↔ Writing s p) : WakeAt s' p ch := by
  cases h with
  | nowhere hflag hbytes hnot hp => exact .nowhere hflag hbytes (fun h => hnot (hw.mp h)) (hpoller ▸ hp)
  | pipe hflag hbytes hnot hp => exact .pipe hflag hbytes (fun h => hnot (hw.mp h)) (hpoller ▸ hp)
  | waker hflag hbytes hin hp => exact .waker hflag hbytes (hw.mpr hin) (hpoller ▸ hp)
  | poller hflag hbytes hnot hp => exact .poller hflag hbytes (fun h => hnot (hw.mp h)) (hpoller ▸ hp)

theorem PollerPhase.Calm.ne {phase : PollerPhase F} (h : phase.Calm) :
    phase ≠ .made ∧ phase ≠ .clearing := by
  constructor
  · rintro rfl
    exact h
  · rintro rfl
    exact h

theorem WakeAt.calm (h : WakeAt s p ch) (hcalm : (s.poller p).Calm) (hcalm' : (s'.poller p).Calm)
    (hw : Writing s' p ↔ Writing s p) : WakeAt s' p ch := by
  cases h with
  | nowhere hflag hbytes hn hp => exact .nowhere hflag hbytes (fun h => hn (hw.mp h)) hcalm'
  | pipe hflag hbytes hn hp => exact .pipe hflag hbytes (fun h => hn (hw.mp h)) hcalm'.ne
  | waker hflag hbytes hin hp => exact .waker hflag hbytes (hw.mpr hin) hcalm'
  | poller hflag hbytes hn hp =>
    rcases hp with hp | hp
    · exact absurd hp hcalm.ne.1
    · exact absurd hp hcalm.ne.2

theorem wakes_of_poller (h : PollInv s) (p : P) (hchannel : ∀ q, q ≠ p → s'.channel q = s.channel q)
    (hpoller : ∀ q, q ≠ p → s'.poller q = s.poller q) (hlock : s'.wakeLock = s.wakeLock)
    (hself : ∀ ch, s'.channel p = some ch → WakeAt s' p ch) :
    ∀ q ch, s'.channel q = some ch → WakeAt s' q ch := by
  intro q ch hq
  by_cases hqp : q = p
  · subst hqp
    exact hself ch hq
  · rw [hchannel q hqp] at hq
    exact (h.wakes q ch hq).frame (hpoller q hqp) (by rw [Writing, hlock]; rfl)

theorem wakes_of_waker (h : PollInv s) (hchannel : s'.channel = s.channel)
    (hpoller : s'.poller = s.poller) (hnot : ∀ p, ¬ Writing s p) (hnot' : ∀ p, ¬ Writing s' p) :
    ∀ p ch, s'.channel p = some ch → WakeAt s' p ch := by
  intro p ch hp
  rw [hchannel] at hp
  exact (h.wakes p ch hp).frame (by rw [hpoller])
    ⟨fun h => absurd h (hnot' p), fun h => absurd h (hnot p)⟩
theorem PollInv.phase_of_clear (h : PollInv s) (hch : s.channel p = some ch)
    (hclear : ch.pending = false) : (s.poller p).Calm := by
  cases h.wakes p ch hch with
  | nowhere _ _ _ hcalm => exact hcalm
  | pipe hflag | waker hflag | poller hflag => exact absurd (hclear.symm.trans hflag) (by decide)

theorem PollerPhase.Calm.not_creating {phase : PollerPhase F} (h : phase.Calm) :
    ¬ phase.Creating := by
  cases phase with
  | made | charged => exact absurd h id
  | _ => exact id

theorem linked_of_clear (h : PollInv s) (hch : s.channel p = some ch) (hclear : ch.pending = false)
    : p ∈ s.wakeChannels :=
  (h.channels p (by rw [hch]; exact some_ne_none ch)).resolve_right
    (h.phase_of_clear hch hclear).not_creating

theorem seen_of_waker (h : PollInv s) {v v' : WakeVisit P} (hlock : s.wakeLock = some (w, v))
    (hlock' : s'.wakeLock = some (w, v'))
    (hsame : s'.changed = s.changed ∧ s'.poller = s.poller ∧ s'.files = s.files ∧ s'.unseen =
      s.unseen)
    (hclear : ∀ p ch, s'.channel p = some ch → ch.pending = false → s.channel p = some ch ∧ (p ∈
      v.left → p ∈ v'.left)) :
    ∀ p ch, s'.channel p = some ch → ch.pending = false → ∀ f ∈ s'.files p,
      f ∉ (s'.poller p).left → ∀ w, s'.unseen p f w → StillToVisit s' w p := by
  obtain ⟨hchanged, hpoller, hfiles, hunseen⟩ := hsame
  intro p ch hch hflag f hf hleft v₁ hu
  rw [hfiles] at hf
  rw [hpoller] at hleft
  rw [hunseen] at hu
  obtain ⟨hch', hmem⟩ := hclear p ch hch hflag
  rcases h.seen p ch hch' hflag f hf hleft v₁ hu with hc | ⟨v₂, hl, hp⟩
  · exact .inl (hchanged ▸ hc)
  · obtain ⟨rfl, rfl⟩ := Prod.mk.inj (some.inj (hlock.symm.trans hl))
    exact .inr ⟨v', hlock', hmem hp⟩

theorem seen_of_poller (h : PollInv s) (p : P)
    (hother : ∀ q, q ≠ p → s'.channel q = s.channel q ∧ s'.poller q = s.poller q ∧
      s'.files q = s.files q ∧ s'.unseen q = s.unseen q)
    (hlock : s'.wakeLock = s.wakeLock ∧ s'.changed = s.changed)
    (hself : ∀ ch, s'.channel p = some ch → ch.pending = false → ∀ f ∈ s'.files p,
      f ∉ (s'.poller p).left → ∀ w, s'.unseen p f w → StillToVisit s w p) :
    ∀ q ch, s'.channel q = some ch → ch.pending = false → ∀ f ∈ s'.files q,
      f ∉ (s'.poller q).left → ∀ w, s'.unseen q f w → StillToVisit s' w q := by
  intro q ch hch hflag f hf hleft w hu
  have hstill : StillToVisit s w q := by
    by_cases hqp : q = p
    · subst hqp
      exact hself ch hch hflag f hf hleft w hu
    · obtain ⟨hchannel, hpoller, hfiles, hunseen⟩ := hother q hqp
      rw [hchannel] at hch
      rw [hfiles] at hf
      rw [hpoller] at hleft
      rw [hunseen] at hu
      exact h.seen q ch hch hflag f hf hleft w hu
  unfold StillToVisit at hstill ⊢
  rwa [hlock.1, hlock.2]

theorem PollInv.bytes_le (h : PollInv s) (hch : s.channel p = some ch) : ch.bytes ≤ 1 := by
  cases h.wakes p ch hch with
  | nowhere _ hbytes | waker _ hbytes | poller _ hbytes => exact hbytes ▸ Nat.zero_le 1
  | pipe _ hbytes => exact hbytes ▸ Nat.le_refl 1

theorem PollInv.asleep_writing (h : PollInv s) (hch : s.channel p = some ch)
    (hp : s.poller p = .asleep) (hempty : ch.bytes = 0) (hflag : ch.pending = true) :
    Writing s p := by
  cases h.wakes p ch hch with
  | waker _ _ hw => exact hw
  | nowhere hclear => exact absurd (hclear.symm.trans hflag) (by decide)
  | pipe _ hone => exact absurd (hempty.symm.trans hone) (by decide)
  | poller _ _ _ hphase => rcases hphase with hq | hq <;> cases hp.symm.trans hq

end

variable [DecidableEq W] [DecidableEq P]

attribute [local simp] PollWorld.change PollWorld.setChanged PollWorld.setLock
  PollWorld.setChannel PollWorld.setPoller PollWorld.setFiles PollWorld.look
  PollWorld.setWakeChannels

section
variable {s s' : PollWorld W P F} {e : WakeParty W P}

/-! ## the list and the channels -/

theorem PollInv.visits_step (h : PollInv s) (hstep : WakeStep s e s') :
    ∀ w v, s'.wakeLock = some (w, v) → ∀ p ∈ v.all, p ∈ s'.wakeChannels := by
  have hvisits := h.visits
  cases hstep with
  | enter w hlock =>
    rintro v _ heq p hp
    obtain ⟨rfl, rfl⟩ := Prod.mk.inj (some.inj heq)
    exact hp
  | loadSet w hlock _ _ | loadClear w hlock _ _ | exchangeSet w hlock _ _ | exchangeClear w hlock _ _
  | write w hlock _ =>
    -- the visit goes on with the same channels or all but the first
    have hall := hvisits _ _ hlock
    simp only [WakeVisit.all, mem_cons] at hall
    rintro v _ heq p hp
    obtain ⟨rfl, rfl⟩ := Prod.mk.inj (some.inj heq)
    simp only [WakeVisit.all, mem_cons] at hp
    first | exact hall p hp | exact hall p (.inr hp)
  | leave w hlock => exact fun _ _ heq => nomatch heq
  | link p hp hlock => exact fun w v heq => nomatch hlock.symm.trans heq
  | finish p hp hlock => exact fun w v heq => nomatch hlock.symm.trans heq
  | _ => exact hvisits

theorem PollInv.linked_step (h : PollInv s) (hstep : WakeStep s e s') :
    ∀ p ∈ s'.wakeChannels, s'.channel p ≠ none ∧ ¬ (s'.poller p).Creating := by
  have hlinked := h.linked
  have hchannels := h.channels
  have hphases := h.phases
  cases hstep <;> simp <;>
    grind [PollerPhase.Creating, PollerPhase.Unpiped, update_apply]

theorem PollInv.channels_step (h : PollInv s) (hstep : WakeStep s e s') :
    ∀ p, s'.channel p ≠ none → p ∈ s'.wakeChannels ∨ (s'.poller p).Creating := by
  have hlinked := h.linked
  have hchannels := h.channels
  cases hstep <;> simp <;> grind [PollerPhase.Creating, update_apply]

theorem PollInv.phases_step (h : PollInv s) (hstep : WakeStep s e s') :
    ∀ p, s'.channel p = none → (s'.poller p).Unpiped := by
  have hphases := h.phases
  cases hstep <;> simp <;> grind [PollerPhase.Unpiped, update_apply]

/-! ## the wake-up of a channel -/

theorem PollInv.wakes_step (h : PollInv s) (hstep : WakeStep s e s') :
    ∀ p ch, s'.channel p = some ch → WakeAt s' p ch := by
  have hwakes := h.wakes
  cases hstep with
  | change w f hw => exact fun p ch hp => (hwakes p ch hp).frame rfl Iff.rfl
  | enter w hlock =>
    exact wakes_of_waker h rfl rfl (not_writing_of_unlocked hlock) (not_writing_of_visiting rfl)
  | loadSet w hlock _ _ =>
    exact wakes_of_waker h rfl rfl (not_writing_of_visiting hlock) (not_writing_of_visiting rfl)
  | loadClear w hlock _ _ =>
    exact wakes_of_waker h rfl rfl (not_writing_of_visiting hlock) (not_writing_of_exchanging rfl)
  | exchangeSet w hlock _ _ =>
    exact wakes_of_waker h rfl rfl (not_writing_of_exchanging hlock) (not_writing_of_visiting rfl)
  | leave w hlock =>
    exact wakes_of_waker h rfl rfl (not_writing_of_visiting hlock) (not_writing_of_unlocked rfl)
  | @exchangeClear w p rest ch hlock hch hclear =>
    -- the flag was clear, so the wake-up was nowhere; now it is with the waker
    intro q ch' hq
    by_cases hqp : q = p
    · subst hqp
      obtain rfl : _ = ch' := by simpa using hq
      cases hwakes q ch hch with
      | nowhere _ hbytes _ hcalm => exact .waker rfl hbytes ⟨w, rest, rfl⟩ hcalm
      | pipe hflag | waker hflag | poller hflag => exact absurd (hclear.symm.trans hflag) (by decide)
    · have hq' : s.channel q = some ch' := by simpa [hqp] using hq
      refine (hwakes q ch' hq').frame rfl ?_
      rw [writing_iff rfl]
      exact ⟨fun h => absurd h hqp, fun h => absurd h (not_writing_of_exchanging hlock q)⟩
  | @write w p rest ch hlock hch =>
    intro q ch' hq
    have hnot : ¬ Writing ((s.setChannel p (some ch.wakePipeWrite)).setLock
        (some (w, .visiting rest))) q := not_writing_of_visiting rfl q
    by_cases hqp : q = p
    · subst hqp
      obtain rfl : _ = ch' := by simpa using hq
      have hwriting : Writing s q := ⟨w, rest, hlock⟩
      cases hwakes q ch hch with
      | waker hflag hbytes _ hcalm =>
        refine .pipe hflag ?_ hnot hcalm.ne
        rw [WakeChannel.wakePipeWrite, hbytes]
        rfl
      | nowhere _ _ hn | pipe _ _ hn | poller _ _ hn => exact absurd hwriting hn
    · have hq' : s.channel q = some ch' := by simpa [hqp] using hq
      refine (hwakes q ch' hq').frame rfl ⟨fun h => absurd h hnot, fun h => ?_⟩
      exact absurd ((writing_iff hlock q).mp h) hqp
  | poll p fs hp =>
    refine wakes_of_poller h p (fun _ _ => rfl) (fun q hq => by simp [hq]) rfl fun ch hch => ?_
    exact (hwakes p ch hch).calm (by rw [hp]; trivial) (by simp [PollerPhase.Calm]) Iff.rfl
  | look p hp =>
    refine wakes_of_poller h p (fun _ _ => rfl) (fun q hq => by simp [hq]) rfl fun ch hch => ?_
    exact (hwakes p ch hch).calm (by rw [hp]; trivial) (by simp [PollerPhase.Calm]) Iff.rfl
  | ready p hp =>
    refine wakes_of_poller h p (fun _ _ => rfl) (fun q hq => by simp [hq]) rfl fun ch hch => ?_
    have hcalm : (s.poller p).Calm := by
      rcases hp with hp | ⟨left, hp⟩
      · rw [hp]
        trivial
      · rw [hp]
        trivial
    exact (hwakes p ch hch).calm hcalm (by simp [PollerPhase.Calm]) Iff.rfl
  | sleep p hp hch =>
    refine wakes_of_poller h p (fun _ _ => rfl) (fun q hq => by simp [hq]) rfl fun ch hch => ?_
    exact (hwakes p ch hch).calm (by rw [hp]; trivial) (by simp [PollerPhase.Calm]) Iff.rfl
  | timeout p hp =>
    refine wakes_of_poller h p (fun _ _ => rfl) (fun q hq => by simp [hq]) rfl fun ch hch => ?_
    exact (hwakes p ch hch).calm (by rw [hp]; trivial) (by simp [PollerPhase.Calm]) Iff.rfl
  | create p hp hch =>
    refine wakes_of_poller h p (fun q hq => by simp [hq]) (fun q hq => by simp [hq]) rfl
      fun ch' hch' => ?_
    obtain rfl : _ = ch' := by simpa using hch'
    exact .poller rfl rfl (h.not_writing (h.not_linked hch)) (.inl (by simp))
  | createFails p hp =>
    refine wakes_of_poller h p (fun q hq => by simp [hq]) (fun q hq => by simp [hq]) rfl
      fun ch' hch' => ?_
    exact absurd hch' (by simp)
  | finish p hp hlock =>
    refine wakes_of_poller h p (fun q hq => by simp [hq]) (fun q hq => by simp [hq]) rfl
      fun ch' hch' => ?_
    exact absurd hch' (by simp)
  | @charge p ch hp hch =>
    refine wakes_of_poller h p (fun q hq => by simp [hq]) (fun q hq => by simp [hq]) rfl
      fun ch' hch' => ?_
    obtain rfl : _ = ch' := by simpa using hch'
    cases hwakes p ch hch with
    | poller hflag hbytes hn _ =>
      refine .pipe hflag ?_ hn (by simp)
      rw [WakeChannel.wakePipeWrite, hbytes]
      rfl
    | nowhere _ _ _ hcalm | waker _ _ _ hcalm => exact absurd hp hcalm.ne.1
    | pipe _ _ _ hnot => exact absurd hp hnot.1
  | link p hp hlock =>
    refine wakes_of_poller h p (fun _ _ => rfl) (fun q hq => by simp [hq]) rfl fun ch hch => ?_
    cases hwakes p ch hch with
    | pipe hflag hbytes hn _ => exact .pipe hflag hbytes hn (by simp)
    | nowhere _ _ _ hcalm | waker _ _ _ hcalm => exact (hp ▸ hcalm : PollerPhase.Calm .charged).elim
    | poller _ _ _ hin => exact absurd hin (by simp [hp])
  | @wake p ch hp hch hbytes =>
    refine wakes_of_poller h p (fun _ _ => rfl) (fun q hq => by simp [hq]) rfl fun ch' hch' => ?_
    obtain rfl : ch = ch' := some.inj (hch.symm.trans hch')
    cases hwakes p ch hch with
    | pipe hflag hone hn _ => exact .pipe hflag hone hn (by simp)
    | nowhere _ hzero | waker _ hzero | poller _ hzero => exact absurd hbytes (by omega)
  | @read p ch hp hch =>
    refine wakes_of_poller h p (fun q hq => by simp [hq]) (fun q hq => by simp [hq]) rfl
      fun ch' hch' => ?_
    obtain rfl : _ = ch' := by simpa using hch'
    cases hwakes p ch hch with
    | pipe hflag hone hn _ =>
      -- one byte is less than the buffer takes, so the read is short
      refine .poller hflag (by rw [hone]; rfl) hn (.inr ?_)
      simp [hone, sinkSize]
    | nowhere _ _ _ hcalm | waker _ _ _ hcalm => exact (hp ▸ hcalm : PollerPhase.Calm .reading).elim
    | poller _ _ _ hin => exact absurd hin (by simp [hp])
  | @clear p ch hp hch =>
    refine wakes_of_poller h p (fun q hq => by simp [hq]) (fun q hq => by simp [hq]) rfl
      fun ch' hch' => ?_
    obtain rfl : _ = ch' := by simpa using hch'
    cases hwakes p ch hch with
    | poller _ hbytes hn _ => exact .nowhere rfl hbytes hn (by simp [PollerPhase.Calm])
    | nowhere _ _ _ hcalm | waker _ _ _ hcalm => exact absurd hp hcalm.ne.2
    | pipe _ _ _ hnot => exact absurd hp hnot.2

/-! ## what a poller has not seen -/

theorem PollInv.seen_step (h : PollInv s) (hstep : WakeStep s e s') :
    ∀ p ch, s'.channel p = some ch → ch.pending = false → ∀ f ∈ s'.files p,
      f ∉ (s'.poller p).left → ∀ w, s'.unseen p f w → StillToVisit s' w p := by
  have hseen := h.seen
  cases hstep with
  | change w f hw =>
    intro p ch hch hflag g hg hleft v hu
    rcases hu with ⟨-, rfl⟩ | hu
    · exact .inl (by simp)
    · rcases hseen p ch hch hflag g hg hleft v hu with hc | hl
      · refine .inl ?_
        by_cases hvw : v = w
        · simp [hvw]
        · simpa [hvw] using hc
      · exact .inr hl
  | enter w hlock =>
    intro p ch hch hflag f hf hleft v hu
    by_cases hvw : v = w
    · refine .inr ⟨.visiting s.wakeChannels, ?_, linked_of_clear h hch hflag⟩
      rw [hvw]
      rfl
    · rcases hseen p ch hch hflag f hf hleft v hu with hc | ⟨_, hl, _⟩
      · exact .inl (by simpa [hvw] using hc)
      · cases hlock.symm.trans hl
  | @loadSet w p rest ch hlock hch hset | @exchangeSet w p rest ch hlock hch hset =>
    -- a channel passed by has its flag set
    refine seen_of_waker h hlock rfl ⟨rfl, rfl, rfl, rfl⟩ fun q ch' hch' hflag => ?_
    refine ⟨hch', fun hq => (mem_cons.mp hq).resolve_left ?_⟩
    rintro rfl
    rw [some.inj (hch.symm.trans hch'), hflag] at hset
    exact Bool.noConfusion hset
  | loadClear w hlock _ _ =>
    exact seen_of_waker h hlock rfl ⟨rfl, rfl, rfl, rfl⟩ fun q ch' hch' _ => ⟨hch', id⟩
  | @exchangeClear w p rest ch hlock hch hclear =>
    refine seen_of_waker h hlock rfl ⟨rfl, rfl, rfl, rfl⟩ fun q ch' hch' hflag => ?_
    by_cases hqp : q = p
    · subst hqp
      obtain rfl : _ = ch' := by simpa using hch'
      exact Bool.noConfusion hflag
    · exact ⟨by simpa [hqp] using hch', fun hq => (mem_cons.mp hq).resolve_left hqp⟩
  | @write w p rest ch hlock hch =>
    refine seen_of_waker h hlock rfl ⟨rfl, rfl, rfl, rfl⟩ fun q ch' hch' hflag => ?_
    by_cases hqp : q = p
    · subst hqp
      obtain rfl : _ = ch' := by simpa using hch'
      cases h.wakes q ch hch with
      | nowhere _ _ hn => exact absurd ⟨w, rest, hlock⟩ hn
      | pipe hset | waker hset | poller hset => exact absurd (hflag.symm.trans hset) (by decide)
    · exact ⟨by simpa [hqp] using hch', id⟩
  | leave w hlock =>
    intro p ch hch hflag f hf hleft v hu
    rcases hseen p ch hch hflag f hf hleft v hu with hc | ⟨v', hl, hp⟩
    · exact .inl hc
    · obtain ⟨rfl, rfl⟩ := Prod.mk.inj (some.inj (hlock.symm.trans hl))
      exact absurd hp not_mem_nil
  | poll p fs hp =>
    refine seen_of_poller h p (fun q hq => by simp [hq]) ⟨rfl, rfl⟩ fun ch hch hflag f hf hleft => ?_
    exact absurd (by simpa using hf) (by simpa [PollerPhase.left] using hleft)
  | @look p f left hp =>
    refine seen_of_poller h p (fun q hq => by simp [hq]) ⟨rfl, rfl⟩
      fun ch hch hflag g hg hleft w hu => ?_
    refine hseen p ch hch hflag g hg ?_ w hu.2
    have hne : g ≠ f := fun h => hu.1 ⟨rfl, h⟩
    rw [hp]
    intro hmem
    exact absurd ((mem_cons.mp hmem).resolve_left hne) (by simpa [PollerPhase.left] using hleft)
  | ready p hp | finish p hp =>
    refine seen_of_poller h p (fun q hq => by simp [hq]) ⟨rfl, rfl⟩ fun ch hch hflag f hf => ?_
    exact absurd hf (by simp)
  | create p hp hch =>
    refine seen_of_poller h p (fun q hq => by simp [hq]) ⟨rfl, rfl⟩ fun ch' hch' hflag => ?_
    obtain rfl : _ = ch' := by simpa using hch'
    exact Bool.noConfusion hflag
  | createFails p hp =>
    refine seen_of_poller h p (fun q hq => by simp [hq]) ⟨rfl, rfl⟩ fun ch' hch' => ?_
    exact absurd hch' (by simp)
  | @charge p ch hp hch =>
    refine seen_of_poller h p (fun q hq => by simp [hq]) ⟨rfl, rfl⟩ fun ch' hch' hflag => ?_
    obtain rfl : _ = ch' := by simpa using hch'
    exact absurd (h.phase_of_clear hch hflag) (by rw [hp]; exact id)
  | link p hp hlock =>
    refine seen_of_poller h p (fun q hq => by simp [hq]) ⟨rfl, rfl⟩ fun ch hch hflag => ?_
    exact absurd (h.phase_of_clear hch hflag) (by rw [hp]; exact id)
  | sleep p hp hch =>
    refine seen_of_poller h p (fun q hq => by simp [hq]) ⟨rfl, rfl⟩
      fun ch hch hflag f hf _ w hu => ?_
    exact hseen p ch hch hflag f hf (by rw [hp]; exact not_mem_nil) w hu
  | timeout p hp =>
    refine seen_of_poller h p (fun q hq => by simp [hq]) ⟨rfl, rfl⟩ fun ch hch hflag f hf hleft => ?_
    exact absurd hf (by simpa [PollerPhase.left] using hleft)
  | wake p hp hch hbytes =>
    refine seen_of_poller h p (fun q hq => by simp [hq]) ⟨rfl, rfl⟩
      fun ch hch hflag f hf _ w hu => ?_
    exact hseen p ch hch hflag f hf (by rw [hp]; exact not_mem_nil) w hu
  | @read p ch hp hch =>
    refine seen_of_poller h p (fun q hq => by simp [hq]) ⟨rfl, rfl⟩ fun ch' hch' hflag => ?_
    obtain rfl : _ = ch' := by simpa using hch'
    exact absurd (h.phase_of_clear hch hflag) (by rw [hp]; exact id)
  | @clear p ch hp hch =>
    refine seen_of_poller h p (fun q hq => by simp [hq]) ⟨rfl, rfl⟩
      fun ch' hch' hflag f hf hleft => ?_
    exact absurd hf (by simpa [PollerPhase.left] using hleft)

/-! ## runs -/

theorem PollInv.step (h : PollInv s) (hstep : WakeStep s e s') : PollInv s' where
  visits := h.visits_step hstep
  linked := h.linked_step hstep
  channels := h.channels_step hstep
  phases := h.phases_step hstep
  wakes := h.wakes_step hstep
  seen := h.seen_step hstep

theorem PollInv.run {tr : List (WakeParty W P)} (h : Run WakeStep PollWorld.start tr s) :
    PollInv s :=
  h.invariant (I := fun _ => PollInv) .start fun _ _ _ _ hinv hstep => hinv.step hstep

end

/-- in every run a poller asleep on an empty pipe has a waker about to write to it, or its flag is
clear and what it has not seen was changed by a waker that has still to visit it -/
theorem noLostWakeup {tr : List (WakeParty W P)} {s : PollWorld W P F}
    (h : Run WakeStep PollWorld.start tr s) : (∀ p ch, s.channel p = some ch → ch.bytes ≤ 1) ∧
      ∀ p, s.poller p = .asleep → p ∈ s.wakeChannels ∧ ∃ ch, s.channel p = some ch ∧
        (ch.bytes = 0 → (ch.pending = true → Writing s p) ∧
          ∀ f ∈ s.files p, ∀ w, s.unseen p f w → Writing s p ∨ StillToVisit s w p) := by
  have hinv := PollInv.run h
  refine ⟨fun p ch hch => hinv.bytes_le hch, fun p hp => ?_⟩
  have hsome : s.channel p ≠ none := fun hnone => by
    have := hinv.phases p hnone
    rw [hp] at this
    exact this
  obtain ⟨ch, hch⟩ := ne_none_iff_exists'.mp hsome
  have hlinked : p ∈ s.wakeChannels :=
    (hinv.channels p hsome).resolve_right (by rw [hp]; exact id)
  refine ⟨hlinked, ch, hch, fun hempty => ⟨hinv.asleep_writing hch hp hempty, fun f hf w hu => ?_⟩⟩
  cases hflag : ch.pending with
  | true => exact .inl (hinv.asleep_writing hch hp hempty hflag)
  | false =>
    have hleft : f ∉ (s.poller p).left := by
      rw [hp]
      exact not_mem_nil
    exact .inr (hinv.seen p ch hch hflag f hf hleft w hu)

/-! ## a waker that has not begun -/

theorem asleep_run : ∃ tr, ∃ s : PollWorld Unit Unit Unit, Run WakeStep PollWorld.start tr s ∧
    s.poller () = .asleep ∧ s.channel () = some ⟨false, 0⟩ ∧ s.files () = [()] ∧
    s.wakeLock = none := by
  have hcalled := Run.start.next
    (WakeStep.poll (s := (PollWorld.start : PollWorld Unit Unit Unit)) () [()] rfl)
  have hslept := hcalled.next (.look () rfl) |>.next (.create () rfl rfl)
    |>.next (.charge () rfl rfl) |>.next (.link () rfl rfl) |>.next (.sleep () rfl rfl)
  have hagain := hslept.next (.wake () rfl rfl (by decide)) |>.next (.read () rfl rfl)
    |>.next (.clear () rfl rfl) |>.next (.look () rfl) |>.next (.sleep () rfl rfl)
  exact ⟨_, _, hagain, rfl, rfl, rfl, rfl⟩

theorem noLostWakeup_asleep : ∃ tr, ∃ s : PollWorld Unit Unit Unit,
    Run WakeStep PollWorld.start tr s ∧ s.poller () = .asleep ∧ s.channel () = some ⟨false, 0⟩ ∧
      (∀ p ch, s.channel p = some ch → ch.bytes ≤ 1) ∧
      ∀ p, s.poller p = .asleep → p ∈ s.wakeChannels ∧ ∃ ch, s.channel p = some ch ∧
        (ch.bytes = 0 → (ch.pending = true → Writing s p) ∧
          ∀ f ∈ s.files p, ∀ w, s.unseen p f w → Writing s p ∨ StillToVisit s w p) := by
  obtain ⟨tr, s, hrun, hp, hch, -⟩ := asleep_run
  exact ⟨tr, s, hrun, hp, hch, noLostWakeup hrun⟩

/-- a waker changes the file of a sleeper: no byte is there yet, and none is about to be written -/
theorem changed_while_asleep : ∃ tr, ∃ s : PollWorld Unit Unit Unit,
    Run WakeStep PollWorld.start tr s ∧ s.poller () = .asleep ∧ s.channel () = some ⟨false, 0⟩ ∧
      () ∈ s.files () ∧ s.unseen () () () ∧ ¬ Writing s () := by
  obtain ⟨tr, s, hrun, hp, hch, hfiles, hlock⟩ := asleep_run
  have hfree : ∀ v, s.wakeLock ≠ some ((), v) := fun v h => nomatch hlock.symm.trans h
  refine ⟨_, _, hrun.next (.change () () hfree), hp, hch, ?_, .inl ⟨rfl, rfl⟩, ?_⟩
  · show () ∈ s.files ()
    rw [hfiles]
    exact mem_cons_self
  · rintro ⟨w, rest, hwriting⟩
    exact nomatch hlock.symm.trans hwriting

end Pscal
