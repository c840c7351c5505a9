import Pscal.VM.Mutexes
import Pscal.Lib.Counting

/-!
# The mutex registry keeps its invariant

* `MutexInv`  what holds in every state of a run;
* `MutexInv.moved`  a VM goes on and no mutex changes hands;
* `MutexInv.replace`  a slot is written and no VM goes on;
* `depthFits`  a step does not take a depth over the largest `int`;
* `mutexInv_step`  a step that does not keeps the invariant.
-/

namespace Pscal

open Transitions Counting List Option Function MutexWorld

theorem bmod_depth {d : Int} (hmin : 0 ≤ d) (hmax : d < 2 ^ 31) : d.bmod (2 ^ 32) = d :=
  Int.bmod_eq_of_le (by omega) (by omega)

/-! ## what a phase says -/

namespace MutexPhase

def uses : MutexPhase → Option Nat
  | .lockUse id | .lockWait id | .lockPoll id | .unlockUse id | .endUse id => some id
  | _ => none

def destroys : MutexPhase → Option Nat
  | .destroyCheck id | .destroyMark id => some id
  | _ => none

def holdsRegistry : MutexPhase → Bool
  | .destroyCheck _ | .destroyMark _ | .releasing _ => true
  | _ => false

/-- inside `vmReleaseHeldMutexes`, with the count already at `0` -/
def releases : MutexPhase → Bool
  | .releaseStart | .releasing _ => true
  | _ => false

end MutexPhase

/-! ## slots -/

/-- the slots differ in the uses and the waits that are in flight only -/
structure SameLocks {V : Type} (m m' : Mutex V) : Prop where
  initialized : m'.initialized = m.initialized
  active : m'.active = m.active
  holder : m'.holder = m.holder
  depth : m'.depth = m.depth

theorem SameLocks.refl {V : Type} (m : Mutex V) : SameLocks m m := ⟨rfl, rfl, rfl, rfl⟩

variable {V : Type}

variable {m : Mutex V} {w w' : MutexWorld V} {ceiling : Nat} {p : MutexPhase} {v : V}

theorem sameLocks_setMutex {id : Nat} (h : SameLocks (w.mutexes id) m) (j : Nat) :
    SameLocks (w.mutexes j) (update w.mutexes id m j) := by
  by_cases hj : j = id
  · subst hj
    rw [update_self]
    exact h
  · rw [update_of_ne hj]
    exact .refl _

theorem users_setMutex {id : Nat} (h : m.users = (w.mutexes id).users) (j : Nat) :
    (update w.mutexes id m j).users = (w.mutexes j).users := by
  by_cases hj : j = id
  · subst hj
    rw [update_self]
    exact h
  · rw [update_of_ne hj]

theorem lookup_some {id : Int} {k : Nat} (h : w.lookup id = some k) :
    (w.mutexes k).active = true := by
  rw [MutexWorld.lookup] at h
  split at h
  · cases h
  · split at h
    · rename_i hactive
      cases h
      exact hactive
    · cases h

theorem shrinkCount_le (mutexes : Nat → Mutex V) (count : Nat) :
    MutexWorld.shrinkCount mutexes count ≤ count := by
  induction count with
  | zero => exact Nat.le_refl 0
  | succ count ih =>
    rw [shrinkCount]
    split <;> omega

theorem lt_shrinkCount {mutexes : Nat → Mutex V} {j count : Nat}
    (hj : (mutexes j).active = true) (hlt : j < count) :
    j < MutexWorld.shrinkCount mutexes count := by
  induction count with
  | zero => exact absurd hlt (Nat.not_lt_zero j)
  | succ count ih =>
    rw [shrinkCount]
    by_cases hlast : (mutexes count).active = true
    · rw [if_pos hlast]
      exact hlt
    · rw [if_neg hlast]
      have hne : j ≠ count := fun hc => hlast (hc ▸ hj)
      exact ih (by omega)

/-! ## counts -/

variable [DecidableEq V]

def MutexWorld.heldBy (w : MutexWorld V) (ceiling : Nat) (v : V) : Nat :=
  count (fun m : Mutex V => m.holder = some v) fun i : Fin ceiling => w.mutexes i

theorem heldBy_congr (h : ∀ id, (w'.mutexes id).holder = (w.mutexes id).holder) (ceiling : Nat)
    (v : V) : w'.heldBy ceiling v = w.heldBy ceiling v :=
  count_congr fun i => by rw [h i]

theorem heldBy_setMutex (w : MutexWorld V) {id : Nat} (hid : id < ceiling) (m : Mutex V) (v : V) :
    (w.setMutex id m).heldBy ceiling v + (if (w.mutexes id).holder = some v then 1 else 0) =
      w.heldBy ceiling v + (if m.holder = some v then 1 else 0) := by
  have htable : (fun i : Fin ceiling => (w.setMutex id m).mutexes i) =
      update (fun i : Fin ceiling => w.mutexes i) ⟨id, hid⟩ m := by
    funext i
    by_cases h : i = ⟨id, hid⟩
    · subst h
      rw [update_self]
      exact update_self ..
    · rw [update_of_ne h]
      exact update_of_ne (fun hc => h (Fin.ext hc)) ..
  rw [heldBy, htable]
  exact count_update (p := fun m : Mutex V => m.holder = some v) _ _ _

theorem MutexPhase.of_uses {id : Nat} (h : p.uses = some id) :
    p.holdsRegistry = false ∧ p.releases = false ∧ p ≠ .ended ∧
      p.destroys = none ∧ ∀ i, p ≠ .releasing i := by
  cases p with
  | lockUse | lockWait | lockPoll | unlockUse | endUse => exact ⟨rfl, rfl, nofun, rfl, nofun⟩
  | idle | ended | destroyCheck | destroyMark | releaseStart | releasing => cases h

theorem addHeld_cleared {id : Nat} (huse : (w.phase v).uses = some id) (k : Int) (u : V)
    (hu : (w.phase u).releases = true) :
    update w.heldMutexCount v (w.heldMutexCount v + k) u = w.heldMutexCount u := by
  obtain ⟨-, hrel, -⟩ := MutexPhase.of_uses huse
  refine update_of_ne (fun hc => ?_) ..
  rw [hc, hrel] at hu
  cases hu

variable [Fintype V]

def MutexWorld.usersOf (w : MutexWorld V) (id : Nat) : Nat :=
  count (fun p : MutexPhase => p.uses = some id) w.phase

structure MutexInv (ceiling : Nat) (w : MutexWorld V) : Prop where
  count_le : w.mutexCount ≤ ceiling
  active_lt : ∀ id, (w.mutexes id).active = true → id < w.mutexCount
  initialized : ∀ id, (w.mutexes id).active = true → (w.mutexes id).initialized = true
  using_active : ∀ v id, (w.phase v).uses = some id → (w.mutexes id).active = true
  users : ∀ id, (w.mutexes id).users = w.usersOf id
  holder_active : ∀ v id, (w.mutexes id).holder = some v → (w.mutexes id).active = true
  depth_free : ∀ id, (w.mutexes id).holder = none → (w.mutexes id).depth = 0
  depth_held : ∀ v id, (w.mutexes id).holder = some v →
    0 < (w.mutexes id).depth ∧ (w.mutexes id).depth < 2 ^ 31
  held : ∀ v, (w.phase v).releases = false → w.heldMutexCount v = w.heldBy ceiling v
  cleared : ∀ v, (w.phase v).releases = true → w.heldMutexCount v = 0
  registry : ∀ v, (w.phase v).holdsRegistry = true ↔ w.registryLock = some v
  destroying : ∀ v id, (w.phase v).destroys = some id → id < ceiling
  marked : ∀ v id, w.phase v = .destroyMark id →
    (w.mutexes id).holder = none ∧ (w.mutexes id).users = 0
  released : ∀ v i, w.phase v = .releasing i → ∀ j, j < i → (w.mutexes j).holder ≠ some v
  ended : ∀ v, w.phase v = .ended → ∀ j, (w.mutexes j).holder ≠ some v

theorem mutexInv_start (ceiling : Nat) (jobs : V → Bool) :
    MutexInv ceiling (MutexWorld.start jobs) := by
  have hphase : ∀ v, (start jobs).phase v = .idle ∨
      (start jobs).phase v = .ended := fun v => by
    cases h : jobs v with
    | true => exact .inl (if_pos h)
    | false => exact .inr (if_neg (by rw [h]; decide))
  have huses : ∀ v, ((start jobs).phase v).uses = none := fun v => by
    rcases hphase v with h | h <;> rw [h] <;> rfl
  exact
    { count_le := Nat.zero_le _
      active_lt := fun _ h => by cases h
      initialized := fun _ h => by cases h
      using_active := fun v id h => by
        rw [huses v] at h
        cases h
      users := fun id => (count_eq_zero.mpr fun v h => by
        rw [huses v] at h
        cases h).symm
      holder_active := fun _ _ h => by cases h
      depth_free := fun _ _ => rfl
      depth_held := fun _ _ h => by cases h
      held := fun v _ => by
        have hzero : (start jobs).heldBy ceiling v = 0 :=
          count_eq_zero.mpr fun _ h => by cases h
        rw [hzero]
        rfl
      cleared := fun _ _ => rfl
      registry := fun v => by
        refine ⟨fun h => ?_, fun h => by cases h⟩
        rcases hphase v with hp | hp <;> rw [hp] at h <;> cases h
      destroying := fun v id h => by rcases hphase v with hp | hp <;> rw [hp] at h <;> cases h
      marked := fun v id h => by rcases hphase v with hp | hp <;> rw [hp] at h <;> cases h
      released := fun _ _ _ _ _ h => by cases h
      ended := fun _ _ _ h => by cases h }

/-! ## a VM goes on and no mutex changes hands -/

theorem usersOf_setPhase (w : MutexWorld V) (v : V) (p : MutexPhase) (id : Nat) :
    count (fun p : MutexPhase => p.uses = some id) (update w.phase v p) +
        (if (w.phase v).uses = some id then 1 else 0) =
      w.usersOf id + (if p.uses = some id then 1 else 0) :=
  count_update w.phase v p

omit [Fintype V] in
theorem phase_cases {phase : V → MutexPhase} {P : V → MutexPhase → Prop} (hself : P v p)
    (hother : ∀ u, u ≠ v → P u (phase u)) (u : V) : P u (update phase v p u) := by
  by_cases huv : u = v
  · subst huv
    rw [update_self]
    exact hself
  · rw [update_of_ne huv]
    exact hother u huv

theorem MutexInv.marked_after {u : V} (h : MutexInv ceiling w) {id : Nat}
    (hu : w.phase u = .destroyMark id)
    (huses : p.uses = some id → (w.phase v).uses = some id ∨ w.registryLock = none)
    (husers : (w'.mutexes id).users + (if (w.phase v).uses = some id then 1 else 0) = (w.mutexes
      id).users + (if p.uses = some id then 1 else 0)) :
    (w.mutexes id).holder = none ∧ (w'.mutexes id).users = 0 := by
  obtain ⟨hfree, hzero⟩ := h.marked u id hu
  have hlock : w.registryLock = some u := (h.registry u).mp (by rw [hu]; rfl)
  have hcount : w.usersOf id = 0 := (h.users id).symm.trans hzero
  have hnot : p.uses ≠ some id := fun hp => by
    rcases huses hp with hold | hfree
    · exact count_eq_zero.mp hcount v hold
    · rw [hfree] at hlock
      cases hlock
  rw [hzero, if_neg hnot] at husers
  exact ⟨hfree, by omega⟩

theorem MutexInv.moved (h : MutexInv ceiling w) (hphase : w'.phase = update w.phase v p)
    (hsame : ∀ id, SameLocks (w.mutexes id) (w'.mutexes id)) (hcount : w'.mutexCount = w.mutexCount)
    (hheld : ∀ u, u ≠ v → w'.heldMutexCount u = w.heldMutexCount u)
    (husers : ∀ id, (w'.mutexes id).users + (if (w.phase v).uses = some id then 1 else 0) =
      (w.mutexes id).users + (if p.uses = some id then 1 else 0))
    (huses : ∀ id, p.uses = some id → (w.mutexes id).active = true ∧ ((w.phase v).uses = some id ∨
      w.registryLock = none))
    (hregistry : ∀ u, (w'.phase u).holdsRegistry = true ↔ w'.registryLock = some u)
    (hdestroys : ∀ id, p.destroys = some id → id < ceiling)
    (hmarked : ∀ id, p = .destroyMark id → (w.mutexes id).holder = none ∧ (w.mutexes id).users = 0 ∧
      (w.phase v).uses = none)
    (hreleases : p.releases = false → w'.heldMutexCount v = w.heldBy ceiling v)
    (hreleased : ∀ i, p = .releasing i → ∀ j, j < i → (w.mutexes j).holder ≠ some v)
    (hended : p = .ended → ∀ j, (w.mutexes j).holder ≠ some v)
    (hcleared : p.releases = true → w'.heldMutexCount v = 0) : MutexInv ceiling w' where
  count_le := hcount ▸ h.count_le
  active_lt id ha := by
    rw [hcount]
    exact h.active_lt id ((hsame id).active ▸ ha)
  initialized id ha := by
    rw [(hsame id).initialized]
    exact h.initialized id ((hsame id).active ▸ ha)
  using_active u id := by
    rw [(hsame id).active, hphase]
    exact phase_cases (P := fun _ q => q.uses = some id → (w.mutexes id).active = true)
      (fun hu => (huses id hu).1) (fun u _ => h.using_active u id) u
  users id := by
    have hupdate := usersOf_setPhase w v p id
    have hold := h.users id
    have hnew := husers id
    rw [usersOf, hphase]
    omega
  holder_active u id hu := by
    rw [(hsame id).active]
    exact h.holder_active u id ((hsame id).holder ▸ hu)
  depth_free id hfree := by
    rw [(hsame id).depth]
    exact h.depth_free id ((hsame id).holder ▸ hfree)
  depth_held u id hu := by
    rw [(hsame id).depth]
    exact h.depth_held u id ((hsame id).holder ▸ hu)
  held := by
    rw [hphase]
    refine phase_cases (P := fun u q => q.releases = false → _ = _) (fun hu => ?_)
      (fun u huv hu => ?_)
    · rw [heldBy_congr fun id => (hsame id).holder]
      exact hreleases hu
    · rw [heldBy_congr fun id => (hsame id).holder, hheld u huv]
      exact h.held u hu
  cleared := by
    rw [hphase]
    exact phase_cases (P := fun u q => q.releases = true → w'.heldMutexCount u = 0) hcleared
      fun u huv hu => (hheld u huv).trans (h.cleared u hu)
  registry := hregistry
  destroying u id := by
    rw [hphase]
    exact phase_cases (P := fun _ q => q.destroys = some id → id < ceiling) (hdestroys id)
      (fun u _ => h.destroying u id) u
  marked u id := by
    rw [(hsame id).holder, hphase]
    refine phase_cases (P := fun _ q => q = .destroyMark id → _ ∧ _) (fun hu => ?_)
      (fun u _ hu => h.marked_after hu (fun hp => (huses id hp).2) (husers id)) u
    obtain ⟨hfree, hzero, hnone⟩ := hmarked id hu
    have hnew := husers id
    have hnone' : ¬none = some id := (some_ne_none id).symm
    have huses' : ¬(MutexPhase.destroyMark id).uses = some id := hnone'
    rw [hnone, hzero, hu, if_neg hnone', if_neg huses'] at hnew
    exact ⟨hfree, by omega⟩
  released u i hu j hj := by
    rw [(hsame j).holder]
    rw [hphase] at hu
    revert hu
    exact phase_cases (P := fun u q => q = .releasing i → (w.mutexes j).holder ≠ some u)
      (fun hu => hreleased i hu j hj) (fun u _ hu => h.released u i hu j hj) u
  ended u hu j := by
    rw [(hsame j).holder]
    rw [hphase] at hu
    revert hu
    exact phase_cases (P := fun u q => q = .ended → (w.mutexes j).holder ≠ some u)
      (fun hu => hended hu j) (fun u _ hu => h.ended u hu j) u

/-- A slot is written, and no VM goes on. -/
theorem MutexInv.replace {id : Nat} (h : MutexInv ceiling w)
    (hmutexes : w'.mutexes = update w.mutexes id m) (hphase : w'.phase = w.phase)
    (hlock : w'.registryLock = w.registryLock) (hle : w'.mutexCount ≤ ceiling) (hid : id < ceiling)
    (hlt : ∀ j, (w'.mutexes j).active = true → j < w'.mutexCount)
    (hinit : m.active = true → m.initialized = true)
    (huse : ∀ u, (w.phase u).uses = some id → m.active = true)
    (husers : m.users = (w.mutexes id).users) (hholder : ∀ u, m.holder = some u → m.active = true)
    (hfree : m.holder = none → m.depth = 0)
    (hdepth : ∀ u, m.holder = some u → 0 < m.depth ∧ m.depth < 2 ^ 31)
    (hheld : ∀ u, (w.phase u).releases = false → w'.heldMutexCount u + (if (w.mutexes id).holder =
      some u then 1 else 0 : Nat) = w.heldMutexCount u + (if m.holder = some u then 1 else 0 : Nat))
    (hmark : ∀ u, w.phase u = .destroyMark id → m.holder = none ∧ m.users = 0)
    (hnew : ∀ u, m.holder = some u → (w.mutexes id).holder = some u ∨ ((w.phase u).releases = false
      ∧ w.phase u ≠ .ended))
    (hcleared : ∀ u, (w.phase u).releases = true → w'.heldMutexCount u = w.heldMutexCount u) :
    MutexInv ceiling w' := by
  have hself : w'.mutexes id = m := by rw [hmutexes, update_self]
  have hother : ∀ j, j ≠ id → w'.mutexes j = w.mutexes j := fun j hj => by
    rw [hmutexes, update_of_ne hj]
  have hheldBy : ∀ u, w'.heldBy ceiling u = (w.setMutex id m).heldBy ceiling u := fun u =>
    heldBy_congr (fun j => by rw [hmutexes]; rfl) ceiling u
  -- a VM that must not hold the mutex did not hold it before
  have hkept : ∀ u j, (w'.mutexes j).holder = some u →
      ((w.phase u).releases = true ∨ w.phase u = .ended) → (w.mutexes j).holder = some u := by
    intro u j hj hu
    by_cases hid : j = id
    · subst hid
      rcases hnew u (hself ▸ hj) with hold | ⟨hr, he⟩
      · exact hold
      · rcases hu with hu | hu
        · rw [hr] at hu
          cases hu
        · exact absurd hu he
    · exact (hother j hid) ▸ hj
  refine
    { count_le := hle
      active_lt := hlt
      initialized := fun j hj => ?_
      using_active := fun u j hj => ?_
      users := fun j => ?_
      holder_active := fun u j hj => ?_
      depth_free := fun j hj => ?_
      depth_held := fun u j hj => ?_
      held := fun u hu => ?_
      cleared := fun u hu => by
        rw [hphase] at hu
        exact (hcleared u hu).trans (h.cleared u hu)
      registry := fun u => by rw [hphase, hlock]; exact h.registry u
      destroying := fun u j hj => h.destroying u j (hphase ▸ hj)
      marked := fun u j hj => ?_
      released := fun u i hi j hj hc => ?_
      ended := fun u hu j hc => ?_ }
  · by_cases hj' : j = id
    · rw [hj', hself] at hj ⊢
      exact hinit hj
    · rw [hother j hj'] at hj ⊢
      exact h.initialized j hj
  · rw [hphase] at hj
    by_cases hj' : j = id
    · rw [hj', hself]
      exact huse u (hj' ▸ hj)
    · rw [hother j hj']
      exact h.using_active u j hj
  · rw [usersOf, hphase]
    by_cases hj' : j = id
    · rw [hj', hself, husers]
      exact h.users id
    · rw [hother j hj']
      exact h.users j
  · by_cases hj' : j = id
    · rw [hj', hself] at hj ⊢
      exact hholder u hj
    · rw [hother j hj'] at hj ⊢
      exact h.holder_active u j hj
  · by_cases hj' : j = id
    · rw [hj', hself] at hj ⊢
      exact hfree hj
    · rw [hother j hj'] at hj ⊢
      exact h.depth_free j hj
  · by_cases hj' : j = id
    · rw [hj', hself] at hj ⊢
      exact hdepth u hj
    · rw [hother j hj'] at hj ⊢
      exact h.depth_held u j hj
  · rw [hphase] at hu
    have hcard := heldBy_setMutex w hid m u
    have hold := h.held u hu
    have hnew' := hheld u hu
    rw [hheldBy u]
    omega
  · rw [hphase] at hj
    by_cases hj' : j = id
    · rw [hj', hself]
      exact hmark u (hj' ▸ hj)
    · rw [hother j hj']
      exact h.marked u j hj
  · rw [hphase] at hi
    exact h.released u i hi j hj (hkept u j hc (.inl (by rw [hi]; rfl)))
  · rw [hphase] at hu
    exact h.ended u hu j (hkept u j hc (.inr hu))

/-- A live mutex gets another holder or depth. -/
theorem MutexInv.rehold {id : Nat} (h : MutexInv ceiling w)
    (hmutexes : w'.mutexes = update w.mutexes id m) (hphase : w'.phase = w.phase)
    (hlock : w'.registryLock = w.registryLock) (hcount : w'.mutexCount = w.mutexCount)
    (hactive : (w.mutexes id).active = true)
    (hkeep : m.active = true ∧ m.initialized = true ∧ m.users = (w.mutexes id).users)
    (hfree : m.holder = none → m.depth = 0)
    (hdepth : ∀ u, m.holder = some u → 0 < m.depth ∧ m.depth < 2 ^ 31)
    (hheld : ∀ u, (w.phase u).releases = false → w'.heldMutexCount u + (if (w.mutexes id).holder =
      some u then 1 else 0 : Nat) = w.heldMutexCount u + (if m.holder = some u then 1 else 0 : Nat))
    (hmark : ∀ u, w.phase u ≠ .destroyMark id)
    (hnew : ∀ u, m.holder = some u → (w.mutexes id).holder = some u ∨ ((w.phase u).releases = false
      ∧ w.phase u ≠ .ended))
    (hcleared : ∀ u, (w.phase u).releases = true → w'.heldMutexCount u = w.heldMutexCount u) :
    MutexInv ceiling w' := by
  have hid := h.active_lt id hactive
  refine h.replace hmutexes hphase hlock (hcount ▸ h.count_le) (Nat.lt_of_lt_of_le hid h.count_le)
    (fun j hj => ?_) (fun _ => hkeep.2.1) (fun _ _ => hkeep.1) hkeep.2.2 (fun _ _ => hkeep.1)
    hfree hdepth hheld (fun u hu => absurd hu (hmark u)) hnew hcleared
  rw [hcount]
  by_cases hj' : j = id
  · exact hj' ▸ hid
  · rw [hmutexes, update_of_ne hj'] at hj
    exact h.active_lt j hj

/-! ## the sections under a guard -/

theorem MutexInv.registry_same (h : MutexInv ceiling w)
    (hp : p.holdsRegistry = (w.phase v).holdsRegistry) (u : V) :
    (update w.phase v p u).holdsRegistry = true ↔ w.registryLock = some u := by
  by_cases huv : u = v
  · subst huv
    rw [update_self, hp]
    exact h.registry u
  · rw [update_of_ne huv]
    exact h.registry u

theorem MutexInv.keep {id : Nat} (h : MutexInv ceiling w) (hactive : (w.mutexes id).active = true) :
    (w.mutexes id).active = true ∧ (w.mutexes id).initialized = true ∧
      (w.mutexes id).users = (w.mutexes id).users :=
  ⟨hactive, h.initialized id hactive, rfl⟩

section
variable {ceiling : Nat} {w : MutexWorld V} {v : V} {id : Nat} (h : MutexInv ceiling w)
  (huse : (w.phase v).uses = some id)
include h huse

theorem MutexInv.walked {w' : MutexWorld V} {p : MutexPhase} (hp : p.uses = some id)
    (hphase : w'.phase = update w.phase v p) (hsame : ∀ j, SameLocks (w.mutexes j) (w'.mutexes j))
    (husers : ∀ j, (w'.mutexes j).users = (w.mutexes j).users)
    (hcount : w'.mutexCount = w.mutexCount) (hheld : w'.heldMutexCount = w.heldMutexCount)
    (hlock : w'.registryLock = w.registryLock) : MutexInv ceiling w' := by
  obtain ⟨hreg, hrel, -, -, -⟩ := MutexPhase.of_uses huse
  obtain ⟨hreg', hrel', hended, hmark, hreleasing⟩ := MutexPhase.of_uses hp
  refine h.moved hphase hsame hcount (fun u _ => by rw [hheld]) (fun j => ?_) (fun j hj => ?_)
    (fun u => ?_) (fun j hj => ?_) (fun j hj => ?_) (fun _ => ?_)
    (fun i hi => absurd hi (hreleasing i)) (fun hc => absurd hc hended)
    (fun hc => absurd (hrel'.symm.trans hc) (by decide))
  · rw [husers, huse, hp]
  · rw [hp] at hj
    exact ⟨h.using_active v j (huse.trans hj), .inl (huse.trans hj)⟩
  · rw [hphase, hlock]
    exact h.registry_same (hreg'.trans hreg.symm) u
  · rw [hmark] at hj
    cases hj
  · rw [hj] at hmark
    cases hmark
  · rw [hheld]
    exact h.held v hrel

theorem MutexInv.not_marked (u : V) : w.phase u ≠ .destroyMark id := by
  intro hu
  have hzero : w.usersOf id = 0 := (h.users id).symm.trans (h.marked u id hu).2
  exact count_eq_zero.mp hzero v huse

theorem lockLoop_inv : MutexInv ceiling (w.lockLoop v id).1 := by
  have hactive := h.using_active v id huse
  obtain ⟨-, hrel, hended, -, -⟩ := MutexPhase.of_uses huse
  rw [lockLoop]
  by_cases hholder : (w.mutexes id).holder ≠ none
  · rw [if_pos hholder]
    exact h.walked huse rfl rfl (sameLocks_setMutex ⟨rfl, rfl, rfl, rfl⟩) (users_setMutex rfl)
      rfl rfl rfl
  · rw [if_neg hholder]
    have hfree := not_not.mp hholder
    have hmid : MutexInv ceiling ((w.setMutex id
        { w.mutexes id with holder := some v, depth := 1 }).addHeld v 1) := by
      refine h.rehold rfl rfl rfl rfl hactive (h.keep hactive) nofun
        (fun _ _ => (by decide : (0 : Int) < 1 ∧ (1 : Int) < 2 ^ 31)) (fun u hu => ?_) (h.not_marked huse) (fun u hu => ?_)
        (addHeld_cleared huse 1)
      · show update w.heldMutexCount v (w.heldMutexCount v + 1) u + _ = _
        rw [hfree, if_neg nofun]
        by_cases huv : u = v
        · subst huv
          rw [update_self, if_pos rfl]
          omega
        · rw [update_of_ne huv, if_neg fun hc => huv (some.inj hc).symm]
      · obtain rfl : v = u := some.inj hu
        exact .inr ⟨hrel, hended⟩
    exact hmid.walked (p := .endUse id) huse rfl rfl (fun j => .refl _) (fun j => rfl) rfl rfl rfl

theorem endUse_inv : MutexInv ceiling (w.setPhase v (.endUse id)) :=
  h.walked huse rfl rfl (fun _ => .refl _) (fun _ => rfl) rfl rfl rfl

theorem redepth_inv {depth : Int} (hholder : (w.mutexes id).holder = some v) (hpos : 0 < depth)
    (hmax : depth < 2 ^ 31) : MutexInv ceiling
      ((w.setMutex id { w.mutexes id with depth := depth }).setPhase v (.endUse id)) := by
  have hactive := h.using_active v id huse
  have hmid : MutexInv ceiling (w.setMutex id { w.mutexes id with depth := depth }) := by
    refine h.rehold rfl rfl rfl rfl hactive (h.keep hactive) (fun hc => ?_) (fun _ _ => ⟨hpos, hmax⟩)
      (fun _ _ => rfl) (h.not_marked huse) (fun _ hu => .inl hu)
      (fun _ _ => rfl)
    rw [show (w.mutexes id).holder = none from hc] at hholder
    cases hholder
  exact endUse_inv hmid huse

theorem lockGuarded_inv (hfits : (w.mutexes id).holder = some v →
      (w.mutexes id).recursive = true → (w.mutexes id).depth < 2 ^ 31 - 1) :
    MutexInv ceiling (w.lockGuarded v id).1 := by
  rw [lockGuarded]
  by_cases hholder : (w.mutexes id).holder = some v
  · obtain ⟨hpos, hmax⟩ := h.depth_held v id hholder
    rw [if_pos hholder]
    by_cases hrec : (w.mutexes id).recursive = true
    · have hlt := hfits hholder hrec
      rw [if_pos hrec, bmod_depth (by omega) (by omega)]
      exact redepth_inv h huse hholder (by omega) (by omega)
    · rw [if_neg hrec]
      exact endUse_inv h huse
  · rw [if_neg hholder]
    exact lockLoop_inv h huse

theorem lockWoken_inv (rc : Bool) : MutexInv ceiling (w.lockWoken v id rc).1 := by
  have hactive := h.using_active v id huse
  have hmid : MutexInv ceiling
      (w.setMutex id { w.mutexes id with waiters := (w.mutexes id).waiters - 1 }) :=
    h.rehold rfl rfl rfl rfl hactive (h.keep hactive) (h.depth_free id)
      (fun u => h.depth_held u id) (fun _ _ => rfl) (h.not_marked huse) (fun _ hu => .inl hu)
      (fun _ _ => rfl)
  rw [lockWoken]
  by_cases hagain : (w.mutexes id).holder = none ∨ rc = true
  · rw [if_pos hagain]
    exact lockLoop_inv hmid huse
  · rw [if_neg hagain]
    exact hmid.walked (p := .lockPoll id) huse rfl rfl (fun _ => .refl _) (fun _ => rfl) rfl rfl rfl

theorem lockPolled_inv (interrupted : Bool) :
    MutexInv ceiling (w.lockPolled v id interrupted).1 := by
  rw [lockPolled]
  by_cases hint : interrupted = true
  · rw [if_pos hint]
    exact endUse_inv h huse
  · rw [if_neg hint]
    exact lockLoop_inv h huse

theorem unlockGuarded_inv : MutexInv ceiling (w.unlockGuarded v id).1 := by
  have hactive := h.using_active v id huse
  rw [unlockGuarded]
  by_cases hholder : (w.mutexes id).holder ≠ some v
  · rw [if_pos hholder]
    exact endUse_inv h huse
  have hheld := not_not.mp hholder
  obtain ⟨hpos, hmax⟩ := h.depth_held v id hheld
  rw [if_neg hholder, bmod_depth (by omega) (by omega)]
  by_cases hlast : (w.mutexes id).depth - 1 ≤ 0
  · rw [if_pos hlast]
    have hmid : MutexInv ceiling ((w.setMutex id
        { w.mutexes id with holder := none, depth := 0 }).addHeld v (-1)) := by
      refine h.rehold rfl rfl rfl rfl hactive (h.keep hactive) (fun _ => rfl) (fun _ hc => by cases hc)
        (fun u _ => ?_) (h.not_marked huse) (fun _ hc => by cases hc) (addHeld_cleared huse (-1))
      show update w.heldMutexCount v (w.heldMutexCount v + -1) u + _ = _
      rw [hheld, if_neg (c := (none : Option V) = some u) nofun]
      by_cases huv : u = v
      · subst huv
        rw [update_self, if_pos rfl]
        omega
      · rw [update_of_ne huv, if_neg fun hc => huv (some.inj hc).symm]
    exact endUse_inv hmid huse
  · rw [if_neg hlast]
    exact redepth_inv h huse hheld (by omega) (by omega)

end

theorem endUseSection_inv {id : Nat} (h : MutexInv ceiling w) (hp : w.phase v = .endUse id) :
    MutexInv ceiling (w.endUse v id).1 := by
  have huse : (w.phase v).uses = some id := by rw [hp]; rfl
  have hcount : 0 < w.usersOf id :=
    Nat.pos_of_ne_zero fun hzero => count_eq_zero.mp hzero v huse
  have husers := h.users id
  refine h.moved (v := v) (p := .idle) rfl (sameLocks_setMutex ⟨rfl, rfl, rfl, rfl⟩) rfl
    (fun _ _ => rfl) (fun j => ?_) nofun (h.registry_same (by rw [hp]; rfl)) nofun
    nofun (fun _ => h.held v (by rw [hp]; rfl)) nofun nofun nofun
  rw [huse, if_neg (c := MutexPhase.uses .idle = some j) nofun]
  show (update w.mutexes id _ j).users + _ = _
  by_cases hj : j = id
  · subst hj
    rw [update_self, if_pos rfl]
    show (w.mutexes j).users - 1 + 1 = _
    omega
  · rw [update_of_ne hj, if_neg fun hc => hj (some.inj hc).symm]

/-! ## the sections under the registry lock -/

theorem MutexInv.registry_take (h : MutexInv ceiling w) (hfree : w.registryLock = none)
    (hp : p.holdsRegistry = true) (u : V) :
    (update w.phase v p u).holdsRegistry = true ↔ some v = some u := by
  by_cases huv : u = v
  · subst huv
    rw [update_self, hp]
    exact ⟨fun _ => rfl, fun _ => rfl⟩
  · rw [update_of_ne huv, h.registry u, hfree]
    exact ⟨nofun, fun hc => absurd (some.inj hc).symm huv⟩

theorem MutexInv.registry_drop (h : MutexInv ceiling w) (hlock : (w.phase v).holdsRegistry = true)
    (hp : p.holdsRegistry = false) (u : V) :
    (update w.phase v p u).holdsRegistry = true ↔ (none : Option V) = some u := by
  by_cases huv : u = v
  · subst huv
    rw [update_self, hp]
    exact ⟨nofun, nofun⟩
  · rw [update_of_ne huv, h.registry u, (h.registry v).mp hlock]
    exact ⟨fun hc => absurd (some.inj hc).symm huv, nofun⟩

section
variable {ceiling : Nat} {w : MutexWorld V} {v : V} (h : MutexInv ceiling w)
include h

theorem beginUse_inv (hp : w.phase v = .idle) (hfree : w.registryLock = none) (id : Int)
    {next : Nat → MutexPhase} (hnext : ∀ k, (next k).uses = some k) :
    MutexInv ceiling (w.beginUse v id next).1 := by
  rw [beginUse]
  cases hlookup : w.lookup id with
  | none => exact h
  | some k =>
    have hactive := lookup_some hlookup
    obtain ⟨hreg, hrel, hended, hmark, hreleasing⟩ := MutexPhase.of_uses (hnext k)
    refine h.moved (v := v) (p := next k) rfl (sameLocks_setMutex ⟨rfl, rfl, rfl, rfl⟩) rfl
      (fun _ _ => rfl) (fun j => ?_) (fun j hj => ?_) (h.registry_same (by rw [hp, hreg]; rfl))
      (fun j hj => by rw [hmark] at hj; cases hj) (fun j hj => by rw [hj] at hmark; cases hmark)
      (fun _ => h.held v (by rw [hp]; rfl))
      (fun i hi => absurd hi (hreleasing i)) (fun hc => absurd hc hended)
      (fun hc => absurd (hrel.symm.trans hc) (by decide))
    · rw [hp, hnext k, if_neg (c := MutexPhase.uses .idle = some j) nofun]
      show (update w.mutexes k _ j).users + 0 = _
      by_cases hj : j = k
      · subst hj
        rw [update_self, if_pos rfl]
      · rw [update_of_ne hj, if_neg fun hc => hj (some.inj hc).symm]
    · rw [hnext k] at hj
      exact some.inj hj ▸ ⟨hactive, .inr hfree⟩

theorem createId_some {grown : Bool} {id : Nat} (hid : w.createId ceiling grown = some id) :
    (w.mutexes id).active = false ∧ id < ceiling ∧
      (id < w.mutexCount ∨ id = w.mutexCount) := by
  rw [createId] at hid
  split at hid
  · rename_i i hfind
    cases hid
    have hlt := mem_range.mp (mem_of_find?_eq_some hfind)
    have hinactive := find?_some hfind
    exact ⟨by simpa using hinactive, Nat.lt_of_lt_of_le hlt h.count_le, .inl hlt⟩
  · split at hid
    · cases hid
    · rename_i hroom
      cases hid
      have hinactive : (w.mutexes w.mutexCount).active = false := by
        by_contra hactive
        have := h.active_lt w.mutexCount (by simpa using hactive)
        omega
      exact ⟨hinactive, Nat.lt_of_not_le fun hle => hroom (.inl hle), .inr rfl⟩

theorem MutexInv.inactive {id : Nat} (hid : (w.mutexes id).active = false) :
    (w.mutexes id).holder = none ∧ ∀ u, (w.phase u).uses ≠ some id := by
  refine ⟨?_, fun u hu => ?_⟩
  · cases hholder : (w.mutexes id).holder with
    | none => rfl
    | some u =>
      have := h.holder_active u id hholder
      rw [hid] at this
      cases this
  · have := h.using_active u id hu
    rw [hid] at this
    cases this

theorem createMutex_inv (hfree : w.registryLock = none) (grown constructed recursive : Bool) :
    MutexInv ceiling (w.createMutex ceiling grown constructed v recursive).1 := by
  rw [createMutex]
  cases hid : w.createId ceiling grown with
  | none => exact h
  | some id =>
    obtain ⟨hinactive, hlt, hplace⟩ := createId_some h hid
    obtain ⟨hholder, huses⟩ := h.inactive hinactive
    have hle := h.count_le
    dsimp only
    split
    · exact h
    · refine h.replace rfl rfl rfl ?_ hlt (fun j hj => ?_) (fun _ => rfl) (fun _ _ => rfl) rfl
        (fun _ _ => rfl) (fun _ => rfl) nofun (fun u _ => ?_) (fun u hu => ?_) nofun
        (fun _ _ => rfl)
      · dsimp only
        split <;> omega
      · dsimp only at hj ⊢
        by_cases hj' : j = id
        · split <;> omega
        · simp only [setMutex] at hj
          rw [update_of_ne hj'] at hj
          have hold := h.active_lt j hj
          split <;> omega
      · rw [hholder]
        rfl
      · have hlock := (h.registry u).mp (by rw [hu]; rfl)
        rw [hfree] at hlock
        cases hlock

theorem destroyStart_inv (hp : w.phase v = .idle) (hfree : w.registryLock = none) (id : Int) :
    MutexInv ceiling (w.destroyStart v id).1 := by
  rw [destroyStart]
  cases hlookup : w.lookup id with
  | none => exact h
  | some k =>
    exact h.moved (v := v) (p := .destroyCheck k) rfl (fun _ => .refl _) rfl (fun _ _ => rfl)
      (fun _ => by rw [hp]; rfl) nofun (h.registry_take hfree rfl)
      (fun j hj => some.inj hj ▸ Nat.lt_of_lt_of_le
        (h.active_lt k (lookup_some hlookup)) h.count_le) nofun
      (fun _ => h.held v (by rw [hp]; rfl)) nofun nofun nofun

theorem destroyCheck_inv {id : Nat} (hp : w.phase v = .destroyCheck id) :
    MutexInv ceiling (w.destroyCheck v id).1 := by
  rw [destroyCheck]
  by_cases hbusy : (w.mutexes id).holder ≠ none ∨ (w.mutexes id).waiters > 0 ∨
      (w.mutexes id).users > 0
  · rw [if_pos hbusy]
    exact h.moved (v := v) (p := .idle) rfl (fun _ => .refl _) rfl (fun _ _ => rfl)
      (fun _ => by rw [hp]; rfl) nofun (h.registry_drop (by rw [hp]; rfl) rfl) nofun nofun
      (fun _ => h.held v (by rw [hp]; rfl)) nofun nofun nofun
  · rw [if_neg hbusy]
    refine h.moved (v := v) (p := .destroyMark id) rfl (fun _ => .refl _) rfl (fun _ _ => rfl)
      (fun _ => by rw [hp]; rfl) nofun (h.registry_same (by rw [hp]; rfl))
      (fun j hj => h.destroying v j (by rw [hp]; exact hj)) (fun j hj => ?_)
      (fun _ => h.held v (by rw [hp]; rfl)) nofun nofun nofun
    obtain rfl : id = j := by injection hj
    have hholder : (w.mutexes id).holder = none := by
      by_contra hc
      exact hbusy (.inl hc)
    exact ⟨hholder, Nat.eq_zero_of_not_pos fun hc => hbusy (.inr (.inr hc)), by rw [hp]; rfl⟩

theorem destroyMark_inv {id : Nat} (hp : w.phase v = .destroyMark id) :
    MutexInv ceiling (w.destroyMark v id).1 := by
  have hid := h.destroying v id (by rw [hp]; rfl)
  obtain ⟨hholder, hzero⟩ := h.marked v id hp
  have hnone : w.usersOf id = 0 := (h.users id).symm.trans hzero
  let m : Mutex V := { w.mutexes id with active := false }
  have hmid : MutexInv ceiling { w.setMutex id m with
      mutexCount := shrinkCount (w.setMutex id m).mutexes w.mutexCount } := by
    refine h.replace (m := m) rfl rfl rfl
      (Nat.le_trans (shrinkCount_le _ _) h.count_le) hid (fun j hj => ?_) nofun
      (fun u hu => absurd hu (count_eq_zero.mp hnone u)) rfl (fun u hu => ?_) (h.depth_free id)
      (fun u => h.depth_held u id) (fun _ _ => rfl) (fun _ _ => ⟨hholder, hzero⟩)
      (fun _ hu => .inl hu) (fun _ _ => rfl)
    · refine lt_shrinkCount hj ?_
      by_cases hj' : j = id
      · subst hj'
        simp only [setMutex] at hj
        rw [update_self] at hj
        cases hj
      · simp only [setMutex] at hj
        rw [update_of_ne hj'] at hj
        exact h.active_lt j hj
    · rw [show (w.mutexes id).holder = some u from hu] at hholder
      cases hholder
  have hphase : ∀ w' : MutexWorld V, w'.phase = w.phase →
      (w'.phase v).uses = none ∧ (w'.phase v).holdsRegistry = true ∧
        (w'.phase v).releases = false := fun w' hw => by
    rw [hw, hp]
    exact ⟨rfl, rfl, rfl⟩
  obtain ⟨huses, hreg, hrel⟩ := hphase { w.setMutex id m with
    mutexCount := shrinkCount (w.setMutex id m).mutexes w.mutexCount } rfl
  exact hmid.moved (v := v) (p := .idle) rfl (fun _ => .refl _) rfl (fun _ _ => rfl)
    (fun _ => by rw [huses]; rfl) nofun (hmid.registry_drop hreg rfl) nofun nofun
    (fun _ => hmid.held v hrel) nofun nofun nofun

theorem jobStart_inv (hp : w.phase v = .ended) : MutexInv ceiling (w.setPhase v .idle) :=
  h.moved (v := v) (p := .idle) rfl (fun _ => .refl _) rfl (fun _ _ => rfl)
    (fun _ => by rw [hp]; rfl) nofun (h.registry_same (by rw [hp]; rfl)) nofun nofun
    (fun _ => h.held v (by rw [hp]; rfl)) nofun nofun nofun

theorem releaseStart_inv (hp : w.phase v = .idle) : MutexInv ceiling (w.releaseStart v).1 := by
  have hheld := h.held v (by rw [hp]; rfl)
  rw [releaseStart]
  by_cases hnone : w.heldMutexCount v ≤ 0
  · rw [if_pos hnone]
    refine h.moved (v := v) (p := .ended) rfl (fun _ => .refl _) rfl (fun _ _ => rfl)
      (fun _ => by rw [hp]; rfl) nofun (h.registry_same (by rw [hp]; rfl)) nofun nofun
      (fun _ => hheld) nofun (fun _ j hj => ?_) nofun
    have hzero : w.heldBy ceiling v = 0 := by omega
    have hlt := h.active_lt j (h.holder_active v j hj)
    exact count_eq_zero.mp hzero ⟨j, Nat.lt_of_lt_of_le hlt h.count_le⟩ hj
  · rw [if_neg hnone]
    exact h.moved (v := v) (p := .releaseStart) rfl (fun _ => .refl _) rfl
      (fun u hu => update_of_ne hu ..) (fun _ => by rw [hp]; rfl) nofun
      (h.registry_same (by rw [hp]; rfl)) nofun nofun nofun nofun nofun
      (fun _ => update_self ..)

theorem releaseTake_inv (hp : w.phase v = .releaseStart) (hfree : w.registryLock = none) :
    MutexInv ceiling ((w.setRegistry (some v)).setPhase v (.releasing 0)) :=
  h.moved (v := v) (p := .releasing 0) rfl (fun _ => .refl _) rfl (fun _ _ => rfl)
    (fun _ => by rw [hp]; rfl) nofun (h.registry_take hfree rfl) nofun nofun nofun
    (fun i hi j hj => by injection hi with hi; omega) nofun
    (fun _ => h.cleared v (by rw [hp]; rfl))

theorem releaseNext_inv {i : Nat} (hp : w.phase v = .releasing i)
    (hi : (w.mutexes i).holder ≠ some v) :
    MutexInv ceiling (w.setPhase v (.releasing (i + 1))) := by
  refine h.moved (v := v) (p := .releasing (i + 1)) rfl (fun _ => .refl _) rfl (fun _ _ => rfl)
    (fun _ => by rw [hp]; rfl) nofun (h.registry_same (by rw [hp]; rfl)) nofun nofun nofun
    (fun k hk j hj => ?_) nofun (fun _ => h.cleared v (by rw [hp]; rfl))
  obtain rfl : i + 1 = k := by injection hk
  by_cases hlast : j = i
  · rw [hlast]
    exact hi
  · exact h.released v i hp j (by omega)

theorem releaseGuarded_inv {i : Nat} (hp : w.phase v = .releasing i) :
    MutexInv ceiling (w.releaseGuarded v i).1 := by
  rw [releaseGuarded]
  by_cases hlt : i < w.mutexCount
  · rw [if_pos hlt]
    dsimp only
    by_cases hholds : (w.mutexes i).active = true ∧ (w.mutexes i).initialized = true ∧
        (w.mutexes i).holder = some v
    · rw [if_pos hholds]
      have hmid : MutexInv ceiling (w.setMutex i
          { w.mutexes i with holder := none, depth := 0 }) := by
        refine h.rehold rfl rfl rfl rfl hholds.1 ⟨hholds.1, hholds.2.1, rfl⟩ (fun _ => rfl)
          (fun _ hc => by cases hc) (fun u hu => ?_) (fun u hu => ?_) (fun _ hc => by cases hc)
          (fun _ _ => rfl)
        · -- the count of the releasing VM is not compared
          have hne : u ≠ v := fun hc => by
            rw [hc, hp] at hu
            cases hu
          rw [hholds.2.2, if_neg fun hc => hne (some.inj hc).symm]
          rfl
        · have hlock := (h.registry u).mp (by rw [hu]; rfl)
          have hlock' := (h.registry v).mp (by rw [hp]; rfl)
          have huv : u = v := some.inj (hlock.symm.trans hlock')
          rw [huv, hp] at hu
          cases hu
      refine releaseNext_inv hmid hp ?_
      simp only [setMutex]
      rw [update_self]
      exact nofun
    · rw [if_neg hholds]
      refine releaseNext_inv h hp fun hc => hholds ?_
      have hactive := h.holder_active v i hc
      exact ⟨hactive, h.initialized i hactive, hc⟩
  · rw [if_neg hlt]
    have hnone : ∀ j, (w.mutexes j).holder ≠ some v := fun j hj => by
      have := h.active_lt j (h.holder_active v j hj)
      exact h.released v i hp j (by omega) hj
    have hzero : w.heldBy ceiling v = 0 := count_eq_zero.mpr fun j => hnone j
    refine h.moved (v := v) (p := .ended) rfl (fun _ => .refl _) rfl (fun _ _ => rfl)
      (fun _ => by rw [hp]; rfl) nofun (h.registry_drop (by rw [hp]; rfl) rfl) nofun nofun
      (fun _ => ?_) nofun (fun _ => hnone) nofun
    rw [hzero]
    exact h.cleared v (by rw [hp]; rfl)

end

/-! ## one step -/

/-- the step does not take a depth over the largest `int` -/
def depthFits (w : MutexWorld V) (e : MutexEvent V) : Prop :=
  ∀ v id, e = .relocked v id → (w.mutexes id).depth < 2 ^ 31 - 1

theorem section_inv {rc interrupted : Bool} {r : MutexWorld V × MutexEvent V}
    (h : MutexInv ceiling w) (hsection : w.section? v rc interrupted = some r)
    (hfits : depthFits w r.2) : MutexInv ceiling r.1 := by
  rw [section?] at hsection
  split at hsection
  · cases hsection
  · cases hsection
  · rename_i id hp
    cases hsection
    refine lockGuarded_inv h (by rw [hp]; rfl) fun hholder hrec => hfits v id ?_
    rw [lockGuarded, if_pos hholder, if_pos hrec]
  · rename_i id hp
    cases hsection
    exact lockWoken_inv h (by rw [hp]; rfl) rc
  · rename_i id hp
    cases hsection
    exact lockPolled_inv h (by rw [hp]; rfl) interrupted
  · rename_i id hp
    cases hsection
    exact unlockGuarded_inv h (by rw [hp]; rfl)
  · rename_i id hp
    cases hsection
    exact endUseSection_inv h hp
  · rename_i id hp
    cases hsection
    exact destroyCheck_inv h hp
  · rename_i id hp
    cases hsection
    exact destroyMark_inv h hp
  · rename_i hp
    split at hsection
    · rename_i hfree
      cases hsection
      exact releaseTake_inv h hp hfree
    · cases hsection
  · rename_i i hp
    cases hsection
    exact releaseGuarded_inv h hp

theorem mutexInv_step {e : MutexEvent V} (h : MutexInv ceiling w) (hstep : MutexStep ceiling w e w')
    (hfits : depthFits w e) : MutexInv ceiling w' := by
  cases hstep with
  | create hp hfree grown constructed recursive =>
    exact createMutex_inv h hfree grown constructed recursive
  | lock hp hfree id => exact beginUse_inv h hp hfree id fun _ => rfl
  | unlock hp hfree id => exact beginUse_inv h hp hfree id fun _ => rfl
  | destroy hp hfree id => exact destroyStart_inv h hp hfree id
  | jobEnd hp => exact releaseStart_inv h hp
  | jobStart hp => exact jobStart_inv h hp
  | «section» hsection => exact section_inv h hsection hfits

end Pscal
