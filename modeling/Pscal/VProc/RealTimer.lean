import Mathlib

/-!
# The interval timer of a task

`vproc/vproc.c`: the timer behind `setitimer` and `alarm`, in nanoseconds of 64 bits.

* `vprocTaskSetRealTimerLocked`, `vprocTaskExpireRealTimerLocked`  the code;
* `Exact`  what a call is to do, over the naturals;
* `Fits`  no sum or product of the call passes 64 bits;
* `run_exact`  calls that fit do it, in every run;
* `expirations_least`  how often a timer is looked at does not matter.
-/

namespace Pscal

namespace RealTimer

/-- `struct timeval` -/
structure Timeval where
  sec : Int64
  usec : Int64

/-- `struct itimerval` -/
structure Itimerval where
  interval : Timeval
  value : Timeval

/-- `alarms` counts the `SIGALRM` that were queued. -/
structure Entry where
  realTimerActive : Bool
  realTimerDeadlineNs : UInt64
  realTimerIntervalNs : UInt64
  alarms : Nat

def vprocTimevalValid (tv : Timeval) : Bool := 0 ≤ tv.sec ∧ 0 ≤ tv.usec ∧ tv.usec < 1000000

def vprocTimevalToNs (tv : Timeval) : UInt64 :=
  tv.sec.toUInt64 * 1000000000 + tv.usec.toUInt64 * 1000

def vprocTaskRealTimerRemainingNsLocked (entry : Entry) (now : UInt64) : UInt64 :=
  if entry.realTimerActive = false ∨ entry.realTimerDeadlineNs = 0 then 0
  else if entry.realTimerDeadlineNs ≤ now then 0
  else entry.realTimerDeadlineNs - now

def uint64Max : UInt64 := 18446744073709551615

def advance (ticks interval : UInt64) : UInt64 :=
  if ticks > 1 then if ticks > uint64Max / interval then interval else ticks * interval
  else interval

/-- the deadline of a periodic timer that has expired -/
def nextDeadline (deadline interval now : UInt64) : UInt64 :=
  let ahead := advance ((now - deadline) / interval + 1) interval
  if uint64Max - deadline < ahead then now + interval else deadline + ahead

/-- the entry, and whether the timer has expired -/
def vprocTaskExpireRealTimerLocked (entry : Entry) (now : UInt64) : Entry × Bool :=
  if entry.realTimerActive = false ∨ entry.realTimerDeadlineNs = 0 then (entry, false)
  else if entry.realTimerDeadlineNs > now then (entry, false)
  else if entry.realTimerIntervalNs > 0 then
    ({ entry with
      realTimerDeadlineNs := nextDeadline entry.realTimerDeadlineNs entry.realTimerIntervalNs now
      alarms := entry.alarms + 1 }, true)
  else (⟨false, 0, 0, entry.alarms + 1⟩, true)

def vprocTaskSetRealTimerLocked (entry : Entry) (timer : Itimerval) (now : UInt64) : Entry :=
  let intervalNs := vprocTimevalToNs timer.interval
  let valueNs := vprocTimevalToNs timer.value
  if valueNs = 0 then ⟨false, 0, intervalNs, entry.alarms⟩
  else
    ⟨true, if uint64Max - now < valueNs then uint64Max else now + valueNs, intervalNs,
      entry.alarms⟩

inductive Call where
  | set (timer : Itimerval)
  | read
  | expire

/-- a call, with the clock's reading -/
structure Event where
  now : UInt64
  call : Call

def step (entry : Entry) (e : Event) : Entry :=
  match e.call with
  | .set timer => vprocTaskSetRealTimerLocked entry timer e.now
  | .read => entry
  | .expire => (vprocTaskExpireRealTimerLocked entry e.now).1

/-- every event is as `P` says when it comes -/
def Each (P : Entry → Event → Prop) : Entry → List Event → Prop
  | _, [] => True
  | entry, e :: es => P entry e ∧ Each P (step entry e) es

/-! ## over the naturals -/

def Timeval.ns (tv : Timeval) : Nat := tv.sec.toNatClampNeg * 1000000000 + tv.usec.toNatClampNeg * 1000

structure SetExact (entry : Entry) (timer : Itimerval) (now : UInt64) (entry' : Entry) : Prop where
  value : (vprocTimevalToNs timer.value).toNat = timer.value.ns
  interval : (vprocTimevalToNs timer.interval).toNat = timer.interval.ns
  alarms : entry'.alarms = entry.alarms
  off : timer.value.ns = 0 → entry'.realTimerActive = false
  on : 0 < timer.value.ns → entry'.realTimerActive = true ∧
    entry'.realTimerIntervalNs.toNat = timer.interval.ns ∧
    entry'.realTimerDeadlineNs.toNat = min (now.toNat + timer.value.ns) (2 ^ 64 - 1)

/-- the timer has a deadline that is not after `now` -/
def Due (entry : Entry) (now : UInt64) : Prop :=
  entry.realTimerActive = true ∧ entry.realTimerDeadlineNs.toNat ≤ now.toNat

structure ExpireExact (entry : Entry) (now : UInt64) (r : Entry × Bool) : Prop where
  expires : r.2 = true ↔ Due entry now
  keeps : ¬ Due entry now → r.1 = entry
  alarms : Due entry now → r.1.alarms = entry.alarms + 1
  oneShot : Due entry now → entry.realTimerIntervalNs = 0 → r.1.realTimerActive = false
  periodic : Due entry now → entry.realTimerIntervalNs ≠ 0 → r.1.realTimerActive = true ∧
    r.1.realTimerIntervalNs = entry.realTimerIntervalNs ∧
    IsLeast {d : Nat | now.toNat < d ∧ ∃ k, 0 < k ∧
      d = entry.realTimerDeadlineNs.toNat + k * entry.realTimerIntervalNs.toNat}
      r.1.realTimerDeadlineNs.toNat

def Exact (entry : Entry) (e : Event) : Prop :=
  match e.call with
  | .set timer => SetExact entry timer e.now (vprocTaskSetRealTimerLocked entry timer e.now)
  | .read => (vprocTaskRealTimerRemainingNsLocked entry e.now).toNat =
      if entry.realTimerActive then entry.realTimerDeadlineNs.toNat - e.now.toNat else 0
  | .expire => ExpireExact entry e.now (vprocTaskExpireRealTimerLocked entry e.now)

/-- a timer is set to values that the caller has checked -/
def Checked (e : Event) : Prop :=
  ∀ timer, e.call = .set timer →
    vprocTimevalValid timer.value = true ∧ vprocTimevalValid timer.interval = true

def Fits (entry : Entry) (e : Event) : Prop :=
  match e.call with
  | .set timer => timer.value.ns < 2 ^ 64 ∧ timer.interval.ns < 2 ^ 64
  | .read => True
  | .expire => Due entry e.now → entry.realTimerIntervalNs ≠ 0 →
      entry.realTimerDeadlineNs.toNat +
        ((e.now.toNat - entry.realTimerDeadlineNs.toNat) / entry.realTimerIntervalNs.toNat + 1) *
          entry.realTimerIntervalNs.toNat < 2 ^ 64

/-- an active timer has a deadline -/
def Inv (entry : Entry) : Prop :=
  entry.realTimerActive = true → entry.realTimerDeadlineNs.toNat ≠ 0

/-! ## the calls -/

theorem vprocTimevalToNs_toNat {tv : Timeval} (hv : vprocTimevalValid tv = true)
    (h : tv.ns < 2 ^ 64) : (vprocTimevalToNs tv).toNat = tv.ns := by
  have hvalid : 0 ≤ tv.sec ∧ 0 ≤ tv.usec ∧ tv.usec < 1000000 := of_decide_eq_true hv
  have hsec := Int64.toNat_toUInt64_of_le hvalid.1
  have husec := Int64.toNat_toUInt64_of_le hvalid.2.1
  unfold Timeval.ns at *
  rw [vprocTimevalToNs, UInt64.toNat_add, UInt64.toNat_mul, UInt64.toNat_mul, hsec, husec]
  show (tv.sec.toNatClampNeg * 1000000000 % 2 ^ 64 + tv.usec.toNatClampNeg * 1000 % 2 ^ 64) % 2 ^ 64 = _
  rw [← Nat.add_mod, Nat.mod_eq_of_lt h]

theorem least_later {deadline interval now : Nat} (hinterval : 0 < interval)
    (hdue : deadline ≤ now) : IsLeast {d : Nat | now < d ∧ ∃ k, 0 < k ∧ d = deadline + k * interval}
      (deadline + ((now - deadline) / interval + 1) * interval) := by
  have hdiv := Nat.div_add_mod (now - deadline) interval
  have hmod := Nat.mod_lt (now - deadline) hinterval
  refine ⟨⟨?_, _, Nat.succ_pos _, rfl⟩, ?_⟩
  · rw [add_one_mul, Nat.mul_comm]
    omega
  · rintro d ⟨hlater, k, _, rfl⟩
    have hk : (now - deadline) / interval < k := by
      rw [Nat.div_lt_iff_lt_mul hinterval]
      omega
    exact Nat.add_le_add_left (Nat.mul_le_mul_right _ hk) _

theorem nextDeadline_toNat {deadline interval now : UInt64} (hinterval : 0 < interval.toNat)
    (hdue : deadline.toNat ≤ now.toNat)
    (hfits : deadline.toNat + ((now.toNat - deadline.toNat) / interval.toNat + 1) *
      interval.toNat < 2 ^ 64) :
    (nextDeadline deadline interval now).toNat =
      deadline.toNat + ((now.toNat - deadline.toNat) / interval.toNat + 1) * interval.toNat := by
  have hmax : uint64Max.toNat = 2 ^ 64 - 1 := by decide
  have hticks : ((now - deadline) / interval + 1).toNat =
      (now.toNat - deadline.toNat) / interval.toNat + 1 := by
    have hle := Nat.le_mul_of_pos_right
      ((now.toNat - deadline.toNat) / interval.toNat + 1) hinterval
    rw [UInt64.toNat_add, UInt64.toNat_div, UInt64.toNat_sub_of_le _ _ hdue]
    exact Nat.mod_eq_of_lt (by show _ + 1 < _; omega)
  generalize hT : (now.toNat - deadline.toNat) / interval.toNat + 1 = T at *
  have hproduct : ((now - deadline) / interval + 1).toNat * interval.toNat < 2 ^ 64 := by
    rw [hticks]
    omega
  have hmany : ¬ (now - deadline) / interval + 1 > uint64Max / interval := by
    rw [gt_iff_lt, UInt64.lt_iff_toNat_lt, UInt64.toNat_div, hticks, hmax, not_lt,
      Nat.le_div_iff_mul_le hinterval]
    omega
  have hadvance : (advance ((now - deadline) / interval + 1) interval).toNat =
      T * interval.toNat := by
    unfold advance
    rw [if_neg hmany]
    split <;> rename_i hone
    · rw [UInt64.toNat_mul, hticks, Nat.mod_eq_of_lt (by omega)]
    · rw [gt_iff_lt, UInt64.lt_iff_toNat_lt, hticks] at hone
      have hpos : 0 < T := hT ▸ Nat.succ_pos _
      have hone : T = 1 := by
        change ¬ 1 < T at hone
        omega
      rw [hone, Nat.one_mul]
  unfold nextDeadline
  dsimp only
  have hroom : ¬ uint64Max - deadline < advance ((now - deadline) / interval + 1) interval := by
    rw [UInt64.lt_iff_toNat_lt, hadvance, UInt64.toNat_sub_of_le _ _ (by
      rw [UInt64.le_iff_toNat_le, hmax]; omega), hmax]
    omega
  rw [if_neg hroom, UInt64.toNat_add, hadvance, Nat.mod_eq_of_lt hfits]

/-- what the code's two tests of an active timer come to -/
theorem due_iff {entry : Entry} (hinv : Inv entry) (now : UInt64) : Due entry now ↔
    ¬ (entry.realTimerActive = false ∨ entry.realTimerDeadlineNs = 0) ∧
      ¬ entry.realTimerDeadlineNs > now := by
  have hzero : entry.realTimerDeadlineNs = 0 ↔ entry.realTimerDeadlineNs.toNat = 0 := by
    rw [← UInt64.toNat_inj]
    rfl
  unfold Due Inv at *
  rw [hzero, gt_iff_lt, UInt64.lt_iff_toNat_lt, not_lt, not_or, Bool.not_eq_false]
  tauto

theorem set_exact {entry : Entry} {timer : Itimerval} (now : UInt64)
    (hvalue : vprocTimevalValid timer.value = true)
    (hinterval : vprocTimevalValid timer.interval = true)
    (hfits : timer.value.ns < 2 ^ 64 ∧ timer.interval.ns < 2 ^ 64) :
    SetExact entry timer now (vprocTaskSetRealTimerLocked entry timer now) := by
  have hv := vprocTimevalToNs_toNat hvalue hfits.1
  have hi := vprocTimevalToNs_toNat hinterval hfits.2
  have hmax : uint64Max.toNat = 2 ^ 64 - 1 := by decide
  have hnow := now.toNat_lt
  have hzero : vprocTimevalToNs timer.value = 0 ↔ timer.value.ns = 0 := by
    rw [← hv, ← UInt64.toNat_inj]
    rfl
  unfold vprocTaskSetRealTimerLocked
  dsimp only
  split <;> rename_i hoff <;> rw [hzero] at hoff
  · exact ⟨hv, hi, rfl, fun _ => rfl, fun hon => by omega⟩
  · refine ⟨hv, hi, rfl, fun h => absurd h hoff, fun _ => ⟨rfl, hi, ?_⟩⟩
    dsimp only
    split <;> rename_i hroom <;> rw [UInt64.lt_iff_toNat_lt, UInt64.toNat_sub_of_le _ _ (by
      rw [UInt64.le_iff_toNat_le, hmax]; omega), hmax, hv] at hroom
    · rw [hmax]
      omega
    · rw [UInt64.toNat_add, hv]
      omega

theorem read_exact {entry : Entry} (hinv : Inv entry) (now : UInt64) :
    (vprocTaskRealTimerRemainingNsLocked entry now).toNat =
      if entry.realTimerActive then entry.realTimerDeadlineNs.toNat - now.toNat else 0 := by
  unfold vprocTaskRealTimerRemainingNsLocked
  cases hactive : entry.realTimerActive with
  | false => rfl
  | true =>
    have hne : entry.realTimerDeadlineNs ≠ 0 := by
      intro h
      exact hinv hactive (by rw [h]; rfl)
    rw [if_neg (by simp [hne]), if_pos rfl]
    split <;> rename_i hle <;> rw [UInt64.le_iff_toNat_le] at hle
    · rw [Nat.sub_eq_zero_of_le hle]
      rfl
    · rw [UInt64.toNat_sub_of_le _ _ (by rw [UInt64.le_iff_toNat_le]; omega)]

theorem expire_of_not_due {entry : Entry} (hinv : Inv entry) {now : UInt64}
    (h : ¬ Due entry now) : vprocTaskExpireRealTimerLocked entry now = (entry, false) := by
  rw [due_iff hinv, not_and_or, not_not, not_not] at h
  unfold vprocTaskExpireRealTimerLocked
  rcases h with h | h
  · rw [if_pos h]
  · rw [if_pos h, ite_self]

theorem periodic_exact {entry : Entry} {now next : UInt64} (hdue : Due entry now)
    (hne : entry.realTimerIntervalNs ≠ 0) (hleast : IsLeast {d : Nat | now.toNat < d ∧ ∃ k, 0 < k ∧
      d = entry.realTimerDeadlineNs.toNat + k * entry.realTimerIntervalNs.toNat} next.toNat) :
    ExpireExact entry now
      ({ entry with realTimerDeadlineNs := next, alarms := entry.alarms + 1 }, true) where
  expires := iff_of_true rfl hdue
  keeps h := absurd hdue h
  alarms _ := rfl
  oneShot _ h := absurd h hne
  periodic _ _ := ⟨hdue.1, rfl, hleast⟩

theorem expire_exact {entry : Entry} (hinv : Inv entry) {now : UInt64}
    (hfits : Fits entry ⟨now, .expire⟩) :
    ExpireExact entry now (vprocTaskExpireRealTimerLocked entry now) := by
  simp only [Fits] at hfits
  by_cases hdue : Due entry now
  · obtain ⟨hactive, hpast⟩ := (due_iff hinv now).mp hdue
    have hpos : entry.realTimerIntervalNs > 0 ↔ 0 < entry.realTimerIntervalNs.toNat :=
      UInt64.lt_iff_toNat_lt
    have hzero : entry.realTimerIntervalNs = 0 ↔ entry.realTimerIntervalNs.toNat = 0 := by
      rw [← UInt64.toNat_inj]
      rfl
    unfold vprocTaskExpireRealTimerLocked
    rw [if_neg hactive, if_neg hpast]
    by_cases hinterval : 0 < entry.realTimerIntervalNs.toNat
    · rw [if_pos (hpos.mpr hinterval)]
      have hne : entry.realTimerIntervalNs ≠ 0 := fun h => by
        rw [hzero.mp h] at hinterval
        exact absurd hinterval (Nat.lt_irrefl 0)
      refine periodic_exact hdue hne ?_
      rw [nextDeadline_toNat hinterval hdue.2 (hfits hdue hne)]
      exact least_later hinterval hdue.2
    · rw [if_neg (hpos.not.mpr hinterval)]
      refine ⟨iff_of_true rfl hdue, fun h => absurd hdue h, fun _ => rfl, fun _ _ => rfl,
        fun _ h => ?_⟩
      exact absurd (hzero.mpr (Nat.eq_zero_of_not_pos hinterval)) h
  · rw [expire_of_not_due hinv hdue]
    exact ⟨iff_of_false Bool.false_ne_true hdue, fun _ => rfl, fun h => absurd h hdue,
      fun h => absurd h hdue, fun h => absurd h hdue⟩

theorem step_inv {entry : Entry} {e : Event} (hinv : Inv entry) (hexact : Exact entry e) :
    Inv (step entry e) := by
  obtain ⟨now, call⟩ := e
  intro hactive
  cases call with
  | set timer =>
    have hexact : SetExact entry timer now _ := hexact
    rcases Nat.eq_zero_or_pos timer.value.ns with hoff | hon
    · rw [step, hexact.off hoff] at hactive
      cases hactive
    · obtain ⟨_, _, hdeadline⟩ := hexact.on hon
      rw [step, hdeadline]
      omega
  | read => exact hinv hactive
  | expire =>
    have hexact : ExpireExact entry now _ := hexact
    by_cases hdue : Due entry now
    · by_cases hzero : entry.realTimerIntervalNs = 0
      · rw [step, hexact.oneShot hdue hzero] at hactive
        cases hactive
      · obtain ⟨_, _, ⟨hlater, _⟩, _⟩ := hexact.periodic hdue hzero
        exact Nat.ne_of_gt (Nat.zero_lt_of_lt hlater)
    · rw [step, hexact.keeps hdue] at hactive ⊢
      exact hinv hactive

theorem run_exact {entry : Entry} {es : List Event} (hstart : entry.realTimerActive = false)
    (h : Each (fun entry e => Checked e ∧ Fits entry e) entry es) : Each Exact entry es := by
  have hinv : Inv entry := fun hactive => by rw [hstart] at hactive; cases hactive
  clear hstart
  induction es generalizing entry with
  | nil => trivial
  | cons e es ih =>
    obtain ⟨⟨hchecked, hfits⟩, hes⟩ := h
    have hexact : Exact entry e := by
      obtain ⟨now, call⟩ := e
      cases call with
      | set timer =>
        obtain ⟨hvalue, hinterval⟩ := hchecked timer rfl
        exact set_exact now hvalue hinterval hfits
      | read => exact read_exact hinv now
      | expire => exact expire_exact hinv hfits
    exact ⟨hexact, ih hes (step_inv hinv hexact)⟩

/-- no timer is set -/
def idle : Entry := ⟨false, 0, 0, 0⟩

/-- one and a half seconds, every second -/
def everySecond : Itimerval := ⟨⟨1, 0⟩, ⟨1, 500000⟩⟩

theorem checked_everySecond : Checked ⟨7, .set everySecond⟩ := by
  intro timer h
  cases h
  decide

theorem run_exact_everySecond :
    Each Exact idle [⟨7, .set everySecond⟩, ⟨8, .read⟩, ⟨4000000000, .expire⟩] :=
  run_exact rfl ⟨⟨checked_everySecond, by decide +kernel, by decide +kernel⟩,
    ⟨(fun _ h => by cases h), trivial⟩, ⟨(fun _ h => by cases h), fun _ _ => by decide +kernel⟩, trivial⟩

/-- A timer of 18446744074 seconds is over in less than one. -/
theorem not_exact_long : Checked ⟨0, .set ⟨⟨0, 0⟩, ⟨18446744074, 0⟩⟩⟩ ∧
      (step idle ⟨0, .set ⟨⟨0, 0⟩, ⟨18446744074, 0⟩⟩⟩).realTimerDeadlineNs = 290448384 ∧
      ¬ Each Exact idle [⟨0, .set ⟨⟨0, 0⟩, ⟨18446744074, 0⟩⟩⟩] := by
  refine ⟨fun timer h => ?_, by decide +kernel, fun h => ?_⟩
  · cases h
    decide
  · obtain ⟨hexact, _⟩ := h
    exact absurd (SetExact.value hexact) (by decide +kernel)

/-! ## a timer that is looked at -/

/-- where a periodic timer may expire -/
def ticks (entry : Entry) : Set Nat :=
  {d | ∃ k, d = entry.realTimerDeadlineNs.toNat + k * entry.realTimerIntervalNs.toNat}

theorem ticks_least (entry : Entry) : IsLeast (ticks entry) entry.realTimerDeadlineNs.toNat := by
  refine ⟨⟨0, by rw [Nat.zero_mul]; rfl⟩, ?_⟩
  rintro d ⟨k, rfl⟩
  exact Nat.le_add_right _ _

theorem expire_least {entry : Entry} {now : UInt64}
    (hactive : entry.realTimerActive = true) (hperiodic : entry.realTimerIntervalNs ≠ 0)
    (hexact : Exact entry ⟨now, .expire⟩) :
    (step entry ⟨now, .expire⟩).realTimerActive = true ∧
    (step entry ⟨now, .expire⟩).realTimerIntervalNs = entry.realTimerIntervalNs ∧
    IsLeast {d ∈ ticks entry | now.toNat < d}
      (step entry ⟨now, .expire⟩).realTimerDeadlineNs.toNat := by
  have hexact : ExpireExact entry now _ := hexact
  by_cases hdue : Due entry now
  · obtain ⟨hactive', hinterval, ⟨hlater, k, _, hk⟩, hleast⟩ := hexact.periodic hdue hperiodic
    refine ⟨hactive', hinterval, ⟨⟨k, hk⟩, hlater⟩, ?_⟩
    rintro d ⟨⟨k, rfl⟩, hd⟩
    refine hleast ⟨hd, k, Nat.pos_of_ne_zero fun h0 => ?_, rfl⟩
    rw [h0, Nat.zero_mul] at hd
    exact absurd hdue.2 (Nat.not_le_of_lt hd)
  · obtain ⟨hmem, hleast⟩ := ticks_least entry
    rw [step, hexact.keeps hdue]
    refine ⟨hactive, rfl, ⟨hmem, ?_⟩, fun d hd => hleast hd.1⟩
    exact Nat.lt_of_not_le fun hle => hdue ⟨hactive, hle⟩

/-- However often and in whichever order a periodic timer is looked at, its deadline is the
first of its ticks after all the looks. -/
theorem expirations_least {entry : Entry} {nows : List UInt64} (hinv : Inv entry)
    (hactive : entry.realTimerActive = true) (hperiodic : entry.realTimerIntervalNs ≠ 0)
    (h : Each Fits entry (nows.map (⟨·, .expire⟩))) :
    IsLeast {d ∈ ticks entry | ∀ now ∈ nows, now.toNat < d}
      ((nows.map (⟨·, .expire⟩)).foldl step entry).realTimerDeadlineNs.toNat := by
  induction nows generalizing entry with
  | nil => simpa using ticks_least entry
  | cons now nows ih =>
    obtain ⟨hfits, hrest⟩ := h
    have hexact : Exact entry ⟨now, .expire⟩ := expire_exact hinv hfits
    obtain ⟨hactive', hinterval, ⟨⟨k, hk⟩, hlater⟩, hleast⟩ :=
      expire_least hactive hperiodic hexact
    obtain ⟨⟨⟨j, hj⟩, hnows⟩, hlow⟩ := ih (step_inv hinv hexact) hactive'
      (hinterval ▸ hperiodic) hrest
    rw [hinterval] at hj
    refine ⟨⟨⟨k + j, ?_⟩, ?_⟩, ?_⟩
    · rw [List.map_cons, List.foldl_cons, hj, hk, Nat.add_mul, Nat.add_assoc]
    · refine List.forall_mem_cons.mpr ⟨Nat.lt_of_lt_of_le hlater ?_, hnows⟩
      rw [List.map_cons, List.foldl_cons, hj]
      exact Nat.le_add_right _ _
    · rintro d ⟨⟨m, rfl⟩, hd⟩
      obtain ⟨hnow, hnows⟩ := List.forall_mem_cons.mp hd
      have hle := hleast ⟨⟨m, rfl⟩, hnow⟩
      rw [hk, Nat.add_le_add_iff_left] at hle
      have hpos : 0 < entry.realTimerIntervalNs.toNat :=
        Nat.pos_of_ne_zero fun h0 => hperiodic (UInt64.toNat_inj.mp h0)
      obtain ⟨i, rfl⟩ := Nat.le.dest (Nat.le_of_mul_le_mul_right hle hpos)
      exact hlow ⟨⟨i, by rw [hinterval, hk, Nat.add_mul, Nat.add_assoc]⟩, hnows⟩

theorem expirations_least_twice :
    IsLeast {d ∈ ticks ⟨true, 5, 3, 0⟩ | ∀ now ∈ [9, 6], UInt64.toNat now < d}
      (([9, 6].map (⟨·, .expire⟩)).foldl step ⟨true, 5, 3, 0⟩).realTimerDeadlineNs.toNat :=
  expirations_least (fun _ => by decide) rfl (by decide)
    ⟨fun _ _ => by decide +kernel, fun _ _ => by decide +kernel, trivial⟩

end RealTimer

end Pscal
