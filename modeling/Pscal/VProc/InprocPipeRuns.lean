import Pscal.Lib.Counting
import Pscal.VProc.InprocPipeSpec

/-!
# Runs of an in-process pipe

* `PipeCensus`  how many calls are where;
* `PipeBalance`, `PipeInv`  what the counts of the pipe and of its files have to do with it;
* `PipeInv.step`  every step keeps it;
* `inprocPipe_run`  bytes come out as they went in, and the memory is freed once, after all else.
-/

set_option linter.unusedSectionVars false

namespace Pscal

open Counting Transitions List Function PipePhase VprocInprocPipe

/-! ## how many calls are where -/

namespace PipePhase

def has (e : VprocInprocEnd) : PipePhase → Bool
  | .holding e' | .freeing (some e') => e' == e
  | .calling op | .waiting op => op.side == e
  | _ => false

def waitsAt (e : VprocInprocEnd) : PipePhase → Bool
  | .waiting op => op.side == e
  | _ => false

def closes (e : VprocInprocEnd) : PipePhase → Bool
  | .closing e' => e' == e
  | _ => false

def frees : PipePhase → Bool
  | .freeing _ => true
  | _ => false

end PipePhase

structure PipeCensus where
  has : VprocInprocEnd → Nat
  waits : VprocInprocEnd → Nat
  closes : VprocInprocEnd → Nat
  frees : Nat

section
variable {T : Type}

structure PipeCensus.Counts (c : PipeCensus) (phase : T → PipePhase) : Prop where
  has : ∀ e, Tally (fun p : PipePhase => p.has e = true) phase (c.has e)
  waits : ∀ e, Tally (fun p : PipePhase => p.waitsAt e = true) phase (c.waits e)
  closes : ∀ e, Tally (fun p : PipePhase => p.closes e = true) phase (c.closes e)
  frees : Tally (fun p : PipePhase => p.frees = true) phase c.frees

def PipeCensus.move (c : PipeCensus) (p p' : PipePhase) : PipeCensus where
  has := fun e => c.has e + (p'.has e).toNat - (p.has e).toNat
  waits := fun e => c.waits e + (p'.waitsAt e).toNat - (p.waitsAt e).toNat
  closes := fun e => c.closes e + (p'.closes e).toNat - (p.closes e).toNat
  frees := c.frees + p'.frees.toNat - p.frees.toNat

variable [DecidableEq T]

variable {phase : T → PipePhase} {c : PipeCensus} {e : VprocInprocEnd} {t : T} {ev : PipeEvent T}
  {s' : PipeWorld T}

theorem tally_move {g : PipePhase → Bool} {n : Nat} (h : Tally (fun p => g p = true) phase n)
    (t : T) (p : PipePhase) : Tally (fun p => g p = true) (update phase t p)
      (n + (g p).toNat - (g (phase t)).toNat) := by
  cases hold : g (phase t) <;> cases hnew : g p
  · exact h.stay (by rw [hold, hnew])
  · exact h.enter (by rw [hold]; exact Bool.false_ne_true) hnew
  · exact h.leave hold (by rw [hnew]; exact Bool.false_ne_true)
  · exact h.stay (by rw [hold, hnew])

theorem PipeCensus.Counts.move (h : c.Counts phase) (t : T) (p : PipePhase) :
    (c.move (phase t) p).Counts (update phase t p) :=
  ⟨fun e => tally_move (h.has e) t p, fun e => tally_move (h.waits e) t p,
    fun e => tally_move (h.closes e) t p, tally_move h.frees t p⟩

theorem PipeCensus.Counts.le (h : c.Counts phase) (t : T) :
    (∀ e, ((phase t).has e).toNat ≤ c.has e) ∧ (∀ e, ((phase t).waitsAt e).toNat ≤ c.waits e) ∧
      (∀ e, ((phase t).closes e).toNat ≤ c.closes e) ∧ (phase t).frees.toNat ≤ c.frees := by
  have hle : ∀ {g : PipePhase → Bool} {n : Nat}, Tally (fun p => g p = true) phase n →
      (g (phase t)).toNat ≤ n := by
    intro g n htally
    cases hg : g (phase t) with
    | false => exact Nat.zero_le _
    | true => exact htally.pos hg
  exact ⟨fun e => hle (h.has e), fun e => hle (h.waits e), fun e => hle (h.closes e), hle h.frees⟩

/-! ## the invariant -/

/-- the counts of the pipe and of its files against how many calls are where -/
structure PipeBalance (tr : List (PipeEvent T)) (s : PipeWorld T) (c : PipeCensus) : Prop where
  refs : ∀ e, s.refs e = s.slots e + c.has e
  waiters : ∀ e, s.pipe.waiters e = c.waits e
  active : s.pipe.activeOps = s.pipe.waitReaders + s.pipe.waitWriters
  /-- an end without references is closed, or one call is about to close it -/
  ended : ∀ e, (if s.refs e = 0 then 1 else 0) = c.closes e + (s.pipe.closed e).toNat
  keepers : ∀ e, s.pipe.keepers e = if s.pipe.closed e then 0 else 1
  freed : s.pipe.freed = (s.pipe.readClosed && s.pipe.writeClosed)
  frees : timesFreed tr + c.frees = s.pipe.freed.toNat

structure PipeInv (tr : List (PipeEvent T)) (s : PipeWorld T) : Prop where
  ok : s.pipe.Ok
  flow : bytesRead tr ++ s.pipe.contents = bytesAccepted tr
  closedIn : ∀ e, s.pipe.closed e = true ↔ ClosedIn tr e
  polls : ∀ t e, s.phase t ≠ .waiting (.poll e)
  balance : ∃ c : PipeCensus, c.Counts s.phase ∧ PipeBalance tr s c

variable {tr : List (PipeEvent T)} {s : PipeWorld T}

theorem bytesRead_concat (tr : List (PipeEvent T)) (ev : PipeEvent T) :
    bytesRead (tr ++ [ev]) = bytesRead tr ++ ev.out := by
  rw [bytesRead, flatMap_append, flatMap_cons, flatMap_nil, append_nil]
  rfl

theorem bytesAccepted_concat (tr : List (PipeEvent T)) (ev : PipeEvent T) :
    bytesAccepted (tr ++ [ev]) = bytesAccepted tr ++ ev.into := by
  rw [bytesAccepted, flatMap_append, flatMap_cons, flatMap_nil, append_nil]
  rfl

theorem timesFreed_concat (tr : List (PipeEvent T)) (ev : PipeEvent T) :
    timesFreed (tr ++ [ev]) = timesFreed tr + ev.isFree.toNat := by
  rw [timesFreed, countP_append, countP_singleton]
  cases ev.isFree <;> rfl

theorem closedIn_concat (tr : List (PipeEvent T)) (ev : PipeEvent T) (e : VprocInprocEnd) :
    ClosedIn (tr ++ [ev]) e ↔ ClosedIn tr e ∨ ∃ t, ev = .close t e := by
  constructor
  · rintro ⟨t, hmem⟩
    rcases mem_append.mp hmem with hmem | hmem
    · exact .inl ⟨t, hmem⟩
    · exact .inr ⟨t, (mem_singleton.mp hmem).symm⟩
  · rintro (⟨t, hmem⟩ | ⟨t, rfl⟩)
    · exact ⟨t, mem_append_left _ hmem⟩
    · exact ⟨t, mem_append_right _ (mem_singleton_self _)⟩

theorem PipeInv.open_of_has (h : PipeInv tr s) (hhas : (s.phase t).has e = true) :
    s.pipe.closed e = false := by
  obtain ⟨c, hcounts, hbalance⟩ := h.balance
  have hpos := (hcounts.has e).pos hhas
  have hrefs := hbalance.refs e
  have hended := hbalance.ended e
  rw [if_neg (by omega)] at hended
  cases hclosed : s.pipe.closed e with
  | false => rfl
  | true =>
    rw [hclosed] at hended
    exact absurd hended (by rw [Bool.toNat_true]; omega)

/-! ## steps -/

theorem polls_setPhase (h : ∀ t e, s.phase t ≠ .waiting (.poll e)) (t : T) {p : PipePhase}
    (hp : ∀ e, p ≠ .waiting (.poll e)) : ∀ t' e, update s.phase t p t' ≠ .waiting (.poll e) := by
  intro t' e
  by_cases ht : t' = t
  · rw [ht, update_self]
    exact hp e
  · rw [update_of_ne ht]
    exact h t' e

theorem PipeInv.turned (h : PipeInv tr s) (t : T) {op : PipeOp} {q : VprocInprocPipe}
    {turn : PipeTurn} {ev : PipeEvent T} (hout : ev.out = op.out turn.result)
    (hinto : ev.into = op.into turn.result) (hevent : ev.isFree = false ∧ ∀ t e, ev ≠ .close t e)
    (hold : s.phase t = .calling op ∧ q = { s.pipe with activeOps := s.pipe.activeOps + 1 } ∨
      s.phase t = .waiting op ∧ q = s.pipe.addWaiters op.side (-1))
    (hpoll : turn.result = none → ∀ e, op ≠ .poll e) (hkeeps : turn.destroys = false)
    (heffect : PipeEffect op q turn.result turn.pipe) :
    PipeInv (tr ++ [ev]) (s.turned t op turn) := by
  obtain ⟨c, hcounts, hbalance⟩ := h.balance
  -- the pipe as it is while the call is active
  have hq : (∀ e, q.closed e = s.pipe.closed e) ∧ (∀ e, q.keepers e = s.pipe.keepers e) ∧
      q.freed = s.pipe.freed ∧ q.contents = s.pipe.contents ∧
      q.activeOps = q.waitReaders + q.waitWriters + 1 ∧
      ∀ e, q.waiters e = s.pipe.waiters e - ((s.phase t).waitsAt e).toNat := by
    have hactive := hbalance.active
    rcases hold with ⟨hphase, rfl⟩ | ⟨hphase, rfl⟩
    · rw [hphase]
      refine ⟨fun e => by cases e <;> rfl, fun e => by cases e <;> rfl, rfl, rfl, ?_,
        fun e => by cases e <;> exact (Int.sub_zero _).symm⟩
      show s.pipe.activeOps + 1 = s.pipe.waitReaders + s.pipe.waitWriters + 1
      rw [hactive]
    · rw [hphase]
      refine ⟨fun e => ?_, fun e => ?_, ?_, ?_, ?_, fun e => ?_⟩
      · cases op.side <;> cases e <;> rfl
      · cases op.side <;> cases e <;> rfl
      · cases op.side <;> rfl
      · cases op.side <;> rfl
      · cases op.side
        · show s.pipe.activeOps = s.pipe.waitReaders + -1 + s.pipe.waitWriters + 1
          omega
        · show s.pipe.activeOps = s.pipe.waitReaders + (s.pipe.waitWriters + -1) + 1
          omega
      · show _ = _ - (((op.side == e).toNat : Nat) : Int)
        cases op.side <;> cases e <;> first | rfl | exact (Int.sub_zero _).symm
  obtain ⟨hclosed, hkeepers, hfreed, hcontents, hactive, hwaiters⟩ := hq
  have hhas : ∀ e, (s.phase t).has e = (op.side == e) := fun e => by
    rcases hold with ⟨hphase, -⟩ | ⟨hphase, -⟩ <;> rw [hphase] <;> rfl
  have hcloses : ∀ e, (s.phase t).closes e = false := fun e => by
    rcases hold with ⟨hphase, -⟩ | ⟨hphase, -⟩ <;> rw [hphase] <;> rfl
  have hfrees : (s.phase t).frees = false := by
    rcases hold with ⟨hphase, -⟩ | ⟨hphase, -⟩ <;> rw [hphase] <;> rfl
  -- where the call goes
  obtain ⟨p, hworld, hp⟩ : ∃ p, s.turned t op turn = (s.setPipe turn.pipe).setPhase t p ∧
      (turn.result = none ∧ p = .waiting op ∨ turn.result ≠ none ∧ p = .holding op.side) := by
    cases turn with
    | done result destroy pipe =>
      obtain rfl : destroy = false := hkeeps
      exact ⟨_, rfl, .inr ⟨fun h => (nomatch h), rfl⟩⟩
    | wait pipe => exact ⟨_, rfl, .inl ⟨rfl, rfl⟩⟩
  have hhas' : ∀ e, p.has e = (op.side == e) := fun e => by
    rcases hp with ⟨-, rfl⟩ | ⟨-, rfl⟩ <;> rfl
  have hcloses' : ∀ e, p.closes e = false := fun e => by
    rcases hp with ⟨-, rfl⟩ | ⟨-, rfl⟩ <;> rfl
  have hfrees' : p.frees = false := by
    rcases hp with ⟨-, rfl⟩ | ⟨-, rfl⟩ <;> rfl
  have hwaits' : ∀ e, ((p.waitsAt e).toNat : Int) =
      if turn.result = none ∧ e = op.side then 1 else 0 := fun e => by
    rcases hp with ⟨hresult, rfl⟩ | ⟨hresult, rfl⟩
    · rw [hresult]
      show (((op.side == e).toNat : Nat) : Int) = _
      cases op.side <;> cases e <;> rfl
    · rw [if_neg fun h => hresult h.1]
      rfl
  have hsum : turn.pipe.activeOps = turn.pipe.waitReaders + turn.pipe.waitWriters := by
    have hreaders : turn.pipe.waitReaders = q.waitReaders + _ := heffect.waiters .reader
    have hwriters : turn.pipe.waitWriters = q.waitWriters + _ := heffect.waiters .writer
    rw [heffect.active, hreaders, hwriters, hactive]
    by_cases hresult : turn.result = none
    · cases op.side <;> simp [hresult] <;> omega
    · simp [hresult]
  rw [hworld]
  refine ⟨heffect.ok, ?_, fun e => ?_, polls_setPhase h.polls t fun e => ?_, _,
    hcounts.move t p, fun e => ?_, fun e => ?_, hsum, fun e => ?_, fun e => ?_, ?_, ?_⟩
  · rw [bytesRead_concat, bytesAccepted_concat, append_assoc, hout, hinto]
    show bytesRead tr ++ (op.out turn.result ++ turn.pipe.contents) = _ ++ op.into turn.result
    rw [heffect.flow, hcontents, ← append_assoc, h.flow]
  · show turn.pipe.closed e = true ↔ _
    rw [heffect.closed, hclosed, h.closedIn, closedIn_concat]
    exact ⟨.inl, fun h => h.resolve_right fun ⟨t, h⟩ => hevent.2 t e h⟩
  · rcases hp with ⟨hresult, rfl⟩ | ⟨-, rfl⟩
    · exact fun h => hpoll hresult e (waiting.inj h)
    · exact fun h => nomatch h
  · show s.refs e = s.slots e + (c.has e + (p.has e).toNat - ((s.phase t).has e).toNat)
    rw [hbalance.refs, hhas, hhas', Nat.add_sub_cancel]
  · have hle := (hcounts.le t).2.1 e
    have hnow := hbalance.waiters e
    show turn.pipe.waiters e =
      ((c.waits e + (p.waitsAt e).toNat - ((s.phase t).waitsAt e).toNat : Nat) : Int)
    rw [heffect.waiters, ← hwaits', hwaiters, hnow]
    omega
  · show (if s.refs e = 0 then 1 else 0) =
      c.closes e + (p.closes e).toNat - ((s.phase t).closes e).toNat + (turn.pipe.closed e).toNat
    rw [heffect.closed, hclosed, hcloses, hcloses', hbalance.ended]
    rfl
  · show turn.pipe.keepers e = if turn.pipe.closed e then 0 else 1
    rw [heffect.keepers, heffect.closed, hkeepers, hclosed]
    exact hbalance.keepers e
  · show turn.pipe.freed = (turn.pipe.closed .reader && turn.pipe.closed .writer)
    rw [heffect.freed, heffect.closed, heffect.closed, hclosed, hclosed, hfreed]
    exact hbalance.freed
  · show timesFreed (tr ++ [_]) + (c.frees + p.frees.toNat - (s.phase t).frees.toNat) =
      turn.pipe.freed.toNat
    rw [timesFreed_concat, heffect.freed, hfreed, hfrees, hfrees', hevent.1]
    exact hbalance.frees

theorem PipeInv.filed (h : PipeInv tr s) (hpipe : s'.pipe = s.pipe) (hout : ev.out = [])
    (hinto : ev.into = []) (hevent : ∀ t e, ev ≠ .close t e)
    (hpolls : ∀ t e, s'.phase t ≠ .waiting (.poll e))
    (hcensus : ∀ c : PipeCensus, c.Counts s.phase → PipeBalance tr s c → ∃ c' : PipeCensus,
      c'.Counts s'.phase ∧ (∀ e, s'.refs e = s'.slots e + c'.has e) ∧ (∀ e, c'.waits e = c.waits e)
      ∧ (∀ e, (if s'.refs e = 0 then 1 else 0) = c'.closes e + (s.pipe.closed e).toNat) ∧
      ev.isFree.toNat + c'.frees = c.frees) : PipeInv (tr ++ [ev]) s' := by
  obtain ⟨c, hcounts, hbalance⟩ := h.balance
  obtain ⟨c', hcounts', hrefs, hwaits, hended, hfrees⟩ := hcensus c hcounts hbalance
  refine ⟨hpipe ▸ h.ok, ?_, fun e => ?_, hpolls, c', hcounts', hrefs, fun e => ?_, ?_, ?_, ?_, ?_, ?_⟩
  · rw [bytesRead_concat, bytesAccepted_concat, hout, hinto, append_nil, append_nil, hpipe]
    exact h.flow
  · rw [hpipe, h.closedIn, closedIn_concat]
    exact ⟨.inl, fun h => h.resolve_right fun ⟨t, h⟩ => hevent t e h⟩
  · rw [hpipe, hwaits]
    exact hbalance.waiters e
  · rw [hpipe]
    exact hbalance.active
  · rw [hpipe]
    exact hended
  · rw [hpipe]
    exact hbalance.keepers
  · rw [hpipe]
    exact hbalance.freed
  · rw [hpipe, timesFreed_concat, ← hbalance.frees, ← hfrees, Nat.add_assoc]

theorem PipeInv.retained (h : PipeInv tr s) (hpipe : s'.pipe = s.pipe) (hout : ev.out = [])
    (hinto : ev.into = []) (hevent : ev.isFree = false ∧ ∀ t e, ev ≠ .close t e)
    (hrefs : s'.refs = update s.refs e (s.refs e + 1)) (hopen : s.refs e ≠ 0)
    (hwhere : s'.phase = s.phase ∧ s'.slots = update s.slots e (s.slots e + 1) ∨ s'.slots =
      s.slots ∧ ∃ t, s.phase t = .away ∧ s'.phase = update s.phase t (.holding e)) :
    PipeInv (tr ++ [ev]) s' := by
  refine h.filed hpipe hout hinto hevent.2 (fun t' e' => ?_) fun c hcounts hbalance => ?_
  · rcases hwhere with ⟨hphase, -⟩ | ⟨-, t, -, hphase⟩
    · rw [hphase]
      exact h.polls t' e'
    · rw [hphase]
      exact polls_setPhase (p := .holding e) h.polls t (fun _ h => nomatch h) t' e'
  have hended : ∀ e', (if s'.refs e' = 0 then 1 else 0) = if s.refs e' = 0 then 1 else 0 := by
    intro e'
    rw [hrefs]
    by_cases he : e' = e
    · rw [he, update_self, if_neg hopen, if_neg (Nat.succ_ne_zero _)]
    · rw [update_of_ne he]
  rcases hwhere with ⟨hphase, hslots⟩ | ⟨hslots, t, hold, hphase⟩
  · refine ⟨c, hphase ▸ hcounts, fun e' => ?_, fun _ => rfl,
      fun e' => (hended e').trans (hbalance.ended e'), by rw [hevent.1]; exact Nat.zero_add _⟩
    have := hbalance.refs e'
    rw [hrefs, hslots]
    by_cases he : e' = e
    · subst he
      rw [update_self, update_self]
      omega
    · rw [update_of_ne he, update_of_ne he]
      exact this
  · refine ⟨_, hphase ▸ hcounts.move t (.holding e), fun e' => ?_, fun e' => ?_, fun e' => ?_, ?_⟩
    · have := hbalance.refs e'
      show _ = _ + (c.has e' + (e == e').toNat - ((s.phase t).has e').toNat)
      rw [hrefs, hslots, hold]
      by_cases he : e' = e
      · subst he
        rw [update_self, beq_self_eq_true]
        show _ = _ + (_ + 1 - 0)
        omega
      · rw [update_of_ne he, beq_false_of_ne (Ne.symm he)]
        exact this
    · show c.waits e' + 0 - ((s.phase t).waitsAt e').toNat = _
      rw [hold]
      rfl
    · rw [hended, hbalance.ended]
      show _ = c.closes e' + 0 - ((s.phase t).closes e').toNat + _
      rw [hold]
      rfl
    · rw [hevent.1, hold]
      exact Nat.zero_add _

theorem PipeInv.fdClosed (h : PipeInv tr s) (t : T) {slots : VprocInprocEnd → Nat}
    (hout : ev.out = []) (hinto : ev.into = [])
    (hevent : ev.isFree = false ∧ ∀ t e, ev ≠ .close t e)
    (hwhere : s.phase t = .holding e ∧ slots = s.slots ∨ s.phase t = .away ∧ 0 < s.slots e ∧ slots =
      update s.slots e (s.slots e - 1)) :
    PipeInv (tr ++ [ev]) (PipeWorld.pscalFdClose { s with slots := slots } t e) := by
  generalize hp : (if s.refs e - 1 = 0 then closing e else .away) = p
  have hcases : s.refs e - 1 = 0 ∧ p = .closing e ∨ s.refs e - 1 ≠ 0 ∧ p = .away := by
    by_cases hlast : s.refs e - 1 = 0
    · exact .inl ⟨hlast, by rw [← hp, if_pos hlast]⟩
    · exact .inr ⟨hlast, by rw [← hp, if_neg hlast]⟩
  have hphase : (PipeWorld.pscalFdClose { s with slots := slots } t e).phase =
      update s.phase t p := by
    rw [← hp]
    rfl
  have hnew : (∀ e', p.has e' = false) ∧ (∀ e', p.waitsAt e' = false) ∧ p.frees = false := by
    rcases hcases with ⟨-, rfl⟩ | ⟨-, rfl⟩ <;> exact ⟨fun _ => rfl, fun _ => rfl, rfl⟩
  have hold : (∀ e', (s.phase t).waitsAt e' = false) ∧ (∀ e', (s.phase t).closes e' = false) ∧
      (s.phase t).frees = false := by
    rcases hwhere with ⟨hwas, -⟩ | ⟨hwas, -⟩ <;> rw [hwas] <;>
      exact ⟨fun _ => rfl, fun _ => rfl, rfl⟩
  have hslots : ∀ e', s.slots e' + ((s.phase t).has e').toNat =
      slots e' + if e' = e then 1 else 0 := by
    intro e'
    rcases hwhere with ⟨hwas, rfl⟩ | ⟨hwas, hpos, rfl⟩
    · rw [hwas]
      by_cases he : e' = e
      · rw [he, if_pos rfl]
        show _ + (e == e).toNat = _
        rw [beq_self_eq_true]
        rfl
      · rw [if_neg he]
        show _ + (e == e').toNat = _
        rw [beq_false_of_ne (Ne.symm he)]
        rfl
    · rw [hwas]
      show s.slots e' + 0 = _
      by_cases he : e' = e
      · rw [he, update_self, if_pos rfl]
        omega
      · rw [update_of_ne he, if_neg he]
  refine h.filed rfl hout hinto hevent.2 (fun t' e' => ?_) fun c hcounts hbalance => ?_
  · rw [hphase]
    refine polls_setPhase h.polls t (fun e'' => ?_) t' e'
    rcases hcases with ⟨-, rfl⟩ | ⟨-, rfl⟩ <;> exact fun h => nomatch h
  have hrefs := hbalance.refs
  have hle := (hcounts.le t).1
  refine ⟨_, hphase ▸ hcounts.move t p, fun e' => ?_, fun e' => ?_, fun e' => ?_, ?_⟩
  · have hrefs := hrefs e'
    have hle := hle e'
    have hslots := hslots e'
    show update s.refs e (s.refs e - 1) e' =
      slots e' + (c.has e' + (p.has e').toNat - ((s.phase t).has e').toNat)
    rw [hnew.1, Bool.toNat_false]
    by_cases he : e' = e
    · subst he
      rw [update_self]
      rw [if_pos rfl] at hslots
      omega
    · rw [update_of_ne he]
      rw [if_neg he] at hslots
      omega
  · show c.waits e' + (p.waitsAt e').toNat - ((s.phase t).waitsAt e').toNat = c.waits e'
    rw [hnew.2.1, hold.1]
    rfl
  · have hended := hbalance.ended e'
    show (if update s.refs e (s.refs e - 1) e' = 0 then 1 else 0) =
      c.closes e' + (p.closes e').toNat - ((s.phase t).closes e').toNat + _
    rw [hold.2.1, Bool.toNat_false, Nat.sub_zero]
    by_cases he : e' = e
    · subst he
      have hrefs := hrefs e'
      have hle := hle e'
      have hslots := hslots e'
      rw [if_pos rfl] at hslots
      rw [if_neg (by omega)] at hended
      rw [update_self]
      rcases hcases with ⟨hlast, rfl⟩ | ⟨hlast, rfl⟩
      · rw [if_pos hlast]
        show 1 = c.closes e' + (e' == e').toNat + _
        rw [beq_self_eq_true, Bool.toNat_true]
        omega
      · rw [if_neg hlast]
        exact hended
    · have hcloses : p.closes e' = false := by
        rcases hcases with ⟨-, rfl⟩ | ⟨-, rfl⟩
        · exact beq_false_of_ne (Ne.symm he)
        · rfl
      rw [update_of_ne he, hcloses]
      exact hended
  · show _ + (c.frees + p.frees.toNat - (s.phase t).frees.toNat) = _
    rw [hevent.1, hnew.2.2, hold.2.2]
    exact Nat.zero_add _

theorem PipeInv.census_closed (hcounts : c.Counts s.phase)
    (hrefs : ∀ e, s.refs e = s.slots e + c.has e) (hzero : ∀ e, s.refs e = 0) :
    ∀ e, c.waits e = 0 := by
  intro e
  refine (hcounts.waits e).eq_zero fun t hwaits => ?_
  have hnone := (show Tally _ s.phase 0 from (show c.has e = 0 by
    have := hrefs e
    have := hzero e
    omega) ▸ hcounts.has e).none t
  cases hphase : s.phase t with
  | waiting op =>
    rw [hphase] at hwaits hnone
    exact hnone hwaits
  | away | holding _ | calling _ | freeing _ | closing _ =>
    rw [hphase] at hwaits
    exact absurd hwaits Bool.false_ne_true

theorem PipeInv.closes (h : PipeInv tr s) (t : T) (hphase : s.phase t = .closing e) :
    PipeInv (tr ++ [.close t e]) (s.settled t none (s.pipe.vprocInprocPipeClose e)) := by
  obtain ⟨c, hcounts, hbalance⟩ := h.balance
  have hpos : 1 ≤ c.closes e := by
    have := (hcounts.le t).2.2.1 e
    rw [hphase] at this
    have hself : (closing e).closes e = true := beq_self_eq_true e
    rwa [hself] at this
  have hended := hbalance.ended
  have hopen : s.pipe.closed e = false ∧ s.refs e = 0 ∧ c.closes e = 1 := by
    have := hended e
    split at this
    · next hzero =>
      cases hclosed : s.pipe.closed e with
      | false => exact ⟨rfl, hzero, by rw [hclosed] at this; exact this.symm⟩
      | true => rw [hclosed, Bool.toNat_true] at this; omega
    · omega
  obtain ⟨hopen, hzero, hone⟩ := hopen
  have hfreed : s.pipe.freed = false := by
    rw [hbalance.freed]
    cases e with
    | reader => rw [show s.pipe.readClosed = false from hopen]; rfl
    | writer => rw [show s.pipe.writeClosed = false from hopen, Bool.and_false]
  -- the pipe with its end closed, before it is looked at for the last time
  obtain ⟨q, hclose, hq⟩ : ∃ q : VprocInprocPipe,
      s.pipe.vprocInprocPipeClose e = q.vprocInprocPipeShouldDestroy ∧
      q.Ok ∧ q.contents = s.pipe.contents ∧ (∀ e', q.waiters e' = s.pipe.waiters e') ∧
      q.activeOps = s.pipe.activeOps ∧ q.freed = s.pipe.freed ∧
      (∀ e', q.closed e' = (s.pipe.closed e' || e == e')) ∧
      ∀ e', q.keepers e' = if q.closed e' then 0 else 1 := by
    have hok := h.ok
    have hkeepers := hbalance.keepers
    have hkeep : s.pipe.keepers e = 1 := by rw [hkeepers, hopen]; rfl
    cases e with
    | reader =>
      have hreaders : s.pipe.readers = 1 := hkeep
      refine ⟨_, rfl, ⟨hok.length, hok.pos, hok.head, hok.tail, hok.count⟩, rfl,
        fun e' => by cases e' <;> rfl, rfl, rfl, fun e' => ?_, fun e' => ?_⟩
      · cases e'
        · exact (Bool.or_true _).symm
        · exact (Bool.or_false _).symm
      · cases e'
        · show (if 0 < s.pipe.readers then s.pipe.readers - 1 else s.pipe.readers) = 0
          rw [hreaders]
          rfl
        · exact hkeepers .writer
    | writer =>
      have hwriters : s.pipe.writers = 1 := hkeep
      refine ⟨_, rfl, ⟨hok.length, hok.pos, hok.head, hok.tail, hok.count⟩, rfl,
        fun e' => by cases e' <;> rfl, rfl, rfl, fun e' => ?_, fun e' => ?_⟩
      · cases e'
        · exact (Bool.or_false _).symm
        · exact (Bool.or_true _).symm
      · cases e'
        · exact hkeepers .reader
        · show (if 0 < s.pipe.writers then s.pipe.writers - 1 else s.pipe.writers) = 0
          rw [hwriters]
          rfl
  obtain ⟨hok, hcontents, hwaiters, hactive, hqfreed, hclosed, hkeepers⟩ := hq
  have hself : q.closed e = true := by rw [hclosed, beq_self_eq_true, Bool.or_true]
  -- it is to be freed exactly when both ends are closed
  have hdestroy : q.vprocInprocPipeShouldDestroy = (q.readClosed && q.writeClosed,
      { q with freed := q.readClosed && q.writeClosed }) := by
    unfold vprocInprocPipeShouldDestroy
    rw [if_neg (by rw [hqfreed, hfreed]; exact Bool.false_ne_true)]
    cases hboth : q.readClosed && q.writeClosed with
    | false =>
      rw [Bool.false_and, Bool.false_and, Bool.false_and, Bool.false_and, Bool.false_and]
      have hstay : q = { q with freed := false } := by rw [← hfreed, ← hqfreed]
      exact congrArg (false, ·) hstay
    | true =>
      obtain ⟨hread, hwrite⟩ := Bool.and_eq_true_iff.mp hboth
      have hrefs : ∀ e', s.refs e' = 0 := by
        intro e'
        by_cases he : e' = e
        · rw [he]
          exact hzero
        · have hclosed' : s.pipe.closed e' = true := by
            have := hclosed e'
            rw [beq_false_of_ne (Ne.symm he), Bool.or_false] at this
            rw [← this]
            cases e' <;> assumption
          by_contra hne
          have := hended e'
          rw [if_neg hne, hclosed', Bool.toNat_true] at this
          omega
      have hnone := PipeInv.census_closed hcounts hbalance.refs hrefs
      have hwaitReaders : q.waitReaders = 0 := by
        rw [show q.waitReaders = s.pipe.waiters .reader from hwaiters .reader,
          hbalance.waiters, hnone]
        rfl
      have hwaitWriters : q.waitWriters = 0 := by
        rw [show q.waitWriters = s.pipe.waiters .writer from hwaiters .writer,
          hbalance.waiters, hnone]
        rfl
      have hactive' : q.activeOps = 0 := by
        rw [hactive, hbalance.active,
          show s.pipe.waitReaders = q.waitReaders from (hwaiters .reader).symm,
          show s.pipe.waitWriters = q.waitWriters from (hwaiters .writer).symm, hwaitReaders,
          hwaitWriters]
        rfl
      have hreaders : q.readers = 0 := by
        have := hkeepers .reader
        rwa [show q.closed .reader = true from hread] at this
      have hwriters : q.writers = 0 := by
        have := hkeepers .writer
        rwa [show q.closed .writer = true from hwrite] at this
      rw [hwaitReaders, hwaitWriters, hactive', hreaders, hwriters]
      rfl
  rw [hclose, hdestroy]
  generalize hp : (if q.readClosed && q.writeClosed then freeing none else .away) = p
  have hworld : s.settled t none (q.readClosed && q.writeClosed,
      { q with freed := q.readClosed && q.writeClosed }) =
      (s.setPipe { q with freed := q.readClosed && q.writeClosed }).setPhase t p := by
    rw [← hp]
    rfl
  have hnew : (∀ e', p.has e' = false) ∧ (∀ e', p.waitsAt e' = false) ∧
      (∀ e', p.closes e' = false) ∧ p.frees = (q.readClosed && q.writeClosed) := by
    rw [← hp]
    cases q.readClosed && q.writeClosed <;>
      exact ⟨fun _ => rfl, fun _ => rfl, fun _ => rfl, rfl⟩
  rw [hworld]
  refine ⟨⟨hok.length, hok.pos, hok.head, hok.tail, hok.count⟩, ?_, fun e' => ?_,
    polls_setPhase h.polls t fun e' => ?_, _, hcounts.move t p, fun e' => ?_, fun e' => ?_, ?_,
    fun e' => ?_, fun e' => ?_, rfl, ?_⟩
  · rw [bytesRead_concat, bytesAccepted_concat]
    show bytesRead tr ++ [] ++ q.contents = bytesAccepted tr ++ []
    rw [append_nil, append_nil, hcontents]
    exact h.flow
  · rw [closedIn_concat, ← h.closedIn]
    show closed { q with freed := q.readClosed && q.writeClosed } e' = true ↔ _
    rw [(q.setFreed_end _ e').1, hclosed, Bool.or_eq_true, beq_iff_eq]
    refine or_congr Iff.rfl ⟨fun he => ⟨t, by rw [he]⟩, ?_⟩
    rintro ⟨t', ht'⟩
    exact (PipeEvent.close.inj ht').2
  · rw [← hp]
    split <;> exact fun h => nomatch h
  · show s.refs e' = s.slots e' + (c.has e' + (p.has e').toNat - ((s.phase t).has e').toNat)
    rw [hnew.1, hphase]
    exact hbalance.refs e'
  · show waiters { q with freed := q.readClosed && q.writeClosed } e' =
      ((c.waits e' + (p.waitsAt e').toNat - ((s.phase t).waitsAt e').toNat : Nat) : Int)
    rw [(q.setFreed_end _ e').2.2, hwaiters, hnew.2.1, hphase]
    exact hbalance.waiters e'
  · show q.activeOps = q.waitReaders + q.waitWriters
    rw [hactive, show q.waitReaders = s.pipe.waitReaders from hwaiters .reader,
      show q.waitWriters = s.pipe.waitWriters from hwaiters .writer]
    exact hbalance.active
  · show (if s.refs e' = 0 then 1 else 0) = c.closes e' + (p.closes e').toNat -
      ((s.phase t).closes e').toNat +
      (closed { q with freed := q.readClosed && q.writeClosed } e').toNat
    rw [(q.setFreed_end _ e').1, hnew.2.2.1, hphase, hended]
    by_cases he : e' = e
    · rw [he, hself, hone, hopen]
      show 1 + 0 = 1 + 0 - (e == e).toNat + 1
      rw [beq_self_eq_true]
      rfl
    · rw [hclosed, beq_false_of_ne (Ne.symm he), Bool.or_false]
      show _ = _ + 0 - (e == e').toNat + _
      rw [beq_false_of_ne (Ne.symm he)]
      rfl
  · show keepers { q with freed := q.readClosed && q.writeClosed } e' =
      if closed { q with freed := q.readClosed && q.writeClosed } e' then 0 else 1
    rw [(q.setFreed_end _ e').1, (q.setFreed_end _ e').2.1]
    exact hkeepers e'
  · have hfrees := hbalance.frees
    rw [hfreed, Bool.toNat_false] at hfrees
    show timesFreed (tr ++ [_]) + (c.frees + p.frees.toNat - (s.phase t).frees.toNat) =
      (q.readClosed && q.writeClosed).toNat
    rw [timesFreed_concat, hnew.2.2.2, hphase]
    show timesFreed tr + 0 + (c.frees + _ - 0) = _
    omega

theorem PipeInv.step {s' : PipeWorld T} {ev : PipeEvent T} (h : PipeInv tr s)
    (hstep : PipeStep s ev s') : PipeInv (tr ++ [ev]) s' := by
  cases hstep with
  | keep e href =>
    obtain ⟨c, hcounts, hbalance⟩ := h.balance
    have hopen : s.refs e ≠ 0 := by
      have hrefs := hbalance.refs e
      rcases href with hslot | ⟨t, hphase⟩
      · omega
      · have := (hcounts.has e).pos (i := t) (by rw [hphase]; exact beq_self_eq_true e)
        omega
    exact h.retained (e := e) rfl rfl rfl ⟨rfl, fun _ _ h => nomatch h⟩ rfl hopen (.inl ⟨rfl, rfl⟩)
  | take t e hphase hslot =>
    obtain ⟨c, hcounts, hbalance⟩ := h.balance
    have hopen : s.refs e ≠ 0 := by
      have hrefs := hbalance.refs e
      omega
    exact h.retained (e := e) rfl rfl rfl ⟨rfl, fun _ _ h => nomatch h⟩ rfl hopen
      (.inr ⟨rfl, t, hphase, rfl⟩)
  | drop t hphase =>
    exact h.fdClosed t rfl rfl ⟨rfl, fun _ _ h => nomatch h⟩ (.inl ⟨hphase, rfl⟩)
  | dropSlot t e hphase hslot =>
    exact h.fdClosed t rfl rfl ⟨rfl, fun _ _ h => nomatch h⟩ (.inr ⟨hphase, hslot, rfl⟩)
  | call t op hphase =>
    refine h.filed rfl rfl rfl (fun _ _ h => nomatch h)
      (polls_setPhase (p := .calling op) h.polls t fun _ h => nomatch h)
      fun c hcounts hbalance => ⟨_, hcounts.move t _, fun e => ?_, fun e => ?_, fun e => ?_, ?_⟩
    · show s.refs e = s.slots e + (c.has e + (op.side == e).toNat - ((s.phase t).has e).toNat)
      rw [hphase]
      show _ = _ + (_ + (op.side == e).toNat - (op.side == e).toNat)
      rw [Nat.add_sub_cancel]
      exact hbalance.refs e
    · show c.waits e + 0 - ((s.phase t).waitsAt e).toNat = _
      rw [hphase]
      rfl
    · show _ = c.closes e + 0 - ((s.phase t).closes e).toNat + _
      rw [hphase]
      exact hbalance.ended e
    · show 0 + (c.frees + 0 - (s.phase t).frees.toNat) = _
      rw [hphase]
      exact Nat.zero_add _
  | @enter t op nonblocking hphase =>
    have hopen : s.pipe.closed op.side = false :=
      h.open_of_has (t := t) (by rw [hphase]; exact beq_self_eq_true op.side)
    obtain ⟨hkeeps, heffect⟩ := op.enter_effect h.ok hopen nonblocking
    refine h.turned t rfl rfl ⟨rfl, fun _ _ h => nomatch h⟩ (.inl ⟨hphase, rfl⟩) ?_ hkeeps heffect
    rintro hresult e rfl
    cases hresult
  | @again t op nonblocking interrupted hphase =>
    have hopen : s.pipe.closed op.side = false :=
      h.open_of_has (t := t) (by rw [hphase]; exact beq_self_eq_true op.side)
    have hpoll : ∀ e, op ≠ .poll e := fun e hop => h.polls t e (hop ▸ hphase)
    obtain ⟨hkeeps, heffect⟩ := op.again_effect h.ok hopen hpoll nonblocking interrupted
    exact h.turned t rfl rfl ⟨rfl, fun _ _ h => nomatch h⟩ (.inr ⟨hphase, rfl⟩)
      (fun _ => hpoll) hkeeps heffect
  | @cancel t op hphase =>
    have hopen : s.pipe.closed op.side = false :=
      h.open_of_has (t := t) (by rw [hphase]; exact beq_self_eq_true op.side)
    have hboth : ((s.pipe.addWaiters op.side (-1)).readClosed &&
        (s.pipe.addWaiters op.side (-1)).writeClosed) = false := by
      cases hside : op.side <;> rw [hside] at hopen
      · rw [show (s.pipe.addWaiters .reader (-1)).readClosed = false from hopen]
        rfl
      · rw [show (s.pipe.addWaiters .writer (-1)).writeClosed = false from hopen, Bool.and_false]
    -- the handler does what the exit of an interrupted call does
    have hout : op.out (some .eintr) = [] := by cases op <;> rfl
    have hinto : op.into (some .eintr) = [] := by cases op <;> rfl
    obtain ⟨hkeeps, heffect⟩ := @VprocInprocPipe.leave_effect _
      (addWaiters_ok h.ok op.side (-1)) hboth op _ hout hinto
      (fun _ _ _ h => nomatch h) fun _ h => nomatch h
    exact @PipeInv.turned T _ tr s h t op _
      ((s.pipe.addWaiters op.side (-1)).leave .eintr) (.cancel t) hout.symm hinto.symm
      ⟨rfl, fun _ _ h => (nomatch h)⟩ (.inr ⟨hphase, rfl⟩) (fun h => nomatch h) hkeeps heffect
  | close t hphase => exact h.closes t hphase
  | @free t next hphase =>
    have hhas : ∀ e, (after next).has e = (freeing next).has e := fun e => by
      cases next <;> rfl
    have hnot : (∀ e, (after next).waitsAt e = false) ∧
        (∀ e, (after next).closes e = false) ∧ (after next).frees = false := by
      cases next <;> exact ⟨fun _ => rfl, fun _ => rfl, rfl⟩
    refine h.filed rfl rfl rfl (fun _ _ h => nomatch h)
      (polls_setPhase (p := .after next) h.polls t fun e => ?_)
      fun c hcounts hbalance => ⟨_, hcounts.move t _, fun e => ?_, fun e => ?_, fun e => ?_, ?_⟩
    · cases next <;> exact fun h => nomatch h
    · show s.refs e = s.slots e +
        (c.has e + ((after next).has e).toNat - ((s.phase t).has e).toNat)
      rw [hphase, hhas, Nat.add_sub_cancel]
      exact hbalance.refs e
    · show c.waits e + _ - ((s.phase t).waitsAt e).toNat = _
      rw [hphase, hnot.1]
      rfl
    · show _ = c.closes e + ((after next).closes e).toNat -
        ((s.phase t).closes e).toNat + _
      rw [hphase, hnot.2.1]
      exact hbalance.ended e
    · have hle := (hcounts.le t).2.2.2
      rw [hphase] at hle
      have hle : 1 ≤ c.frees := hle
      show 1 + (c.frees + (after next).frees.toNat - (s.phase t).frees.toNat) = _
      rw [hphase, hnot.2.2]
      show 1 + (c.frees + 0 - 1) = _
      omega

theorem VprocInprocPipe.create_ok : VprocInprocPipe.create.Ok :=
  ⟨length_replicate, by decide, by decide, rfl, by decide⟩

theorem PipeInv.start : PipeInv [] (PipeWorld.start : PipeWorld T) where
  ok := VprocInprocPipe.create_ok
  flow := rfl
  closedIn := fun e => by
    cases e <;> exact ⟨fun h => (nomatch h), fun h => (nomatch h.choose_spec)⟩
  polls := fun _ _ h => nomatch h
  balance := ⟨⟨fun _ => 0, fun _ => 0, fun _ => 0, 0⟩,
    ⟨fun _ => Tally.of_none fun _ h => (nomatch h), fun _ => Tally.of_none fun _ h => (nomatch h),
      fun _ => Tally.of_none fun _ h => (nomatch h), Tally.of_none fun _ h => (nomatch h)⟩,
    fun _ => rfl, fun e => by cases e <;> rfl, rfl, fun e => by cases e <;> rfl,
    fun e => by cases e <;> rfl, rfl, rfl⟩

theorem PipeInv.of_run (h : Run PipeStep (PipeWorld.start : PipeWorld T) tr s) : PipeInv tr s :=
  h.invariant (I := PipeInv) .start fun _ _ _ _ hinv hstep => hinv.step hstep

/-! ## what holds of every run -/

theorem PipeInv.alone (h : PipeInv tr s) (hclosed : ∀ e, s.pipe.closed e = true) :
    (∀ t, s.phase t = .away) ∧ timesFreed tr = 1 ∨
      ∃ t, s.phase t = .freeing none ∧ ∀ t', t' ≠ t → s.phase t' = .away := by
  obtain ⟨c, hcounts, hbalance⟩ := h.balance
  have hzero : ∀ e, c.has e = 0 ∧ c.closes e = 0 := by
    intro e
    have hended := hbalance.ended e
    have hrefs := hbalance.refs e
    rw [hclosed, Bool.toNat_true] at hended
    split at hended <;> omega
  have hphase : ∀ t, s.phase t = .away ∨ s.phase t = .freeing none := by
    intro t
    have hhas : ∀ e, (s.phase t).has e ≠ true := fun e =>
      ((hzero e).1 ▸ hcounts.has e : Tally _ s.phase 0).none t
    have hcloses : ∀ e, (s.phase t).closes e ≠ true := fun e =>
      ((hzero e).2 ▸ hcounts.closes e : Tally _ s.phase 0).none t
    cases hp : s.phase t with
    | away => exact .inl rfl
    | holding e | freeing e =>
      rw [hp] at hhas
      first
        | exact absurd (beq_self_eq_true e) (hhas e)
        | cases e with
          | none => exact .inr rfl
          | some e => exact absurd (beq_self_eq_true e) (hhas e)
    | calling op | waiting op =>
      rw [hp] at hhas
      exact absurd (beq_self_eq_true op.side) (hhas op.side)
    | closing e =>
      rw [hp] at hcloses
      exact absurd (beq_self_eq_true e) (hcloses e)
  have hfrees := hbalance.frees
  rw [hbalance.freed, show s.pipe.readClosed = true from hclosed .reader,
    show s.pipe.writeClosed = true from hclosed .writer] at hfrees
  have hfrees : timesFreed tr + c.frees = 1 := hfrees
  by_cases hnone : c.frees = 0
  · refine .inl ⟨fun t => (hphase t).resolve_right fun hp => ?_, by omega⟩
    exact (hnone ▸ hcounts.frees : Tally _ s.phase 0).none t (by rw [hp]; rfl)
  · obtain ⟨t, ht, honly⟩ := (show c.frees = 1 by omega) ▸ hcounts.frees |>.one
    refine .inr ⟨t, (hphase t).resolve_left fun hp => ?_, fun t' ht' =>
      (hphase t').resolve_right fun hp => ht' (honly t' (by rw [hp]; rfl))⟩
    rw [hp] at ht
    cases ht

theorem PipeInv.locks_open (h : PipeInv tr s) (hstep : PipeStep s ev s') (hlocks : ev.locks = true)
    : ∃ e, s.pipe.closed e = false := by
  by_contra hnone
  have hclosed : ∀ e, s.pipe.closed e = true := fun e => by
    rw [← Bool.not_eq_false]
    exact fun hopen => hnone ⟨e, hopen⟩
  have hphase : ∀ t, s.phase t = .away ∨ s.phase t = .freeing none := by
    intro t
    rcases h.alone hclosed with ⟨haway, -⟩ | ⟨t', ht', haway⟩
    · exact .inl (haway t)
    · by_cases ht : t = t'
      · exact .inr (ht ▸ ht')
      · exact .inl (haway t ht)
  cases hstep with
  | enter t nonblocking hp | again t nonblocking interrupted hp | cancel t hp | close t hp =>
    rcases hphase t with h' | h' <;> cases h'.symm.trans hp
  | keep | take | drop | dropSlot | call | free => cases hlocks

theorem PipeInv.turn_facts {op : PipeOp} {result : Option PipeResult} (h : PipeInv tr s)
    (hstep : PipeStep s (.turn t op result) s') : s.pipe.closed op.side = false ∧
      (∀ size, op = .read size → 0 < size → result = some (.bytes []) →
        s.pipe.contents = [] ∧ s.pipe.closed .writer = true) ∧
      ∀ n, result = some (.taken n) → op.side = .writer ∧ s.pipe.closed .reader = false := by
  generalize hev : PipeEvent.turn t op result = ev at hstep
  cases hstep with
  | enter t nonblocking hphase =>
    obtain ⟨rfl, rfl, rfl⟩ := PipeEvent.turn.inj hev
    have hopen : s.pipe.closed op.side = false :=
      h.open_of_has (t := t) (by rw [hphase]; exact beq_self_eq_true op.side)
    obtain ⟨-, heffect⟩ := op.enter_effect h.ok hopen nonblocking
    exact ⟨hopen, heffect.eof, heffect.taken⟩
  | again t nonblocking interrupted hphase =>
    obtain ⟨rfl, rfl, rfl⟩ := PipeEvent.turn.inj hev
    have hopen : s.pipe.closed op.side = false :=
      h.open_of_has (t := t) (by rw [hphase]; exact beq_self_eq_true op.side)
    obtain ⟨-, heffect⟩ := op.again_effect h.ok hopen (fun e hop => h.polls t e (hop ▸ hphase))
      nonblocking interrupted
    have hcontents : (s.pipe.addWaiters op.side (-1)).contents = s.pipe.contents := by
      cases op.side <;> rfl
    have hclosed : ∀ e, (s.pipe.addWaiters op.side (-1)).closed e = s.pipe.closed e := fun e => by
      cases op.side <;> cases e <;> rfl
    refine ⟨hopen, ?_, ?_⟩
    · rw [← hcontents, ← hclosed]
      exact heffect.eof
    · rw [← hclosed]
      exact heffect.taken
  | keep | take | drop | dropSlot | call | cancel | close | free => cases hev

theorem PipeEvent.into_cases (ev : PipeEvent T) :
    ev.into = [] ∨ ∃ t bytes size, ev = .turn t (.write bytes) (some (.taken size)) := by
  cases ev with
  | turn t op result =>
    cases op with
    | write bytes =>
      cases result with
      | none => exact .inl rfl
      | some result =>
        cases result with
        | taken size => exact .inr ⟨t, bytes, size, rfl⟩
        | bytes | events | eagain | eintr | epipe => exact .inl rfl
    | read | poll => exact .inl rfl
  | keep | take | drop | dropSlot | call | cancel | close | free => exact .inl rfl

theorem PipeInv.free_facts (h : PipeInv tr s) (hstep : PipeStep s (.free t) s') :
    (∀ e, s.pipe.closed e = true) ∧ ∀ t', t' ≠ t → s.phase t' = .away := by
  cases hstep with
  | @free _ next hphase =>
    obtain ⟨c, hcounts, hbalance⟩ := h.balance
    have hpos := hcounts.frees.pos (i := t) (by rw [hphase]; rfl)
    have hfrees := hbalance.frees
    have hfreed : s.pipe.freed = true := by
      rw [← Bool.not_eq_false]
      intro hfreed
      rw [hfreed, Bool.toNat_false] at hfrees
      omega
    rw [hbalance.freed] at hfreed
    obtain ⟨hread, hwrite⟩ := Bool.and_eq_true_iff.mp hfreed
    have hclosed : ∀ e, s.pipe.closed e = true := fun e => by cases e <;> assumption
    refine ⟨hclosed, ?_⟩
    rcases h.alone hclosed with ⟨haway, -⟩ | ⟨t', -, haway⟩
    · exact fun t' _ => haway t'
    · obtain rfl : t = t' := by
        by_contra hne
        cases (haway t hne).symm.trans hphase
      exact haway

/-- whatever any number of calls do at the two ends -/
theorem inprocPipe_run (h : Run PipeStep (PipeWorld.start : PipeWorld T) tr s) :
    bytesRead tr <+: bytesAccepted tr ∧ s.pipe.count ≤ s.pipe.cap ∧
    (∀ tr₁ t size tr₂, tr = tr₁ ++ .turn t (.read size) (some (.bytes [])) :: tr₂ → 0 < size →
      ClosedIn tr₁ .writer ∧ bytesRead tr₁ = bytesAccepted tr) ∧
    (∀ tr₁ t bytes size tr₂, tr = tr₁ ++ .turn t (.write bytes) (some (.taken size)) :: tr₂ →
      ∀ e, ¬ClosedIn tr₁ e) ∧
    timesFreed tr ≤ 1 ∧ (∀ tr₁ t tr₂, tr = tr₁ ++ .free t :: tr₂ → (∀ e, ClosedIn tr₁ e) ∧
      (∀ s₁ s₂, Run PipeStep .start tr₁ s₁ → PipeStep s₁ (.free t) s₂ →
        ∀ t', t' ≠ t → s₁.phase t' = .away) ∧
      ∀ ev ∈ tr₂, ev.locks = false) ∧
    ((∀ e, ClosedIn tr e) → (∀ t, s.phase t = .away) ∧ timesFreed tr = 1 ∨
      ∃ t, s.phase t = .freeing none ∧ ∀ t', t' ≠ t → s.phase t' = .away) := by
  have hinv := PipeInv.of_run h
  have htaken : ∀ tr₁ t bytes size tr₂,
      tr = tr₁ ++ .turn t (.write bytes) (some (.taken size)) :: tr₂ → ∀ e, ¬ClosedIn tr₁ e := by
    rintro tr₁ t bytes size tr₂ rfl e hclosed
    obtain ⟨s₁, s₂, hrun, hstep, -⟩ := h.at
    have hinv₁ := PipeInv.of_run hrun
    obtain ⟨hwriter, -, htaken⟩ := hinv₁.turn_facts hstep
    have hopen : s₁.pipe.closed e = false := by
      cases e with
      | reader => exact (htaken size rfl).2
      | writer => exact hwriter
    rw [(hinv₁.closedIn e).mpr hclosed] at hopen
    cases hopen
  refine ⟨⟨_, hinv.flow⟩, hinv.ok.count, ?_, htaken, ?_, ?_, ?_⟩
  · rintro tr₁ t size tr₂ htr hsize
    obtain ⟨s₁, s₂, hrun, hstep, -⟩ := (htr ▸ h).at
    have hinv₁ := PipeInv.of_run hrun
    obtain ⟨hempty, hclosed⟩ := (hinv₁.turn_facts hstep).2.1 size rfl hsize rfl
    have hclosed := (hinv₁.closedIn .writer).mp hclosed
    refine ⟨hclosed, ?_⟩
    have hflow := hinv₁.flow
    rw [hempty, append_nil] at hflow
    -- nothing is accepted from here on
    have hrest : bytesAccepted (.turn t (.read size) (some (.bytes [])) :: tr₂) = [] := by
      refine flatMap_eq_nil_iff.mpr fun ev hev => ?_
      obtain ⟨before, after, hsplit⟩ := append_of_mem hev
      have hhere : tr = (tr₁ ++ before) ++ ev :: after := by
        rw [htr, hsplit, append_assoc]
      have hstill : ClosedIn (tr₁ ++ before) .writer := by
        obtain ⟨t', ht'⟩ := hclosed
        exact ⟨t', mem_append_left _ ht'⟩
      rcases ev.into_cases with hnone | ⟨t', bytes, n, rfl⟩
      · exact hnone
      · exact absurd hstill (htaken _ _ _ _ _ hhere .writer)
    rw [htr, bytesAccepted, flatMap_append]
    show _ = bytesAccepted tr₁ ++ bytesAccepted (_ :: tr₂)
    rw [hrest, append_nil]
    exact hflow
  · obtain ⟨c, -, hbalance⟩ := hinv.balance
    have hfrees := hbalance.frees
    have := Bool.toNat_le s.pipe.freed
    omega
  · rintro tr₁ t tr₂ rfl
    obtain ⟨s₁, s₂, hrun, hstep, hrun'⟩ := h.at
    have hinv₁ := PipeInv.of_run hrun
    have hclosed := (hinv₁.free_facts hstep).1
    have hclosedIn : ∀ e, ClosedIn tr₁ e := fun e => (hinv₁.closedIn e).mp (hclosed e)
    refine ⟨hclosedIn, fun s₃ s₄ hrun₃ hstep₃ => ((PipeInv.of_run hrun₃).free_facts hstep₃).2,
      fun ev hev => ?_⟩
    · rw [← Bool.not_eq_true]
      intro hlocks
      obtain ⟨before, after, rfl⟩ := append_of_mem hev
      have hhere : tr₁ ++ PipeEvent.free t :: (before ++ ev :: after) =
          (tr₁ ++ .free t :: before) ++ ev :: after := by
        rw [append_assoc]
        rfl
      obtain ⟨s₃, s₄, hrun₃, hstep₃, -⟩ := (hhere ▸ h).at
      have hinv₃ := PipeInv.of_run hrun₃
      obtain ⟨e, hopen⟩ := hinv₃.locks_open hstep₃ hlocks
      obtain ⟨t', ht'⟩ := hclosedIn e
      rw [(hinv₃.closedIn e).mpr ⟨t', mem_append_left _ ht'⟩] at hopen
      cases hopen
  · exact fun hclosed => hinv.alone fun e => (hinv.closedIn e).mpr (hclosed e)

end

/-- a byte is written and read, and both ends are closed -/
theorem inprocPipe_run_byte : ∃ (tr : List (PipeEvent Unit)) (s : PipeWorld Unit),
    Run PipeStep .start tr s ∧ bytesRead tr = [7] ∧ bytesRead tr <+: bytesAccepted tr ∧
      timesFreed tr = 1 ∧ timesFreed tr ≤ 1 := by
  have hwrite : ∃ s : PipeWorld Unit, Run PipeStep .start [.take () .writer,
      .call () (.write [7]), .turn () (.write [7]) (some (.taken 1)), .drop (),
      .take () .reader, .call () (.read 1), .turn () (.read 1) (some (.bytes [7])), .drop (),
      .dropSlot () .writer, .close () .writer, .dropSlot () .reader, .close () .reader,
      .free ()] s :=
    ⟨_, ((((((((((((Run.start.next (.take () .writer rfl Nat.one_pos)).next
      (.call () (.write [7]) rfl)).next (.enter () true rfl)).next (.drop () rfl)).next
      (.take () .reader rfl Nat.one_pos)).next (.call () (.read 1) rfl)).next
      (.enter () true rfl)).next (.drop () rfl)).next
      (.dropSlot () .writer rfl Nat.one_pos)).next (.close () rfl)).next
      (.dropSlot () .reader rfl Nat.one_pos)).next (.close () rfl)).next (.free () rfl)⟩
  obtain ⟨s, hrun⟩ := hwrite
  exact ⟨_, s, hrun, rfl, (inprocPipe_run hrun).1, rfl, (inprocPipe_run hrun).2.2.2.2.1⟩

end Pscal
