import Pscal.VM.Channel
import Mathlib

/-!
# What a channel guarantees

* `ChannelEffect`  what a critical section can do;
* `sentOf`, `receivedOf`, `failedOf`, `offeredOf`  the values of a run;
* `ChannelInv`  what holds after every run;
* `channel_safe`  first in first out, the capacity, the close, and who owns each value.
-/

namespace Pscal

open Transitions List Option ChannelObj

/-! ## one critical section -/

def ChannelPhase.held : ChannelPhase → Option Value
  | .send _ value | .sendPoll value | .sendWait _ value | .sendWoken _ value _
  | .trySend value => some value
  | _ => none

inductive ChannelEffect (ch : ChannelObj) (p : ChannelPhase) : ChannelSection → Prop where
  | deposit {value : Value} (hheld : p.held = some value) (hopen : ch.closed = false)
      (hroom : ch.count < ch.capacity) : ChannelEffect ch p (ch.deposit value)
  | sendFail {value : Value} (hheld : p.held = some value) (status : VmChannelStatus) :
      ChannelEffect ch p (ch.sendFail value status)
  | withdraw (hheld : p.held = none) (hcount : ch.count ≠ 0) (out : Bool) :
      ChannelEffect ch p (ch.withdraw out)
  | receiveFail (hheld : p.held = none) {status : VmChannelStatus}
      (hclosed : status = .closed → ch.closed = true ∧ ch.count = 0) :
      ChannelEffect ch p (ch.receiveFail status)
  | close (hheld : p.held = none) : ChannelEffect ch p ch.close
  | unlock {p' : ChannelPhase} (hheld : p'.held = p.held) :
      ChannelEffect ch p { channel := ch, phase := p', event := .unlock }

section
variable {ch : ChannelObj} {p : ChannelPhase}

theorem sendLoop_effect {value : Value} (h : p.held = some value) (vm : Bool) :
    ChannelEffect ch p (ch.sendLoop vm value) := by
  rw [sendLoop]
  by_cases hwait : ch.count ≥ ch.capacity ∧ ch.closed = false
  · rw [if_pos hwait]
    refine .unlock ?_
    cases vm <;> exact h.symm
  rw [if_neg hwait]
  by_cases hclosed : ch.closed = true
  · rw [if_pos hclosed]
    exact .sendFail h .closed
  · have hopen : ch.closed = false := by simpa using hclosed
    rw [if_neg hclosed]
    exact .deposit h hopen (Nat.lt_of_not_le fun hle => hwait ⟨hle, hopen⟩)

theorem receiveLoop_effect (h : p.held = none) (vm out : Bool) :
    ChannelEffect ch p (ch.receiveLoop vm out) := by
  rw [receiveLoop]
  by_cases hwait : ch.count = 0 ∧ ch.closed = false
  · rw [if_pos hwait]
    refine .unlock ?_
    cases vm <;> exact h.symm
  rw [if_neg hwait]
  by_cases hempty : ch.count = 0
  · rw [if_pos hempty]
    refine .receiveFail h fun _ => ⟨?_, hempty⟩
    by_contra hopen
    exact hwait ⟨hempty, by simpa using hopen⟩
  · rw [if_neg hempty]
    exact .withdraw h hempty out

theorem critical_effect {interrupted : Bool} {s : ChannelSection}
    (h : p.critical ch interrupted = some s) : ChannelEffect ch p s := by
  cases p with
  | idle | sendWait | receiveWait => cases h
  | send vm value =>
    cases h
    exact sendLoop_effect rfl vm
  | receive vm out =>
    cases h
    exact receiveLoop_effect rfl vm out
  | sendPoll value =>
    cases h
    rw [sendPolled]
    by_cases hint : interrupted = true
    · rw [if_pos hint]
      exact .sendFail rfl .interrupted
    rw [if_neg hint]
    by_cases hchanged : ch.count < ch.capacity ∨ ch.closed = true
    · rw [if_pos hchanged]
      exact sendLoop_effect rfl true
    · rw [if_neg hchanged]
      exact .unlock rfl
  | receivePoll out =>
    cases h
    rw [receivePolled]
    by_cases hint : interrupted = true
    · rw [if_pos hint]
      exact .receiveFail rfl fun h => by cases h
    rw [if_neg hint]
    by_cases hchanged : ch.count > 0 ∨ ch.closed = true
    · rw [if_pos hchanged]
      exact receiveLoop_effect rfl true out
    · rw [if_neg hchanged]
      exact .unlock rfl
  | sendWoken vm value status =>
    cases h
    rw [sendAwake]
    by_cases hfailed : status = .failed
    · rw [if_pos hfailed]
      exact .sendFail rfl .interrupted
    · rw [if_neg hfailed]
      exact sendLoop_effect rfl vm
  | receiveWoken vm out status =>
    cases h
    rw [receiveAwake]
    by_cases hfailed : status = .failed
    · rw [if_pos hfailed]
      exact .receiveFail rfl fun h => by cases h
    · rw [if_neg hfailed]
      exact receiveLoop_effect rfl vm out
  | trySend value =>
    cases h
    rw [trySend]
    by_cases hclosed : ch.closed = true
    · rw [if_pos hclosed]
      exact .sendFail rfl .closed
    rw [if_neg hclosed]
    by_cases hfull : ch.count ≥ ch.capacity
    · rw [if_pos hfull]
      exact .sendFail rfl .wouldBlock
    · rw [if_neg hfull]
      exact .deposit rfl (by simpa using hclosed) (Nat.lt_of_not_le hfull)
  | tryReceive out =>
    cases h
    rw [tryReceive]
    by_cases hempty : ch.count = 0
    · rw [if_pos hempty]
      refine .receiveFail rfl fun h => ⟨?_, hempty⟩
      by_contra hopen
      rw [if_neg hopen] at h
      cases h
    · rw [if_neg hempty]
      exact .withdraw rfl hempty out
  | close =>
    cases h
    exact .close rfl

end

/-! ## the ring buffer -/

structure ChannelObj.Valid (ch : ChannelObj) : Prop where
  length : ch.buf.length = ch.capacity
  head : ch.head < ch.capacity
  count : ch.count ≤ ch.capacity

def ChannelObj.contents (ch : ChannelObj) : List Value := Ring.contents ch.buf ch.head ch.count

def ChannelObj.Vacant (ch : ChannelObj) : Prop := Ring.Vacant ch.buf ch.head ch.count makeNil

namespace ChannelObj.Valid

variable {ch : ChannelObj} (h : ch.Valid)
include h

theorem tail_eq : ch.tail = Ring.slot ch.buf ch.head ch.count := by
  rw [tail, Ring.slot, h.length]

theorem push (hroom : ch.count < ch.capacity) (value : Value) : (ch.push value).Valid where
  length := (List.length_set ..).trans h.length
  head := h.head
  count := hroom

theorem contents_push (hroom : ch.count < ch.capacity) (value : Value) :
    (ch.push value).contents = ch.contents ++ [value] := by
  rw [contents, ChannelObj.push, h.tail_eq]
  exact Ring.contents_push (h.length ▸ hroom) value

theorem vacant_push (hv : ch.Vacant) (hroom : ch.count < ch.capacity) (value : Value) :
    (ch.push value).Vacant := by
  rw [Vacant, ChannelObj.push, h.tail_eq]
  exact Ring.vacant_push hv (h.length ▸ hroom) value

theorem pop : ch.pop.Valid where
  length := (List.length_set ..).trans h.length
  head := Nat.mod_lt _ (Nat.zero_lt_of_lt h.head)
  count := Nat.le_trans (Nat.sub_le _ _) h.count

theorem contents_pop (hcount : ch.count ≠ 0) : ch.contents = ch.front :: ch.pop.contents := by
  have hhead : ch.head < ch.buf.length := h.length ▸ h.head
  obtain ⟨n, hn⟩ := Nat.exists_eq_succ_of_ne_zero hcount
  have hlt : n < ch.buf.length := by
    have := h.count
    rw [h.length]
    omega
  have hfront : ch.front = ch.buf[ch.head] := by
    rw [front, getD_eq_getElem?_getD, getElem?_eq_getElem hhead, getD_some]
  rw [contents, contents, hfront, hn, Ring.contents_pop hhead hlt makeNil, ChannelObj.pop, hn,
    h.length]
  rfl

theorem vacant_pop (hv : ch.Vacant) (hcount : ch.count ≠ 0) : ch.pop.Vacant := by
  obtain ⟨n, hn⟩ := Nat.exists_eq_succ_of_ne_zero hcount
  rw [Vacant, hn] at hv
  have hpop := Ring.vacant_pop hv (h.length ▸ h.head)
  rw [h.length] at hpop
  rw [Vacant, ChannelObj.pop, hn]
  exact hpop

end ChannelObj.Valid

theorem createChannelObj_valid {capacity : Nat} (h : 0 < capacity) :
    (createChannelObj capacity).Valid where
  length := length_replicate
  head := h
  count := Nat.zero_le _

theorem createChannelObj_vacant (capacity : Nat) : (createChannelObj capacity).Vacant := by
  intro i _ hi
  have hlt := Ring.slot_lt (Nat.zero_lt_of_lt hi) (createChannelObj capacity).head i
  exact (getElem?_eq_getElem hlt).trans (congrArg some (getElem_replicate ..))

variable {ch : ChannelObj} {i : Nat} {tr : List ChannelEvent} {e : ChannelEvent}
  {w w' : ChannelWorld}

theorem channelCreate_ok {capacity : Int} (h : channelCreate capacity = .ok ch) :
    ∃ n, 0 < n ∧ ch = createChannelObj n := by
  rw [channelCreate] at h
  by_cases hsmall : capacity < 1
  · rw [if_pos hsmall] at h
    cases h
  rw [if_neg hsmall] at h
  split at h
  · cases h
  · exact ⟨capacity.toNat, by omega, (Except.ok.inj h).symm⟩

/-! ## the values of a run -/

def ChannelEvent.sentValue : ChannelEvent → Option Value
  | .sent value => some value
  | _ => none

def ChannelEvent.receivedValue : ChannelEvent → Option Value
  | .received value _ => some value
  | _ => none

def ChannelEvent.failedValue : ChannelEvent → Option Value
  | .sendFailed value _ => some value
  | _ => none

def ChannelEvent.offeredValue : ChannelEvent → Option Value
  | .call op => op.held
  | _ => none

def sentOf (tr : List ChannelEvent) : List Value := tr.filterMap ChannelEvent.sentValue

def receivedOf (tr : List ChannelEvent) : List Value := tr.filterMap ChannelEvent.receivedValue

def failedOf (tr : List ChannelEvent) : List Value := tr.filterMap ChannelEvent.failedValue

def offeredOf (tr : List ChannelEvent) : List Value := tr.filterMap ChannelEvent.offeredValue

theorem filterMap_snoc {ε α : Type} (f : ε → Option α) (tr : List ε) (e : ε) :
    (tr ++ [e]).filterMap f = tr.filterMap f ++ (f e).toList := by
  rw [filterMap_append]
  refine congrArg (tr.filterMap f ++ ·) ?_
  cases h : f e with
  | none => rw [filterMap_cons_none h, filterMap_nil, toList_none]
  | some a => rw [filterMap_cons_some h, filterMap_nil, toList_some]

/-! ## the values of the threads -/

def ChannelWorld.held (w : ChannelWorld) : List Value :=
  w.threads.filterMap ChannelPhase.held

theorem held_woken (p : ChannelPhase) (status : WaitStatus) : (p.woken status).held = p.held := by
  cases p <;> rfl

theorem filterMap_set {ε α : Type} (f : ε → Option α) {l : List ε} {p : ε} (h : l[i]? = some p)
    (q : ε) : ((f p).toList : Multiset α) + ((l.set i q).filterMap f : List α) =
      ((f q).toList : Multiset α) + (l.filterMap f : List α) := by
  have hcons : ∀ (a : ε) (l : List ε), (((a :: l).filterMap f : List α) : Multiset α) =
      ((f a).toList : Multiset α) + (l.filterMap f : List α) := by
    intro a l
    cases ha : f a with
    | none => rw [filterMap_cons_none ha]; simp
    | some b => rw [filterMap_cons_some ha]; rfl
  induction l generalizing i with
  | nil => cases h
  | cons a l ih =>
    cases i with
    | zero =>
      obtain rfl : a = p := some.inj h
      rw [set_cons_zero, hcons, hcons]
      abel
    | succ i =>
      rw [set_cons_succ, hcons, hcons, add_left_comm, ih h]
      abel

theorem held_set {l : List ChannelPhase} {p q : ChannelPhase} (h : l[i]? = some p)
    (hheld : q.held = p.held) :
    (l.set i q).filterMap ChannelPhase.held = l.filterMap ChannelPhase.held := by
  induction l generalizing i with
  | nil => rfl
  | cons a l ih =>
    cases i with
    | zero =>
      obtain rfl : a = p := some.inj h
      rw [set_cons_zero, filterMap_cons, filterMap_cons, hheld]
    | succ i => rw [set_cons_succ, filterMap_cons, filterMap_cons, ih h]

theorem held_wakes {signal : ChannelSignal} {l l' : List ChannelPhase}
    (h : ChannelWakes signal l l') :
    l'.filterMap ChannelPhase.held = l.filterMap ChannelPhase.held := by
  cases h with
  | nothing | nobody => rfl
  | one h => exact held_set h (held_woken _ _)
  | all =>
    rw [filterMap_map]
    exact filterMap_congr fun p _ => held_woken p _

/-! ## the invariant -/

structure ChannelInv (tr : List ChannelEvent) (w : ChannelWorld) : Prop where
  valid : w.channel.Valid
  vacant : w.channel.Vacant
  fifo : sentOf tr = receivedOf tr ++ w.channel.contents
  owned : (offeredOf tr : Multiset Value) = w.held + sentOf tr + failedOf tr

theorem channelInv_start {capacity : Nat} (hpos : 0 < capacity) (h : ch = createChannelObj capacity)
    (threads : Nat) : ChannelInv [] (ChannelWorld.start ch threads) := by
  subst h
  have hheld : (ChannelWorld.start (createChannelObj capacity) threads).held = [] := by
    refine filterMap_eq_nil_iff.mpr fun p hp => ?_
    rw [eq_of_mem_replicate hp]
    rfl
  exact
    { valid := createChannelObj_valid hpos
      vacant := createChannelObj_vacant capacity
      fifo := rfl
      owned := by
        rw [hheld]
        rfl }

theorem owned_snoc {held held' : Multiset Value} (e : ChannelEvent)
    (howned : (offeredOf tr : Multiset Value) = held + sentOf tr + failedOf tr)
    (hmoved : (e.offeredValue.toList : Multiset Value) + held = held' + e.sentValue.toList +
      e.failedValue.toList) :
    (offeredOf (tr ++ [e]) : Multiset Value) =
      held' + sentOf (tr ++ [e]) + failedOf (tr ++ [e]) := by
  simp only [offeredOf, sentOf, failedOf, filterMap_snoc, ← Multiset.coe_add] at howned ⊢
  calc _ = (e.offeredValue.toList + held) + (tr.filterMap ChannelEvent.sentValue : List Value) +
        (tr.filterMap ChannelEvent.failedValue : List Value) := by rw [howned]; abel
    _ = _ := by rw [hmoved]; abel

theorem owned_quiet {held held' : List Value}
    (howned : (offeredOf tr : Multiset Value) = held + sentOf tr + failedOf tr)
    (hheld : held' = held) (hoffered : e.offeredValue = none) (hsent : e.sentValue = none)
    (hfailed : e.failedValue = none) : (offeredOf (tr ++ [e]) : Multiset Value) =
      held' + sentOf (tr ++ [e]) + failedOf (tr ++ [e]) := by
  refine owned_snoc e howned ?_
  rw [hoffered, hsent, hfailed, hheld]
  show 0 + (held : Multiset Value) = held + 0 + 0
  rw [zero_add, add_zero, add_zero]

theorem fifo_quiet {contents : List Value} (hfifo : sentOf tr = receivedOf tr ++ contents)
    (hsent : e.sentValue = none) (hreceived : e.receivedValue = none) :
    sentOf (tr ++ [e]) = receivedOf (tr ++ [e]) ++ contents := by
  rw [sentOf, receivedOf, filterMap_snoc, filterMap_snoc, hsent, hreceived, toList_none,
    append_nil, append_nil]
  exact hfifo

theorem channelInv_effect {p : ChannelPhase} {s : ChannelSection} (h : ChannelInv tr w)
    (hp : w.threads[i]? = some p) (heffect : ChannelEffect w.channel p s) :
    ChannelInv (tr ++ [s.event]) ⟨s.channel, w.threads.set i s.phase⟩ := by
  have hheld := filterMap_set ChannelPhase.held hp s.phase
  cases heffect with
  | deposit hv hopen hroom =>
    rw [hv] at hheld
    refine ⟨h.valid.push hroom _, h.valid.vacant_push h.vacant hroom _, ?_, owned_snoc _ h.owned ?_⟩
    · rw [sentOf, receivedOf, filterMap_snoc, filterMap_snoc]
      show sentOf tr ++ [_] = receivedOf tr ++ [] ++ (w.channel.push _).contents
      rw [h.valid.contents_push hroom, append_nil, h.fifo, append_assoc]
    · exact (hheld.symm.trans (add_comm _ _)).trans (add_zero _).symm
  | sendFail hv status =>
    rw [hv] at hheld
    refine ⟨h.valid, h.vacant, ?_, owned_snoc _ h.owned ?_⟩
    · exact fifo_quiet h.fifo rfl rfl
    · exact (hheld.symm.trans (add_comm _ _)).trans (congrArg (· + _) (add_zero _).symm)
  | withdraw hv hcount out =>
    refine ⟨h.valid.pop, h.valid.vacant_pop h.vacant hcount, ?_, ?_⟩
    · rw [sentOf, receivedOf, filterMap_snoc, filterMap_snoc]
      show sentOf tr ++ [] = receivedOf tr ++ [w.channel.front] ++ w.channel.pop.contents
      rw [append_nil, h.fifo, h.valid.contents_pop hcount, append_assoc]
      rfl
    · exact owned_quiet h.owned (held_set (q := .idle) hp hv.symm) rfl rfl rfl
  | receiveFail hv hclosed =>
    refine ⟨h.valid, h.vacant, ?_, ?_⟩
    · exact fifo_quiet h.fifo rfl rfl
    · exact owned_quiet h.owned (held_set (q := .idle) hp hv.symm) rfl rfl rfl
  | close hv =>
    refine ⟨⟨h.valid.length, h.valid.head, h.valid.count⟩, h.vacant, ?_, ?_⟩
    · exact fifo_quiet h.fifo rfl rfl
    · exact owned_quiet h.owned (held_set (q := .idle) hp hv.symm) rfl rfl rfl
  | unlock hsame =>
    refine ⟨h.valid, h.vacant, ?_, ?_⟩
    · exact fifo_quiet h.fifo rfl rfl
    · exact owned_quiet h.owned (held_set hp hsame) rfl rfl rfl

theorem channelInv_step (h : ChannelInv tr w) (hstep : ChannelStep w e w') :
    ChannelInv (tr ++ [e]) w' := by
  cases hstep with
  | @call i op hp hop =>
    refine ⟨h.valid, h.vacant, fifo_quiet h.fifo rfl rfl, owned_snoc _ h.owned ?_⟩
    have hheld := filterMap_set ChannelPhase.held hp op
    exact (hheld.symm.trans (zero_add _)).trans ((add_zero _).trans (add_zero _)).symm
  | wake status hp hwaits =>
    exact ⟨h.valid, h.vacant, fifo_quiet h.fifo rfl rfl,
      owned_quiet h.owned (held_set hp (held_woken _ status)) rfl rfl rfl⟩
  | critical hp hsection hwakes =>
    have hmid := channelInv_effect h hp (critical_effect hsection)
    refine ⟨hmid.valid, hmid.vacant, hmid.fifo, ?_⟩
    rw [ChannelWorld.held, held_wakes hwakes]
    exact hmid.owned

theorem channelInv_run {capacity : Int} (hcreate : channelCreate capacity = .ok ch) {threads : Nat}
    (h : Run ChannelStep (.start ch threads) tr w) : ChannelInv tr w := by
  obtain ⟨n, hpos, hch⟩ := channelCreate_ok hcreate
  exact h.invariant (channelInv_start hpos hch threads) fun _ _ _ _ => channelInv_step

/-! ## the close -/

theorem closed_step (h : w.channel.closed = true) (hstep : ChannelStep w e w') :
    w'.channel.closed = true ∧ e.sentValue = none := by
  cases hstep with
  | call | wake => exact ⟨h, rfl⟩
  | critical hp hsection hwakes =>
    cases critical_effect hsection with
    | deposit hv hopen hroom => exact absurd (h.symm.trans hopen) (by decide)
    | sendFail | withdraw | receiveFail | unlock => exact ⟨h, rfl⟩
    | close => exact ⟨rfl, rfl⟩

theorem sentOf_closed (h : w.channel.closed = true) (hrun : Run ChannelStep w tr w') :
    sentOf tr = [] := by
  have hinv : w'.channel.closed = true ∧ sentOf tr = [] := by
    refine hrun.invariant (I := fun tr w => w.channel.closed = true ∧ sentOf tr = [])
      ⟨h, rfl⟩ fun tr s e s' hs hstep => ?_
    obtain ⟨hclosed, hsent⟩ := closed_step hs.1 hstep
    refine ⟨hclosed, ?_⟩
    rw [sentOf, filterMap_snoc, hsent, ← sentOf, hs.2]
    rfl
  exact hinv.2

theorem closed_of_event (h : ChannelStep w .closed w') : w'.channel.closed = true := by
  generalize he : ChannelEvent.closed = e at h
  cases h with
  | call | wake => cases he
  | critical hp hsection hwakes =>
    cases critical_effect hsection with
    | deposit | sendFail | withdraw | receiveFail | unlock => cases he
    | close => rfl

theorem drained_of_event (h : ChannelStep w (.receiveFailed .closed) w') :
    w.channel.closed = true ∧ w.channel.count = 0 := by
  generalize he : ChannelEvent.receiveFailed .closed = e at h
  cases h with
  | call | wake => cases he
  | critical hp hsection hwakes =>
    cases critical_effect hsection with
    | deposit | sendFail | withdraw | unlock | close => cases he
    | receiveFail hv hclosed =>
      cases he
      exact hclosed rfl

theorem sentOf_append (tr tr' : List ChannelEvent) : sentOf (tr ++ tr') = sentOf tr ++ sentOf tr' :=
  filterMap_append ..

/-- In every run of any number of threads: the values received are the first of the values sent,
in order; the buffer holds the others, within its capacity; nothing is sent after a close; a
receive that reports the close has seen every value; and every value that was offered is with a
sender, in the buffer, received, or freed by a send that failed. -/
theorem channel_safe {capacity : Int} {ch : ChannelObj} (hcreate : channelCreate capacity = .ok ch)
    {threads : Nat} {tr : List ChannelEvent} {w : ChannelWorld}
    (h : Run ChannelStep (.start ch threads) tr w) : receivedOf tr <+: sentOf tr ∧
      sentOf tr = receivedOf tr ++ w.channel.contents ∧
      w.channel.contents.length = w.channel.count ∧ w.channel.count ≤ w.channel.capacity ∧
      (∀ tr₁ tr₂, tr = tr₁ ++ .closed :: tr₂ → sentOf tr₂ = []) ∧
      (∀ tr₁ tr₂, tr = tr₁ ++ .receiveFailed .closed :: tr₂ → receivedOf tr₁ = sentOf tr) ∧
      (offeredOf tr).Perm (w.held ++ w.channel.contents ++ receivedOf tr ++ failedOf tr) ∧
      w.channel.Vacant := by
  have hinv := channelInv_run hcreate h
  have hpos : 0 < w.channel.buf.length := by
    rw [hinv.valid.length]
    exact Nat.zero_lt_of_lt hinv.valid.head
  refine ⟨⟨_, hinv.fifo.symm⟩, hinv.fifo, Ring.contents_length hpos, hinv.valid.count, ?_, ?_, ?_,
    hinv.vacant⟩
  · rintro tr₁ tr₂ rfl
    obtain ⟨w₁, w₂, -, hstep, hrest⟩ := h.at
    exact sentOf_closed (closed_of_event hstep) hrest
  · rintro tr₁ tr₂ rfl
    obtain ⟨w₁, w₂, hbefore, hstep, hrest⟩ := h.at
    obtain ⟨hclosed, hempty⟩ := drained_of_event hstep
    have hcontents : w₁.channel.contents = [] := by
      rw [contents, hempty]
      rfl
    have hfifo := (channelInv_run hcreate hbefore).fifo
    have hsent : sentOf (.receiveFailed .closed :: tr₂) = [] :=
      sentOf_closed hclosed (Run.cons hstep hrest)
    rw [sentOf_append, hsent, append_nil, hfifo, hcontents, append_nil]
  · rw [← Multiset.coe_eq_coe, hinv.owned, hinv.fifo]
    simp only [← Multiset.coe_add]
    abel

theorem channelRun_single : Run ChannelStep (.start (createChannelObj 1) 1)
    [.call (.trySend makeNil), .sent makeNil, .call (.tryReceive true), .received makeNil true]
    ⟨((createChannelObj 1).push makeNil).pop, [.idle]⟩ := by
  have hnobody : ∀ cond, ∀ p ∈ [ChannelPhase.idle], p.waitsOn ≠ some cond := by
    intro cond p hp
    rw [eq_of_mem_singleton hp]
    exact nofun
  have hsend : ChannelStep ⟨createChannelObj 1, [.trySend makeNil]⟩ (.sent makeNil)
      ⟨(createChannelObj 1).push makeNil, [.idle]⟩ :=
    @ChannelStep.critical _ 0 _ false ((createChannelObj 1).deposit makeNil) _ rfl rfl
      (.nobody (hnobody _))
  have hreceive : ChannelStep ⟨(createChannelObj 1).push makeNil, [.tryReceive true]⟩
      (.received makeNil true) ⟨((createChannelObj 1).push makeNil).pop, [.idle]⟩ :=
    @ChannelStep.critical _ 0 _ false (((createChannelObj 1).push makeNil).withdraw true) _ rfl
      rfl (.nobody (hnobody _))
  exact .cons (@ChannelStep.call _ 0 _ rfl rfl) <| .cons hsend <|
    .cons (@ChannelStep.call _ 0 _ rfl rfl) <| .cons hreceive .start

theorem channel_safe_single :
    [makeNil] = [makeNil] ++ ((createChannelObj 1).push makeNil).pop.contents ∧
      ((createChannelObj 1).push makeNil).pop.Vacant := by
  obtain ⟨-, hfifo, -, -, -, -, -, hvacant⟩ :=
    channel_safe (show channelCreate 1 = .ok (createChannelObj 1) from rfl) channelRun_single
  exact ⟨hfifo, hvacant⟩

end Pscal
