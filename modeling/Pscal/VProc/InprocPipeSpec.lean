import Mathlib
import Pscal.Lib.Ring
import Pscal.VProc.InprocPipe

/-!
# The locked regions of an in-process pipe

* `VprocInprocPipe.Ok`  the ring is in shape;
* `copyOut_spec`, `copyIn_spec`  the loops that copy;
* `PipeEffect`  what one region of a call does;
* `enter_effect`, `again_effect`  every region of a call on an open end does no more.
-/

set_option linter.unusedSectionVars false

namespace Pscal

open List Option VprocInprocPipe

namespace VprocInprocPipe

/-! ## the ring -/

section
variable (pipe : VprocInprocPipe)

structure Ok : Prop where
  length : pipe.buf.length = pipe.cap
  pos : 0 < pipe.cap
  head : pipe.head < pipe.cap
  tail : pipe.tail = (pipe.head + pipe.count) % pipe.cap
  count : pipe.count ≤ pipe.cap

def contents : List UInt8 := Ring.contents pipe.buf pipe.head pipe.count

def closed : VprocInprocEnd → Bool
  | .reader => pipe.readClosed
  | .writer => pipe.writeClosed

def keepers : VprocInprocEnd → Int
  | .reader => pipe.readers
  | .writer => pipe.writers

def waiters : VprocInprocEnd → Int
  | .reader => pipe.waitReaders
  | .writer => pipe.waitWriters

end

variable {pipe : VprocInprocPipe}

theorem setFreed_end (freed : Bool) (e : VprocInprocEnd) :
    closed { pipe with freed := freed } e = pipe.closed e ∧
      keepers { pipe with freed := freed } e = pipe.keepers e ∧
      waiters { pipe with freed := freed } e = pipe.waiters e := by
  cases e <;> exact ⟨rfl, rfl, rfl⟩

theorem contents_length (hok : pipe.Ok) : pipe.contents.length = pipe.count :=
  Ring.contents_length (by rw [hok.length]; exact hok.pos)

theorem copyOut_spec (n : Nat) : ∀ {pipe : VprocInprocPipe} {k : Nat}, pipe.buf.length = pipe.cap →
    pipe.head < pipe.cap → k ≤ pipe.cap → n ≤ k →
    copyOut n pipe = ((Ring.contents pipe.buf pipe.head k).take n,
      { pipe with head := (pipe.head + n) % pipe.cap }) ∧
    Ring.contents pipe.buf ((pipe.head + n) % pipe.cap) (k - n) =
      (Ring.contents pipe.buf pipe.head k).drop n := by
  induction n with
  | zero =>
    intro pipe k hlength hhead hk hn
    rw [Nat.add_zero, Nat.mod_eq_of_lt hhead]
    exact ⟨rfl, rfl⟩
  | succ n ih =>
    intro pipe k hlength hhead hk hn
    obtain ⟨k, rfl⟩ : ∃ k', k = k' + 1 := ⟨k - 1, by omega⟩
    have htail : Ring.contents pipe.buf pipe.head (k + 1) =
        pipe.buf.getD pipe.head 0 ::
          Ring.contents pipe.buf ((pipe.head + 1) % pipe.cap) k := by
      rw [Ring.contents_tail (by omega) (by omega),
        ← getD_eq_getElem pipe.buf 0 (show pipe.head < pipe.buf.length by omega), hlength]
    have hnext : ((pipe.head + 1) % pipe.cap + n) % pipe.cap =
        (pipe.head + (n + 1)) % pipe.cap := by
      rw [Nat.mod_add_mod, Nat.add_assoc, Nat.add_comm 1 n]
    obtain ⟨hout, hrest⟩ := @ih { pipe with head := (pipe.head + 1) % pipe.cap } k hlength
      (Nat.mod_lt _ (Nat.zero_lt_of_lt hhead)) (show k ≤ pipe.cap by omega) (by omega)
    rw [htail, take_succ_cons, drop_succ_cons, copyOut, hout,
      show k + 1 - (n + 1) = k - n by omega]
    rw [hnext] at hrest
    exact ⟨congrArg (_, ·) (congrArg (fun head => { pipe with head := head }) hnext), hrest⟩

theorem copyIn_spec (bytes : List UInt8) : ∀ {pipe : VprocInprocPipe} {k : Nat},
    pipe.buf.length = pipe.cap → pipe.tail = (pipe.head + k) % pipe.cap →
    k + bytes.length ≤ pipe.cap → ∃ buf : List UInt8, copyIn bytes pipe =
      { pipe with buf := buf, tail := (pipe.head + (k + bytes.length)) % pipe.cap } ∧
    buf.length = pipe.cap ∧ Ring.contents buf pipe.head (k + bytes.length) =
      Ring.contents pipe.buf pipe.head k ++ bytes := by
  induction bytes with
  | nil =>
    intro pipe k hlength htail hk
    refine ⟨pipe.buf, ?_, hlength, (append_nil _).symm⟩
    rw [length_nil, Nat.add_zero, ← htail]
    rfl
  | cons byte bytes ih =>
    intro pipe k hlength htail hk
    rw [length_cons] at hk ⊢
    have hslot : Ring.slot pipe.buf pipe.head k = pipe.tail := by
      rw [htail, Ring.slot, hlength]
    have hpush := @Ring.contents_push _ pipe.buf pipe.head k (by omega) byte
    rw [hslot] at hpush
    obtain ⟨buf, hcopy, hlen, hcontents⟩ := @ih
      { pipe with
        buf := pipe.buf.set pipe.tail byte
        tail := (pipe.tail + 1) % pipe.cap } (k + 1)
      ((List.length_set).trans hlength)
      (by
        show (pipe.tail + 1) % pipe.cap = _
        rw [htail, Nat.mod_add_mod, Nat.add_assoc]) (by show k + 1 + bytes.length ≤ pipe.cap; omega)
    have hcount : k + 1 + bytes.length = k + (bytes.length + 1) := by omega
    rw [hcount] at hcopy hcontents
    refine ⟨buf, hcopy, hlen, ?_⟩
    rw [hcontents, hpush, append_assoc]
    rfl

end VprocInprocPipe

/-! ## one region of a call -/

/-- what a region of a call does to a pipe that counts the call as active and not as waiting -/
structure PipeEffect (op : PipeOp) (q : VprocInprocPipe) (result : Option PipeResult)
    (q' : VprocInprocPipe) : Prop where
  ok : q'.Ok
  flow : op.out result ++ q'.contents = q.contents ++ op.into result
  closed : ∀ e, q'.closed e = q.closed e
  keepers : ∀ e, q'.keepers e = q.keepers e
  freed : q'.freed = q.freed
  waiters : ∀ e, q'.waiters e = q.waiters e + if result = none ∧ e = op.side then 1 else 0
  active : q'.activeOps = q.activeOps - if result = none then 0 else 1
  /-- nothing is returned for something asked: there is nothing, and there will be nothing -/
  eof : ∀ size, op = .read size → 0 < size → result = some (.bytes []) →
    q.contents = [] ∧ q.closed .writer = true
  taken : ∀ n, result = some (.taken n) → op.side = .writer ∧ q.closed .reader = false

namespace VprocInprocPipe

variable {pipe : VprocInprocPipe}

theorem leave_eq (hopen : (pipe.readClosed && pipe.writeClosed) = false) (result : PipeResult) :
    pipe.leave result = .done result false { pipe with activeOps := pipe.activeOps - 1 } := by
  unfold leave vprocInprocPipeShouldDestroy
  dsimp only
  split
  · rfl
  · rw [hopen]
    rfl

theorem leave_effect (hok : pipe.Ok) (hopen : (pipe.readClosed && pipe.writeClosed) = false)
    {op : PipeOp} {result : PipeResult} (hout : op.out (some result) = [])
    (hinto : op.into (some result) = [])
    (heof : ∀ size, op = .read size → 0 < size → result = .bytes [] →
      pipe.contents = [] ∧ pipe.closed .writer = true)
    (htaken : ∀ n, result ≠ .taken n) : (pipe.leave result).destroys = false ∧
      PipeEffect op pipe (pipe.leave result).result (pipe.leave result).pipe := by
  rw [leave_eq hopen]
  refine ⟨rfl, ⟨hok.length, hok.pos, hok.head, hok.tail, hok.count⟩, ?_, fun e => by cases e <;> rfl,
    fun e => by cases e <;> rfl, rfl, fun e => by cases e <;> exact (Int.add_zero _).symm, rfl,
    fun size hop hsize hresult => heof size hop hsize (some_inj.mp hresult),
    fun n hresult => absurd (some_inj.mp hresult) (htaken n)⟩
  show op.out (some result) ++ pipe.contents = pipe.contents ++ op.into (some result)
  rw [hout, hinto, append_nil]
  rfl

theorem addWaiters_ok (hok : pipe.Ok) (e : VprocInprocEnd) (n : Int) : (pipe.addWaiters e n).Ok := by
  cases e <;> exact ⟨hok.length, hok.pos, hok.head, hok.tail, hok.count⟩

theorem wait_effect (hok : pipe.Ok) (op : PipeOp) (hout : op.out none = [])
    (hinto : op.into none = []) : PipeEffect op pipe none (pipe.addWaiters op.side 1) := by
  refine ⟨addWaiters_ok hok _ _, ?_, fun e => ?_, fun e => ?_, ?_, fun e => ?_, ?_,
    fun _ _ _ h => (nomatch h), fun _ h => (nomatch h)⟩
  · rw [hout, hinto, append_nil]
    cases op.side <;> rfl
  · cases op.side <;> cases e <;> rfl
  · cases op.side <;> cases e <;> rfl
  · cases op.side <;> rfl
  · cases op.side <;> cases e <;> first | rfl | exact (Int.add_zero _).symm
  · cases op.side <;> exact (Int.sub_zero _).symm

theorem readLoop_effect (hok : pipe.Ok) (hopen : pipe.readClosed = false) (size : Nat)
    (nonblocking : Bool) : (pipe.readLoop size nonblocking).destroys = false ∧
      PipeEffect (.read size) pipe (pipe.readLoop size nonblocking).result
        (pipe.readLoop size nonblocking).pipe := by
  have hboth : (pipe.readClosed && pipe.writeClosed) = false := by rw [hopen]; rfl
  have hlen := contents_length hok
  unfold readLoop
  split
  · split
    · exact leave_effect hok hboth rfl rfl (fun _ _ _ h => nomatch h) fun _ h => nomatch h
    · exact ⟨rfl, wait_effect hok (.read size) rfl rfl⟩
  · split
    · next hempty =>
      obtain ⟨hcount, hclosed⟩ := Bool.and_eq_true_iff.mp hempty
      rw [beq_iff_eq.mp hcount] at hlen
      exact leave_effect hok hboth rfl rfl
        (fun _ _ _ _ => ⟨eq_nil_of_length_eq_zero hlen, hclosed⟩) fun _ h => nomatch h
    · next hwait hempty =>
      have hcount : 0 < pipe.count := by
        rw [Nat.pos_iff_ne_zero]
        intro hzero
        rw [hzero] at hwait hempty
        cases hclosed : pipe.writeClosed <;> rw [hclosed] at hwait hempty
        · exact hwait rfl
        · exact hempty rfl
      obtain ⟨hcopy, hrest⟩ := copyOut_spec (min size pipe.count) hok.length hok.head hok.count
        (Nat.min_le_right _ _)
      have hleave := @leave_eq { pipe with
          head := (pipe.head + min size pipe.count) % pipe.cap
          count := pipe.count - min size pipe.count } hboth
        (.bytes (pipe.contents.take (min size pipe.count)))
      dsimp only
      rw [hcopy]
      unfold contents at hleave
      dsimp only
      rw [hleave]
      refine ⟨rfl, ⟨hok.length, hok.pos, Nat.mod_lt _ hok.pos, ?_, ?_⟩, ?_,
        fun e => by cases e <;> rfl, fun e => by cases e <;> rfl, rfl,
        fun e => by cases e <;> exact (Int.add_zero _).symm, rfl, fun size' hop hsize hresult => ?_,
        fun _ h => nomatch h⟩
      · have hle := Nat.min_le_right size pipe.count
        show pipe.tail = ((pipe.head + min size pipe.count) % pipe.cap +
          (pipe.count - min size pipe.count)) % pipe.cap
        rw [hok.tail, Nat.mod_add_mod]
        congr 1
        omega
      · exact Nat.le_trans (Nat.sub_le _ _) hok.count
      · show pipe.contents.take _ ++ Ring.contents pipe.buf
          ((pipe.head + min size pipe.count) % pipe.cap) (pipe.count - min size pipe.count) =
            pipe.contents ++ []
        rw [hrest, append_nil]
        exact take_append_drop _ _
      -- something was asked for, and there is something
      · obtain rfl : size = size' := PipeOp.read.inj hop
        have hnil : pipe.contents.take (min size pipe.count) = [] :=
          PipeResult.bytes.inj (some_inj.mp hresult)
        have hzero := congrArg List.length hnil
        rw [length_take, hlen, length_nil] at hzero
        omega

theorem writeLoop_effect (hok : pipe.Ok) (hopen : pipe.writeClosed = false) (bytes : List UInt8)
    (nonblocking : Bool) : (pipe.writeLoop bytes nonblocking).destroys = false ∧
      PipeEffect (.write bytes) pipe (pipe.writeLoop bytes nonblocking).result
        (pipe.writeLoop bytes nonblocking).pipe := by
  have hboth : (pipe.readClosed && pipe.writeClosed) = false := by rw [hopen, Bool.and_false]
  unfold writeLoop
  split
  · split
    · exact leave_effect hok hboth rfl rfl (fun _ h => nomatch h) fun _ h => nomatch h
    · exact ⟨rfl, wait_effect hok (.write bytes) rfl rfl⟩
  · split
    · exact leave_effect hok hboth rfl rfl (fun _ h => nomatch h) fun _ h => nomatch h
    · next hread =>
      have hread : pipe.readClosed = false := Bool.eq_false_iff.mpr hread
      dsimp only
      generalize hn : min bytes.length (pipe.cap - pipe.count) = n
      have hlen : (bytes.take n).length = n := by
        rw [length_take]
        omega
      have hroom : pipe.count + n ≤ pipe.cap := by
        have := hok.count
        omega
      obtain ⟨buf, hcopy, hlength, hcontents⟩ := copyIn_spec (bytes.take n) hok.length hok.tail
        (by rw [hlen]; exact hroom)
      rw [hlen] at hcopy hcontents
      have hleave := @leave_eq { pipe with
          buf := buf
          tail := (pipe.head + (pipe.count + n)) % pipe.cap
          count := pipe.count + n } hboth (.taken n)
      rw [hcopy]
      dsimp only
      rw [hleave]
      refine ⟨rfl, ⟨hlength, hok.pos, hok.head, rfl, hroom⟩, ?_, fun e => by cases e <;> rfl,
        fun e => by cases e <;> rfl, rfl, fun e => by cases e <;> exact (Int.add_zero _).symm, rfl,
        fun _ h => (nomatch h), fun _ _ => ⟨rfl, hread⟩⟩
      exact hcontents

end VprocInprocPipe

theorem PipeOp.enter_effect {pipe : VprocInprocPipe} (hok : pipe.Ok) (op : PipeOp)
    (hopen : pipe.closed op.side = false) (nonblocking : Bool) :
    (op.enter pipe nonblocking).destroys = false ∧
      PipeEffect op { pipe with activeOps := pipe.activeOps + 1 }
        (op.enter pipe nonblocking).result (op.enter pipe nonblocking).pipe := by
  have hok' : VprocInprocPipe.Ok { pipe with activeOps := pipe.activeOps + 1 } :=
    ⟨hok.length, hok.pos, hok.head, hok.tail, hok.count⟩
  cases op with
  | read size => exact readLoop_effect hok' hopen size nonblocking
  | write bytes =>
    have hopen : pipe.writeClosed = false := hopen
    show (pipe.vprocInprocPipeWrite bytes nonblocking).destroys = false ∧
      PipeEffect (.write bytes) _ (pipe.vprocInprocPipeWrite bytes nonblocking).result
        (pipe.vprocInprocPipeWrite bytes nonblocking).pipe
    have hwrite : pipe.vprocInprocPipeWrite bytes nonblocking =
        writeLoop { pipe with activeOps := pipe.activeOps + 1 } bytes nonblocking :=
      if_neg (by rw [hopen]; exact Bool.false_ne_true)
    rw [hwrite]
    exact writeLoop_effect hok' hopen bytes nonblocking
  | poll e =>
    refine ⟨rfl, hok, (append_nil _).symm, fun e => by cases e <;> rfl,
      fun e => by cases e <;> rfl, rfl, fun e => by cases e <;> exact (Int.add_zero _).symm, ?_,
      fun _ h => (nomatch h), fun _ h => (nomatch h)⟩
    exact (Int.add_sub_cancel _ _).symm

theorem PipeOp.again_effect {pipe : VprocInprocPipe} (hok : pipe.Ok) (op : PipeOp)
    (hopen : pipe.closed op.side = false) (hpoll : ∀ e, op ≠ .poll e)
    (nonblocking interrupted : Bool) : (op.again pipe nonblocking interrupted).destroys = false ∧
      PipeEffect op (pipe.addWaiters op.side (-1))
        (op.again pipe nonblocking interrupted).result
        (op.again pipe nonblocking interrupted).pipe := by
  cases op with
  | read size =>
    have hopen : (pipe.addWaiters .reader (-1)).readClosed = false := hopen
    have hok' := addWaiters_ok hok .reader (-1)
    show (pipe.readAgain size nonblocking interrupted).destroys = false ∧
      PipeEffect (.read size) _ (pipe.readAgain size nonblocking interrupted).result
        (pipe.readAgain size nonblocking interrupted).pipe
    unfold readAgain
    dsimp only
    split
    · exact leave_effect hok' (by rw [hopen]; rfl) rfl rfl
        (fun _ _ _ h => nomatch h) fun _ h => nomatch h
    · exact readLoop_effect hok' hopen size nonblocking
  | write bytes =>
    have hopen : (pipe.addWaiters .writer (-1)).writeClosed = false := hopen
    have hok' := addWaiters_ok hok .writer (-1)
    show (pipe.writeAgain bytes nonblocking interrupted).destroys = false ∧
      PipeEffect (.write bytes) _ (pipe.writeAgain bytes nonblocking interrupted).result
        (pipe.writeAgain bytes nonblocking interrupted).pipe
    unfold writeAgain
    dsimp only
    split
    · exact leave_effect hok' (by rw [hopen, Bool.and_false]) rfl rfl
        (fun _ h => nomatch h) fun _ h => nomatch h
    · exact writeLoop_effect hok' hopen bytes nonblocking
  | poll e => exact absurd rfl (hpoll e)

end Pscal
