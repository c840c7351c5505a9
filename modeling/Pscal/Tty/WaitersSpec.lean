import Pscal.Tty.Waiters

/-!
# What reads and calls do to those who are parked

* `KeepsReaders`, `KeepsWriters`  those who are parked are told, or would have to wait again;
* `ReadEffect`  a read takes bytes, and then tells the writers;
* `TtyCall.keepsReaders`  every call keeps the readers;
* `TtyCall.keepsWriters`  so it does the writers, where it `Minds` them.
-/

namespace Pscal.Terminal

open Tty

/-! ## reads -/

structure ReadEffect (tty tty' : Tty) : Prop where
  modes : tty.SameModes { tty' with packetStatus := tty.packetStatus }
  status : tty'.packetStatus = tty.packetStatus ∨ tty'.packetStatus = 0
  literal : tty'.literalNext = tty.literalNext
  used : tty'.queue.used ≤ tty.queue.used
  released : tty'.queue.released ≤ tty.queue.released
  writers : tty'.writable = true ∨ tty'.queue = tty.queue

theorem ReadEffect.refl (tty : Tty) : ReadEffect tty tty :=
  ⟨rfl, .inl rfl, rfl, Nat.le_refl _, Nat.le_refl _, .inr rfl⟩

theorem copyLineLoop_le (size : Nat) (q : TtyQueue) :
    (copyLineLoop size q).2.2.used ≤ q.used ∧ (copyLineLoop size q).2.2.released ≤ q.released := by
  induction size generalizing q with
  | zero => exact ⟨Nat.le_refl _, Nat.le_refl _⟩
  | succ size ih =>
    have hpop : q.ttyQueuePop.used ≤ q.used ∧ q.ttyQueuePop.released ≤ q.released :=
      ⟨Nat.sub_le _ _, Nat.sub_le _ _⟩
    rw [copyLineLoop]
    split
    · dsimp only
      split
      · exact hpop
      · have := ih q.ttyQueuePop
        exact ⟨Nat.le_trans this.1 hpop.1, Nat.le_trans this.2 hpop.2⟩
    · exact ⟨Nat.le_refl _, Nat.le_refl _⟩

theorem copyRawLoop_le (size : Nat) (q : TtyQueue) :
    (copyRawLoop size q).2.used ≤ q.used ∧ (copyRawLoop size q).2.released ≤ q.released := by
  induction size generalizing q with
  | zero => exact ⟨Nat.le_refl _, Nat.le_refl _⟩
  | succ size ih =>
    rw [copyRawLoop]
    split
    · have := ih q.ttyQueuePop
      exact ⟨Nat.le_trans this.1 (Nat.sub_le _ _), Nat.le_trans this.2 (Nat.sub_le _ _)⟩
    · exact ⟨Nat.le_refl _, Nat.le_refl _⟩

theorem copyRawLoop_nil {size : Nat} {q : TtyQueue} (h : (copyRawLoop size q).1 = []) :
    (copyRawLoop size q).2 = q := by
  cases size with
  | zero => rfl
  | succ size =>
    rw [copyRawLoop] at h ⊢
    split at h
    · cases h
    · next hused => rw [if_neg hused]

theorem ttyCopyLine_effect (tty : Tty) (size : Nat) : ReadEffect tty (ttyCopyLine tty size).2 := by
  obtain ⟨hused, hreleased⟩ := copyLineLoop_le size tty.queue
  unfold ttyCopyLine
  generalize copyLineLoop size tty.queue = copied at hused hreleased
  obtain ⟨out, ended, q⟩ := copied
  dsimp only at hused hreleased ⊢
  have hq : (if (q.ttyQueueHeadIsMark && !ended) = true then q.ttyQueuePop else q).used ≤
        tty.queue.used ∧
      (if (q.ttyQueueHeadIsMark && !ended) = true then q.ttyQueuePop else q).released ≤
        tty.queue.released := by
    split
    · exact ⟨Nat.le_trans (Nat.sub_le _ _) hused, Nat.le_trans (Nat.sub_le _ _) hreleased⟩
    · exact ⟨hused, hreleased⟩
  split
  · exact ⟨rfl, .inl rfl, rfl, hq.1, hq.2, .inl rfl⟩
  · exact ⟨rfl, .inl rfl, rfl, hq.1, hq.2, .inl rfl⟩

theorem ttyCopyRaw_effect (tty : Tty) (size : Nat) : ReadEffect tty (ttyCopyRaw tty size).2 := by
  obtain ⟨hused, hreleased⟩ := copyRawLoop_le size tty.queue
  unfold ttyCopyRaw
  dsimp only
  split
  · next hnil => exact ⟨rfl, .inl rfl, rfl, hused, hreleased, .inr (copyRawLoop_nil hnil)⟩
  · exact ⟨rfl, .inl rfl, rfl, hused, hreleased, .inl rfl⟩

variable {tty tty' : Tty}

theorem ttyReadMasterTurn_effect {size : Nat} {nonblocking : Bool} {out : Option (List UInt8)}
    (h : ttyReadMasterTurn tty size nonblocking = .returned out tty') : ReadEffect tty tty' := by
  unfold ttyReadMasterTurn at h
  split at h
  · cases h
    exact .refl tty
  split at h
  · cases h
    exact ⟨rfl, .inr rfl, rfl, Nat.le_refl _, Nat.le_refl _, .inr rfl⟩
  split at h
  · split at h
    · cases h
      exact ttyCopyRaw_effect tty _
    · dsimp only at h
      split at h
      · cases h
        exact ttyCopyRaw_effect tty _
      · cases h
        exact .refl tty
  · rw [orWait_returned h]
    exact .refl tty

theorem ttyReadTurn_effect {size : Nat} {nonblocking : Bool} {out : Option (List UInt8)}
    (h : ttyReadTurn tty size nonblocking = .returned out tty') : ReadEffect tty tty' := by
  unfold ttyReadTurn at h
  split at h
  · exact ttyReadMasterTurn_effect h
  · rcases ttyReadSlaveTurn_cases h with rfl | rfl | rfl
    · exact .refl _
    · exact ttyCopyLine_effect tty size
    · exact ttyCopyRaw_effect tty size

/-! ## keeping those who are parked -/

def KeepsReaders (tty tty' : Tty) : Prop :=
  tty'.readable = true ∨ ∀ size, 0 < size → tty.Waits size → tty'.Waits size

def KeepsWriters (tty tty' : Tty) : Prop :=
  tty'.writable = true ∨ ∀ byte, tty.Refuses byte → tty'.Refuses byte

theorem refuses_full (hok : tty.Ok) {byte : UInt8} :
    tty.Refuses byte ↔ tty.Full ∧ tty.needsRoom byte = true :=
  refuses_iff hok .fresh byte

theorem needsRoom_congr (hmaster : tty'.isMaster = tty.isMaster)
    (htermios : tty'.termios = tty.termios) (hreader : tty'.sessionReader = tty.sessionReader)
    (hliteral : tty'.literalNext = tty.literalNext) (byte : UInt8) :
    tty'.needsRoom byte = tty.needsRoom byte := by
  unfold needsRoom ttyLineMode Tty.key
  rw [hmaster, htermios, hreader, hliteral]

theorem ReadEffect.isMaster (h : ReadEffect tty tty') :
    tty'.isMaster = tty.isMaster := h.modes.isMaster

theorem ReadEffect.termios (h : ReadEffect tty tty') : tty'.termios = tty.termios := h.modes.termios

theorem ReadEffect.quiet (h : ReadEffect tty tty') (hquiet : tty.Quiet) : tty'.Quiet := by
  have hquiet' := h.modes.quiet hquiet
  refine ⟨hquiet'.up, fun hmaster => ?_, hquiet'.timer⟩
  rcases h.status with hstatus | hstatus
  · rw [hstatus]
    exact hquiet'.packet hmaster
  · rw [hstatus]
    exact Bool.and_false _

theorem ReadEffect.keepsReaders (h : ReadEffect tty tty') : KeepsReaders tty tty' := by
  refine .inr fun size hsize hwaits => ?_
  obtain ⟨hquiet, hstarved⟩ := waits_iff.mp hwaits
  exact waits_iff.mpr ⟨h.quiet hquiet, hstarved.mono h.isMaster h.modes.lineMode
    (congrArg (·.cc .vmin) h.termios) h.used h.released⟩

theorem ReadEffect.keepsWriters (h : ReadEffect tty tty') (hok : tty.Ok) (hok' : tty'.Ok) :
    KeepsWriters tty tty' := by
  rcases h.writers with hwritable | hqueue
  · exact .inl hwritable
  · refine .inr fun byte hrefuses => ?_
    obtain ⟨hfull, hneeds⟩ := (refuses_full hok).mp hrefuses
    refine (refuses_full hok').mpr ⟨⟨hqueue ▸ hfull.1, fun hline => ?_⟩, ?_⟩
    · rw [hqueue]
      refine hfull.2 ?_
      rwa [ttyLineMode, h.isMaster, h.termios] at hline
    · have hreader : tty'.sessionReader = tty.sessionReader := h.modes.sessionReader
      rwa [needsRoom_congr h.isMaster h.termios hreader h.literal]

/-! ## calls -/

/-- the new modes are such that `ttySetTermios` tells nobody -/
def SameWaits (t wanted : Termios) : Prop :=
  t.hasL Flag.icanon = wanted.hasL Flag.icanon ∧ t.cc .vmin = wanted.cc .vmin ∧
    t.cc .vtime = wanted.cc .vtime

theorem ttySetTermios_cases (tty : Tty) (wanted : Termios) (flushInput : Bool) :
    ((tty.ttySetTermios wanted flushInput).readable = true ∧
      (tty.ttySetTermios wanted flushInput).writable = true) ∨
    (SameWaits tty.termios wanted ∧ tty.ttySetTermios wanted flushInput =
      { (if flushInput then tty.ttyQueueClear else tty) with termios := wanted }) := by
  have htermios : (if flushInput then tty.ttyQueueClear else tty).termios = tty.termios := by
    split <;> rfl
  unfold Tty.ttySetTermios
  generalize (if flushInput then tty.ttyQueueClear else tty) = side at htermios ⊢
  dsimp only
  rw [htermios]
  cases hmode : hasFlag (tty.termios.lflags ^^^ wanted.lflags) Flag.icanon with
  | true => exact .inl ⟨rfl, rfl⟩
  | false =>
    cases htiming : (tty.termios.cc .vmin != wanted.cc .vmin ||
        tty.termios.cc .vtime != wanted.cc .vtime) with
    | true => exact .inl ⟨rfl, rfl⟩
    | false =>
      obtain ⟨hmin, htime⟩ := Bool.or_eq_false_iff.mp htiming
      exact .inr ⟨⟨hasFlag_xor hmode, bne_eq_false_iff_eq.mp hmin, bne_eq_false_iff_eq.mp htime⟩,
        rfl⟩

theorem keepsReaders_of_fewer (hmaster : tty'.isMaster = tty.isMaster)
    (hline : tty'.ttyLineMode = tty.ttyLineMode)
    (hmin : tty'.termios.cc .vmin = tty.termios.cc .vmin) (hused : tty'.queue.used ≤ tty.queue.used)
    (hreleased : tty'.queue.released ≤ tty.queue.released) (hquiet : tty.Quiet → tty'.Quiet) :
    KeepsReaders tty tty' := by
  refine .inr fun size hsize hwaits => ?_
  obtain ⟨hquiet', hstarved⟩ := waits_iff.mp hwaits
  exact waits_iff.mpr ⟨hquiet hquiet', hstarved.mono hmaster hline hmin hused hreleased⟩

theorem TtyCall.keepsReaders (c : TtyCall) : KeepsReaders tty (c.apply tty) := by
  cases c with
  | markHungUp => exact .inl rfl
  | peerHangUp => exact .inl rfl
  | flushInput =>
    exact keepsReaders_of_fewer rfl rfl rfl (Nat.zero_le _) (Nat.zero_le _)
      fun h => ⟨h.up, h.packet, h.timer⟩
  | setTermios wanted flush =>
    rcases ttySetTermios_cases tty wanted flush with h | ⟨⟨hmode, hmin, htime⟩, h⟩
    · exact .inl h.1
    · show KeepsReaders tty (tty.ttySetTermios wanted flush)
      rw [h]
      have hline : (!tty.isMaster && wanted.hasL Flag.icanon) = tty.ttyLineMode := by
        rw [ttyLineMode, hmode]
      have htimer : tty.Quiet → tty.isMaster = false →
          (!tty.isMaster && wanted.hasL Flag.icanon) = false → (wanted.cc .vmin).toNat = 0 →
          (wanted.cc .vtime).toNat ≠ 0 := by
        rw [hline, ← hmin, ← htime]
        exact fun h => h.timer
      cases flush with
      | true =>
        exact keepsReaders_of_fewer rfl hline hmin.symm (Nat.zero_le _) (Nat.zero_le _)
          fun h => ⟨h.up, h.packet, htimer h⟩
      | false =>
        exact keepsReaders_of_fewer rfl hline hmin.symm (Nat.le_refl _) (Nat.le_refl _)
          fun h => ⟨h.up, h.packet, htimer h⟩
  | packetEvent set clear =>
    show KeepsReaders tty (tty.ttyPacketEvent set clear)
    unfold Tty.ttyPacketEvent
    split
    · exact .inl rfl
    · exact .inr fun _ _ h => h
  | setPacketMode on =>
    refine keepsReaders_of_fewer rfl rfl rfl (Nat.le_refl _) (Nat.le_refl _)
      fun h => ⟨h.up, fun hmaster => ?_, h.timer⟩
    have hpacket := h.packet hmaster
    show (on && (if (on && !tty.packetMode) = true then 0 else tty.packetStatus) != 0) = false
    cases on with
    | false => rfl
    | true =>
      cases hmode : tty.packetMode with
      | false => rfl
      | true =>
        rw [hmode] at hpacket
        exact hpacket
  | setSessionReader | setFgGroup | takeEofKey =>
    exact keepsReaders_of_fewer rfl rfl rfl (Nat.le_refl _) (Nat.le_refl _)
      fun h => ⟨h.up, h.packet, h.timer⟩

/-- the bytes of those who are parked take room after the call as they did before; a call that tells
everyone needs no such care -/
def TtyCall.Minds (tty : Tty) (parked : UInt8 → Prop) : TtyCall → Prop
  | .setTermios wanted flush => flush = false → SameWaits tty.termios wanted →
      ∀ byte, parked byte → { tty with termios := wanted : Tty }.needsRoom byte = true
  | .setSessionReader =>
      ∀ byte, parked byte → { tty with sessionReader := true : Tty }.needsRoom byte = true
  | _ => True

theorem TtyCall.keepsWriters (hok : tty.Ok) {parked : UInt8 → Prop} {c : TtyCall}
    (hside : c.admits tty = true) (hminds : c.Minds tty parked) : (c.apply tty).writable = true ∨
      ∀ byte, parked byte → tty.Refuses byte → (c.apply tty).Refuses byte := by
  have hok' : (c.apply tty).Ok := TtyCall.apply_ok hok hside
  cases c with
  | markHungUp | peerHangUp | flushInput => exact .inl rfl
  | setTermios wanted flush =>
    rcases ttySetTermios_cases tty wanted flush with h | ⟨hsame, h⟩
    · exact .inl h.2
    · cases flush with
      | true =>
        refine .inl ?_
        show (tty.ttySetTermios wanted true).writable = true
        rw [h]
        rfl
      | false =>
        refine .inr fun byte hparked hrefuses => ?_
        have htty : (TtyCall.setTermios wanted false).apply tty =
            { tty with termios := wanted } := h
        rw [htty] at hok' ⊢
        have hfull := ((refuses_full hok).mp hrefuses).1
        refine (refuses_full hok').mpr ⟨⟨hfull.1, fun hline => hfull.2 ?_⟩,
          hminds rfl hsame byte hparked⟩
        rw [← hline, ttyLineMode, hsame.1]
        rfl
  | setSessionReader =>
    refine .inr fun byte hparked hrefuses => ?_
    exact (refuses_full hok').mpr ⟨((refuses_full hok).mp hrefuses).1, hminds byte hparked⟩
  | packetEvent set clear =>
    refine .inr fun byte _ hrefuses => ?_
    have hsame : ((TtyCall.packetEvent set clear).apply tty).needsRoom byte = tty.needsRoom byte ∧
        (((TtyCall.packetEvent set clear).apply tty).Full ↔ tty.Full) := by
      show (tty.ttyPacketEvent set clear).needsRoom byte = _ ∧
        ((tty.ttyPacketEvent set clear).Full ↔ _)
      unfold Tty.ttyPacketEvent
      split
      · exact ⟨rfl, Iff.rfl⟩
      · exact ⟨rfl, Iff.rfl⟩
    rw [refuses_full hok', hsame.1, hsame.2]
    exact (refuses_full hok).mp hrefuses
  | setPacketMode | setFgGroup | takeEofKey =>
    refine .inr fun byte _ hrefuses => ?_
    exact (refuses_full hok').mpr ((refuses_full hok).mp hrefuses)

end Pscal.Terminal
