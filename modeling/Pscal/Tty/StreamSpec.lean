import Pscal.Tty.Stream
import Pscal.Tty.ThreadsSpec

/-!
# The side that is written to

In a plain run: out of line mode, without signal keys, flushes and changes of mode.

* `Tty.bytes`  the bytes in the queue;
* `ttyReadTurn_plain`, `ttyInputByte_plain`  a read takes bytes out, a byte goes in;
* `SideInv`, `SideEffect` what holds at that side, and what a step there does;
* `WriterPhase.input`  what a writer has still to put in.
-/

set_option linter.unusedSectionVars false

namespace Pscal.Terminal

open Transitions List Option Function

/-! ## chunks -/

theorem fillChunk_append (bytes : List UInt8) (outLen : Nat) :
    (fillChunk outLen bytes).1 ++ (fillChunk outLen bytes).2 = bytes := by
  induction bytes generalizing outLen with
  | nil => rfl
  | cons byte bytes ih =>
    rw [fillChunk]
    split
    · exact congrArg (byte :: ·) (ih _)
    · rfl

/-! ## the queue as bytes -/

def Tty.bytes (tty : Tty) : List UInt8 := tty.queue.text.map TtyCell.value

theorem copyRawLoop_text (size : Nat) {q : TtyQueue} (h : q.used ≤ ttyBufSize) :
    (copyRawLoop size q).1 ++ (copyRawLoop size q).2.text.map TtyCell.value =
      q.text.map TtyCell.value := by
  induction size generalizing q with
  | zero => rfl
  | succ size ih =>
    rw [copyRawLoop]
    split
    · next hpos =>
      have hpop : q.ttyQueuePop.used ≤ ttyBufSize := Nat.le_trans (Nat.sub_le _ _) h
      rw [TtyQueue.text_pop hpos h]
      exact congrArg (_ :: ·) (ih hpop)
    · rfl

variable {tty tty' : Tty}

theorem ttyCopyRaw_bytes (hok : tty.Ok) (size : Nat) :
    (ttyCopyRaw tty size).1 ++ (ttyCopyRaw tty size).2.bytes = tty.bytes := by
  have hcopy := copyRawLoop_text size (TtyQueue.Ok.fits hok).used_le
  unfold ttyCopyRaw Tty.bytes
  dsimp only
  split
  · exact hcopy
  · exact hcopy

/-! ## one side, in a plain run -/

def Tty.Timed (tty : Tty) : Prop :=
  tty.isMaster = false ∧ ((tty.termios.cc .vmin).toNat = 0 ∨ (tty.termios.cc .vtime).toNat ≠ 0)

theorem Tty.Plain.of_same (h : tty.Plain) (hsame : tty.SameModes tty') : tty'.Plain :=
  ⟨hsame.lineMode.trans h.raw, hsame.packetMode.trans h.packet, hsame.termios ▸ h.mapped,
    hsame.termios ▸ h.doubles⟩

theorem Tty.Timed.of_same (h : tty.Timed) (hmaster : tty'.isMaster = tty.isMaster)
    (htermios : tty'.termios = tty.termios) : tty'.Timed := by
  unfold Tty.Timed at h ⊢
  rw [hmaster, htermios]
  exact h

theorem ttyReadTurn_plain {size : Nat} {nonblocking : Bool} {out : Option (List UInt8)}
    (hok : tty.Ok) (hplain : tty.Plain) (hsize : 0 < size)
    (h : ttyReadTurn tty size nonblocking = .returned out tty') :
    out.getD [] ++ tty'.bytes = tty.bytes ∧ tty.SameModes tty' ∧
      (out = some [] → tty.ttyIsDown = true ∨ tty.Timed) := by
  have hcopy := ttyCopyRaw_bytes hok size
  have hsame := (ttyCopyRaw_ok hok size).2
  -- with something in the queue a read returns something
  have hsome : 0 < tty.queue.used → (ttyCopyRaw tty size).1 ≠ [] := by
    intro hpos
    obtain ⟨k, rfl⟩ : ∃ k, size = k + 1 := ⟨size - 1, by omega⟩
    have hloop : (ttyCopyRaw tty (k + 1)).1 = (copyRawLoop (k + 1) tty.queue).1 := rfl
    rw [hloop, copyRawLoop, if_pos hpos]
    exact cons_ne_nil _ _
  have hcopied : ∀ {out : Option (List UInt8)} {tty' : Tty}, 0 < tty.queue.used →
      ReadTurn.copied (ttyCopyRaw tty size) = .returned out tty' →
      out.getD [] ++ tty'.bytes = tty.bytes ∧ tty.SameModes tty' ∧
        (out = some [] → tty.ttyIsDown = true ∨ tty.Timed) := by
    intro out tty' hpos h
    obtain ⟨rfl, rfl⟩ := ReadTurn.returned.inj h
    exact ⟨hcopy, hsame, fun hout => absurd (some_inj.mp hout) (hsome hpos)⟩
  have hwaits : ∀ {timed : Bool} {out : Option (List UInt8)} {tty' : Tty},
      ReadTurn.orWait tty nonblocking timed = .returned out tty' →
      out.getD [] ++ tty'.bytes = tty.bytes ∧ tty.SameModes tty' ∧
        (out = some [] → tty.ttyIsDown = true ∨ tty.Timed) := by
    intro timed out tty' h
    unfold ReadTurn.orWait at h
    split at h
    · obtain ⟨rfl, rfl⟩ := ReadTurn.returned.inj h
      exact ⟨rfl, rfl, fun h => by cases h⟩
    · cases h
  unfold ttyReadTurn at h
  split at h
  · unfold ttyReadMasterTurn at h
    rw [hplain.packet] at h
    split at h
    · next hdown =>
      obtain ⟨rfl, rfl⟩ := ReadTurn.returned.inj h
      exact ⟨rfl, rfl, fun _ => .inl hdown⟩
    rw [Bool.false_and, if_neg Bool.false_ne_true] at h
    split at h
    · next hpos => exact hcopied hpos h
    · exact hwaits h
  · next hmaster =>
    have hslave : tty.isMaster = false := Bool.eq_false_iff.mpr hmaster
    unfold ttyReadSlaveTurn at h
    dsimp only at h
    rw [hplain.raw] at h
    split at h
    · next hdown =>
      obtain ⟨rfl, rfl⟩ := ReadTurn.returned.inj h
      exact ⟨rfl, rfl, fun _ => .inl hdown⟩
    rw [if_neg Bool.false_ne_true] at h
    split at h
    · next hmin =>
      split at h
      · next hpos => exact hcopied hpos h
      split at h
      · obtain ⟨rfl, rfl⟩ := ReadTurn.returned.inj h
        exact ⟨rfl, rfl, fun _ => .inr ⟨hslave, .inl hmin⟩⟩
      · exact hwaits h
    · next hmin =>
      split at h
      · next henough => exact hcopied (by omega) h
      split at h
      · next hpos =>
        exact hcopied (decide_eq_true_iff.mp (Bool.and_eq_true_iff.mp hpos).2) h
      · exact hwaits h

theorem ttyReadTurn_timed {size : Nat} {nonblocking : Bool} (hplain : tty.Plain)
    (h : ttyReadTurn tty size nonblocking = .waiting true) : tty.Timed := by
  have hwaits : ∀ {timed : Bool}, ReadTurn.orWait tty nonblocking timed = .waiting true →
      timed = true := by
    intro timed h
    unfold ReadTurn.orWait at h
    split at h
    · cases h
    · exact ReadTurn.waiting.inj h
  unfold ttyReadTurn at h
  split at h
  · unfold ttyReadMasterTurn at h
    rw [hplain.packet] at h
    split at h
    · cases h
    rw [Bool.false_and, if_neg Bool.false_ne_true] at h
    split at h
    · cases h
    · cases hwaits h
  · next hmaster =>
    have hslave : tty.isMaster = false := Bool.eq_false_iff.mpr hmaster
    unfold ttyReadSlaveTurn at h
    dsimp only at h
    rw [hplain.raw] at h
    split at h
    · cases h
    rw [if_neg Bool.false_ne_true] at h
    split at h
    · next hmin => exact ⟨hslave, .inl hmin⟩
    · split at h
      · cases h
      split at h
      · cases h
      · have htime := (Bool.and_eq_true_iff.mp (hwaits h)).2
        exact ⟨hslave, .inr (Nat.pos_iff_ne_zero.mp (decide_eq_true_iff.mp htime))⟩

theorem ttyInputByte_plain {run run' : TtyInputRun} {b : UInt8} {rest : Rest}
    (hplain : run.tty.Plain) (hok : run.tty.Ok) (hkey : run.tty.isSignalKey b = false)
    (h : ttyInputByte run b = some (run', rest)) : run'.tty.bytes = run.tty.bytes ++ [b] := by
  have hle := TtyQueue.Ok.fits hok |>.used_le
  unfold ttyInputByte at h
  rw [hplain.raw, if_neg Bool.false_ne_true] at h
  obtain ⟨run'', hraw, heq⟩ := map_eq_some_iff.mp h
  obtain ⟨rfl, -⟩ := Prod.mk.inj heq
  unfold ttyInputRawByte at hraw
  dsimp only at hraw
  have hnone : (if (!run.tty.isMaster && run.tty.termios.hasL Flag.isig) = true then
      ttyKeySignalIndex run.tty.termios (ttyInputMapped run.tty.termios b) else none) = none := by
    unfold Tty.isSignalKey at hkey
    split
    · next hcond =>
      rw [hcond, Bool.true_and] at hkey
      exact not_isSome_iff_eq_none.mp (by rw [hkey]; exact Bool.false_ne_true)
    · rfl
  rw [hnone, hplain.mapped] at hraw
  dsimp only at hraw
  split at hraw
  · cases hraw
  next hfull =>
  have hpush : (pushDoubled run.tty.termios run.tty.queue b
      fun q => decide (q.used < ttyBufSize)).text = run.tty.queue.text ++ [⟨b, .byte⟩] := by
    unfold pushDoubled
    dsimp only
    rw [hplain.doubles, Bool.false_and, if_neg Bool.false_ne_true]
    exact TtyQueue.text_push (by omega) b .byte
  have hbytes : ∀ run'' : TtyInputRun, run'' = run ∨ run'' = run.ttyLineEnded →
      (run''.tty.setQueue (pushDoubled run.tty.termios run''.tty.queue b
        fun q => decide (q.used < ttyBufSize))).bytes = run.tty.bytes ++ [b] := by
    rintro run'' (rfl | rfl) <;>
      exact (congrArg (List.map TtyCell.value) hpush).trans map_append
  rw [← some_inj.mp hraw]
  split
  · exact hbytes _ (.inr rfl)
  · exact hbytes _ (.inl rfl)

/-! ## the threads at the side -/

section
variable {R W : Type}

def ReaderPhase.Fine (tty : Tty) : ReaderPhase → Prop
  | .idle => True
  | .parked size timed => 0 < size ∧ (timed = true → tty.Timed)
  | .woken size => 0 < size
  | .timedOut _ => tty.Timed

def WriterPhase.rest : WriterPhase → Rest
  | .editing rest _ | .flushing rest _ => rest
  | _ => .done

def WriterPhase.input : WriterPhase → Option (List UInt8)
  | .idle => none
  | .working input | .editing _ input | .flushing _ input | .parked input | .woken input =>
    some input

structure SideInv (s : TtyWorld R W) : Prop where
  ok : s.tty.Ok
  plain : s.tty.Plain
  readers : ∀ r, (s.reader r).Fine s.tty
  /-- out of line mode nothing is left of a byte -/
  writers : ∀ w, (s.writer w).rest = .done

/-- what a step does, as those see it who write and read -/
structure SideEffect (s s' : TtyWorld R W) (out : Option (List UInt8)) (took : List (W × UInt8)) :
    Prop where
  flow : out.getD [] ++ s'.tty.bytes = s.tty.bytes ++ took.map Prod.snd
  isMaster : s'.tty.isMaster = s.tty.isMaster
  termios : s'.tty.termios = s.tty.termios
  hungUp : s.tty.hungUp = true → s'.tty.hungUp = true
  down : s.tty.ttyIsDown = true → s'.tty.ttyIsDown = true
  eof : out = some [] → s.tty.ttyIsDown = true ∨ s.tty.Timed

variable [DecidableEq R] [DecidableEq W] {s s' : TtyWorld R W}

theorem ReaderPhase.Fine.wake {tty : Tty} {phase : ReaderPhase} (h : phase.Fine tty) :
    phase.wake.Fine tty := by
  cases phase with
  | parked size timed => exact h.1
  | idle | woken size | timedOut size => exact h

theorem ReaderPhase.Fine.of_same {tty tty' : Tty} {phase : ReaderPhase} (h : phase.Fine tty)
    (hmaster : tty'.isMaster = tty.isMaster) (htermios : tty'.termios = tty.termios) :
    phase.Fine tty' := by
  cases phase with
  | parked size timed => exact ⟨h.1, fun htimed => (h.2 htimed).of_same hmaster htermios⟩
  | timedOut size => exact Tty.Timed.of_same h hmaster htermios
  | idle | woken size => exact h

theorem SideEffect.of_same (htty : s'.tty = s.tty) : SideEffect s s' none [] :=
  ⟨by rw [htty]; exact (append_nil _).symm, by rw [htty], by rw [htty], fun h => htty ▸ h,
    fun h => htty ▸ h, fun h => nomatch h⟩

theorem fine_setReader (h : ∀ r, (s.reader r).Fine s.tty) {r : R} {phase : ReaderPhase}
    (hphase : phase.Fine s.tty) (r' : R) : ((s.setReader r phase).reader r').Fine s.tty := by
  show (update s.reader r phase r').Fine s.tty
  by_cases hr : r' = r
  · rw [hr, update_self]
    exact hphase
  · rw [update_of_ne hr]
    exact h r'

theorem rest_setWriter (h : ∀ w, (s.writer w).rest = .done) {w : W} {phase : WriterPhase}
    (hphase : phase.rest = .done) (w' : W) : ((s.setWriter w phase).writer w').rest = .done := by
  show (update s.writer w phase w').rest = .done
  by_cases hw : w' = w
  · rw [hw, update_self]
    exact hphase
  · rw [update_of_ne hw]
    exact h w'

theorem SideInv.change (h : SideInv s) {tty : Tty} (hok : tty.Ok) (hplain : tty.Plain)
    (hmaster : tty.isMaster = s.tty.isMaster) (htermios : tty.termios = s.tty.termios) :
    SideInv (s.change tty) := by
  refine ⟨hok, ⟨hplain.raw, hplain.packet, hplain.mapped, hplain.doubles⟩, fun r => ?_, fun w => ?_⟩
  · have hfine : (s.reader r).Fine { tty with readable := false, writable := false } :=
      (h.readers r).of_same hmaster htermios
    show (if tty.readable then (s.reader r).wake else s.reader r).Fine _
    split
    · exact hfine.wake
    · exact hfine
  · have hrest := h.writers w
    show (if tty.writable then (s.writer w).wake else s.writer w).rest = .done
    split
    · cases hphase : s.writer w <;> rw [hphase] at hrest <;> exact hrest
    · exact hrest

theorem SideInv.rephase (h : SideInv s) (htty : s'.tty = s.tty)
    (hreaders : ∀ r, (s'.reader r).Fine s.tty) (hwriters : ∀ w, (s'.writer w).rest = .done) :
    SideInv s' :=
  ⟨htty ▸ h.ok, htty ▸ h.plain, htty ▸ hreaders, hwriters⟩

theorem SideInv.turned (h : SideInv s) (r : R) {size : Nat} (hsize : 0 < size)
    (nonblocking : Bool) : SideInv (s.turned r size (ttyReadTurn s.tty size nonblocking)) ∧
      SideEffect s (s.turned r size (ttyReadTurn s.tty size nonblocking))
        (ttyReadTurn s.tty size nonblocking).out [] := by
  cases hturn : ttyReadTurn s.tty size nonblocking with
  | returned out tty =>
    have hok := ttyReadTurn_ok h.ok hturn
    obtain ⟨hflow, hsame, heof⟩ := ttyReadTurn_plain h.ok h.plain hsize hturn
    have hidle : SideInv (s.setReader r .idle) :=
      h.rephase rfl (fine_setReader h.readers trivial) h.writers
    refine ⟨hidle.change hok (h.plain.of_same hsame) hsame.isMaster hsame.termios, ?_, hsame.isMaster,
      hsame.termios, fun hup => hsame.hungUp.trans hup, fun hdown => hsame.down.trans hdown, heof⟩
    rw [map_nil, append_nil]
    exact hflow
  | waiting timed =>
    refine ⟨h.rephase rfl (fine_setReader h.readers ⟨hsize, ?_⟩) h.writers, .of_same rfl⟩
    rintro rfl
    exact ttyReadTurn_timed h.plain hturn

theorem SideInv.called (h : SideInv s) {c : TtyCall} (hside : c.admits s.tty = true)
    (hc : c.plain = true) :
    SideInv (s.change (c.apply s.tty)) ∧ SideEffect s (s.change (c.apply s.tty)) none [] := by
  have hok := TtyCall.apply_ok h.ok hside
  have hkeeps : (c.apply s.tty).queue = s.tty.queue ∧ (c.apply s.tty).isMaster = s.tty.isMaster ∧
      (c.apply s.tty).termios = s.tty.termios ∧
      (c.apply s.tty).packetMode = s.tty.packetMode ∧
      (s.tty.hungUp = true → (c.apply s.tty).hungUp = true) ∧
      (s.tty.ttyIsDown = true → (c.apply s.tty).ttyIsDown = true) := by
    cases c with
    | flushInput | setTermios | setPacketMode => cases hc
    | setSessionReader | setFgGroup | takeEofKey =>
      exact ⟨rfl, rfl, rfl, rfl, fun h => h, fun h => h⟩
    | markHungUp => exact ⟨rfl, rfl, rfl, rfl, fun _ => rfl, fun _ => rfl⟩
    | peerHangUp => exact ⟨rfl, rfl, rfl, rfl, fun h => h, fun _ => Bool.or_true _⟩
    | packetEvent set clear =>
      show (s.tty.ttyPacketEvent set clear).queue = _ ∧ _
      unfold TtyCall.apply Tty.ttyPacketEvent
      split
      · exact ⟨rfl, rfl, rfl, rfl, fun h => h, fun h => h⟩
      · exact ⟨rfl, rfl, rfl, rfl, fun h => h, fun h => h⟩
  obtain ⟨hqueue, hmaster, htermios, hpacket, hhungUp, hdown⟩ := hkeeps
  have hplain : (c.apply s.tty).Plain := by
    refine ⟨?_, hpacket.trans h.plain.packet, htermios ▸ h.plain.mapped, htermios ▸ h.plain.doubles⟩
    rw [Tty.ttyLineMode, hmaster, htermios]
    exact h.plain.raw
  refine ⟨h.change hok hplain hmaster htermios, ?_, hmaster, htermios, hhungUp, hdown,
    fun h => nomatch h⟩
  show [] ++ (c.apply s.tty).queue.text.map TtyCell.value = s.tty.bytes ++ []
  rw [hqueue, append_nil]
  rfl

theorem SideInv.step {ev : TtyEvent R W} (h : SideInv s) (hstep : TtyStep s ev s')
    (hev : ev.PlainAt s) : SideInv s' ∧ SideEffect s s' (s.readOut ev) (s.took ev) := by
  cases hstep with
  | @byte w b input run rest hw hphase htaken =>
    have hkey := hev b input hphase
    obtain ⟨hok, hsame⟩ := @ttyInputByte_ok (s.run w) _ _ _ h.ok htaken
    have hflow := @ttyInputByte_plain (s.run w) run b rest h.plain h.ok hkey htaken
    have htook : s.took (.byte w) = [(w, b)] := by
      unfold TtyWorld.took
      dsimp only
      rw [hphase]
    have hwriters : SideInv (((s.setCollected w run.toCollected).setWriter w
        (if s.tty.ttyLineMode then .editing rest input else .working input)).change run.tty) := by
      have hraw := h.plain.raw
      refine SideInv.change (s := (s.setCollected w run.toCollected).setWriter w _)
        (h.rephase rfl h.readers (rest_setWriter (s := s) h.writers ?_)) hok
        (h.plain.of_same hsame) hsame.isMaster hsame.termios
      rw [hraw]
      rfl
    have heffect := hwriters
    rw [htook]
    generalize ((s.setCollected w run.toCollected).setWriter w
      (if s.tty.ttyLineMode then .editing rest input else .working input)) = s₁ at hwriters
    obtain ⟨hholder, hreader, hwriter⟩ : ((s₁.change run.tty).noteQueued s.tty.queue.used).tty =
        (s₁.change run.tty).tty ∧ ((s₁.change run.tty).noteQueued s.tty.queue.used).reader =
        (s₁.change run.tty).reader ∧ ((s₁.change run.tty).noteQueued s.tty.queue.used).writer =
        (s₁.change run.tty).writer := by
      unfold TtyWorld.noteQueued
      split <;> exact ⟨rfl, rfl, rfl⟩
    refine ⟨hwriters.rephase hholder (hreader ▸ hwriters.readers) (hwriter ▸ hwriters.writers), ?_⟩
    refine ⟨?_, ?_, ?_, fun hup => ?_, fun hdown => ?_, fun h => nomatch h⟩
    · rw [hholder]
      exact hflow
    · rw [hholder]
      exact hsame.isMaster
    · rw [hholder]
      exact hsame.termios
    · rw [hholder]
      exact hsame.hungUp.trans hup
    · rw [hholder]
      exact hsame.down.trans hdown
  | enter w input blocking hfree hw hinput =>
    exact ⟨h.rephase rfl h.readers (rest_setWriter (s := s) h.writers rfl), .of_same rfl⟩
  | finish w hw hphase hend =>
    have hidle : SideInv (s.setWriter w .idle) :=
      h.rephase rfl h.readers (rest_setWriter h.writers rfl)
    have hkeeps : s.tty.SameModes (inputEnd s.tty) ∧ (inputEnd s.tty).bytes = s.tty.bytes := by
      unfold inputEnd
      split <;> exact ⟨rfl, rfl⟩
    obtain ⟨hsame, hbytes⟩ := hkeeps
    have hchanged := hidle.change (inputEnd_ok h.ok) (h.plain.of_same hsame) hsame.isMaster
      hsame.termios
    refine ⟨hchanged.rephase rfl hchanged.readers hchanged.writers, ?_, hsame.isMaster,
      hsame.termios, fun hup => hsame.hungUp.trans hup, fun hdown => hsame.down.trans hdown,
      fun h => nomatch h⟩
    exact hbytes.trans (append_nil _).symm
  | @flush w b input hw hphase hfull hblocking hup =>
    have hkeeps : s.tty.SameModes (announce (s.run w)).tty ∧
        (announce (s.run w)).tty.bytes = s.tty.bytes := by
      unfold announce
      split <;> exact ⟨rfl, rfl⟩
    obtain ⟨hsame, hbytes⟩ := hkeeps
    have hflushing : SideInv ((s.setCollected w ((announce (s.run w)).toCollected.flushed
        true)).setWriter w (.flushing .done (b :: input))) :=
      h.rephase rfl h.readers (rest_setWriter (s := s) h.writers rfl)
    have hchanged := hflushing.change (announce_tty_ok (s.run w) h.ok) (h.plain.of_same hsame)
      hsame.isMaster hsame.termios
    refine ⟨hchanged.rephase rfl hchanged.readers hchanged.writers, ?_, hsame.isMaster,
      hsame.termios, fun hup => hsame.hungUp.trans hup, fun hdown => hsame.down.trans hdown,
      fun h => nomatch h⟩
    exact hbytes.trans (append_nil _).symm
  | wait w hw hphase hfull hblocking hup hout =>
    exact ⟨h.rephase rfl h.readers (rest_setWriter (s := s) h.writers rfl), .of_same rfl⟩
  | letGo w hw hphase =>
    have hrest := h.writers w
    rw [hphase] at hrest
    exact ⟨h.rephase rfl h.readers (rest_setWriter (s := s) h.writers hrest), .of_same rfl⟩
  | retake w hfree hphase =>
    have hrest := h.writers w
    rw [hphase] at hrest
    exact ⟨h.rephase rfl h.readers (rest_setWriter (s := s) h.writers hrest), .of_same rfl⟩
  | @carryOn w rest input hw hphase =>
    have hrest := h.writers w
    rw [hphase] at hrest
    obtain rfl : rest = .done := hrest
    have hworking : SideInv (s.setWriter w (if Rest.done = .done then .working input
        else .editing (restStep s.tty .done).2 input)) :=
      h.rephase rfl h.readers (rest_setWriter h.writers rfl)
    refine ⟨hworking.change h.ok h.plain rfl rfl, ?_, rfl, rfl, fun h => h, fun h => h,
      fun h => nomatch h⟩
    exact (append_nil _).symm
  | resume w hfree hphase =>
    exact ⟨h.rephase rfl h.readers (rest_setWriter (s := s) h.writers rfl), .of_same rfl⟩
  | read r size nonblocking hfree hphase hsize => exact h.turned r hsize nonblocking
  | @readMore r size hfree hphase =>
    have hfine := h.readers r
    rw [hphase] at hfine
    have hout : s.readOut (.readMore r) = (ttyReadTurn s.tty size false).out := by
      unfold TtyWorld.readOut
      dsimp only
      rw [hphase]
    rw [hout]
    exact h.turned r hfine false
  | @readTimedOut r size hfree hphase =>
    have hfine := h.readers r
    rw [hphase] at hfine
    have hout : s.readOut (.readMore r) = some (ttyCopyRaw s.tty size).1 := by
      unfold TtyWorld.readOut
      dsimp only
      rw [hphase]
    obtain ⟨hok, hsame⟩ := ttyCopyRaw_ok h.ok size
    have hidle : SideInv (s.setReader r .idle) :=
      h.rephase rfl (fine_setReader h.readers trivial) h.writers
    rw [hout]
    refine ⟨hidle.change hok (h.plain.of_same hsame) hsame.isMaster hsame.termios, ?_, hsame.isMaster,
      hsame.termios, fun hup => hsame.hungUp.trans hup, fun hdown => hsame.down.trans hdown,
      fun _ => .inr hfine⟩
    exact (ttyCopyRaw_bytes h.ok size).trans (append_nil _).symm
  | @timeout r size hphase =>
    have hfine := h.readers r
    rw [hphase] at hfine
    exact ⟨h.rephase rfl (fine_setReader h.readers (hfine.2 rfl)) h.writers, .of_same rfl⟩
  | wakeReader r hphase =>
    have hfine := h.readers r
    rw [hphase] at hfine
    exact ⟨h.rephase rfl (fine_setReader h.readers hfine.1) h.writers, .of_same rfl⟩
  | wakeWriter w hphase =>
    exact ⟨h.rephase rfl h.readers (rest_setWriter h.writers rfl), .of_same rfl⟩
  | cancelReader r hphase =>
    exact ⟨h.rephase rfl (fine_setReader h.readers trivial) h.writers, .of_same rfl⟩
  | cancelWriter w hphase =>
    exact ⟨h.rephase rfl h.readers (rest_setWriter h.writers rfl), .of_same rfl⟩
  | call c hfree hside => exact h.called hside hev
  | forgetOwner => exact h.called rfl rfl

/-! ## what the writers have still to put in -/

theorem WriterPhase.input_wake (phase : WriterPhase) (told : Bool) :
    (if told then phase.wake else phase).input = phase.input := by
  cases told with
  | false => rfl
  | true => cases phase <;> rfl

/-- what of a list of bytes is put in by `w` -/
def bytesOf (w : W) (took : List (W × UInt8)) : List UInt8 :=
  (took.filter fun p => p.1 = w).map Prod.snd

theorem input_setWriter {w w' : W} {phase : WriterPhase} (h : phase.input = (s.writer w).input) :
    ((s.setWriter w phase).writer w').input = (s.writer w').input := by
  show (update s.writer w phase w').input = _
  by_cases hw : w' = w
  · rw [hw, update_self, h]
  · rw [update_of_ne hw]

theorem TtyStep.input_eq {ev : TtyEvent R W} (h : TtyStep s ev s') (hwrite : ev.ofWrite = false)
    (w : W) : (s.writer w).input =
      (s'.writer w).input.map (bytesOf w (s.took ev) ++ ·) ∧ s'.blocking = s.blocking := by
  have hnone : ∀ {s' : TtyWorld R W}, (s'.writer w).input = (s.writer w).input →
      (s.writer w).input = (s'.writer w).input.map (bytesOf w [] ++ ·) := by
    intro s' hsame
    rw [hsame]
    exact Option.map_id'.symm
  have hchange : ∀ {s₁ : TtyWorld R W} (tty : Tty), (s₁.writer w).input = (s.writer w).input →
      (((s₁.change tty)).writer w).input = (s.writer w).input := by
    intro s₁ tty hsame
    exact (WriterPhase.input_wake _ _).trans hsame
  cases h with
  | enter | finish | cancelWriter => cases hwrite
  | @byte w' b input run rest hw hphase htaken =>
    have htook : s.took (.byte w') = [(w', b)] := by
      unfold TtyWorld.took
      dsimp only
      rw [hphase]
    rw [htook]
    have hnote : ∀ (s₁ : TtyWorld R W) (used : Nat), (s₁.noteQueued used).writer = s₁.writer ∧
        (s₁.noteQueued used).blocking = s₁.blocking := by
      intro s₁ used
      unfold TtyWorld.noteQueued
      split <;> exact ⟨rfl, rfl⟩
    rw [(hnote _ _).1, (hnote _ _).2]
    refine ⟨?_, rfl⟩
    show _ = Option.map _ (if run.tty.writable then _ else _ : WriterPhase).input
    rw [WriterPhase.input_wake]
    show _ = Option.map _ (update s.writer w' _ w).input
    by_cases hww : w = w'
    · subst hww
      rw [update_self, hphase]
      have hbytes : bytesOf w [(w, b)] = [b] := by
        unfold bytesOf
        rw [filter_cons_of_pos (by exact decide_eq_true rfl)]
        rfl
      rw [hbytes]
      split <;> rfl
    · rw [update_of_ne hww]
      have hbytes : bytesOf w [(w', b)] = [] := by
        unfold bytesOf
        rw [filter_cons_of_neg (by exact fun h => hww (of_decide_eq_true h).symm)]
        rfl
      rw [hbytes]
      exact Option.map_id'.symm
  | flush w' hw hphase hfull hblocking hup =>
    exact ⟨hnone (hchange _ (input_setWriter (s := s.setCollected w' _) (by
      show _ = (s.writer w').input
      rw [hphase]
      rfl))), rfl⟩
  | wait w' hw hphase hfull hblocking hup hout =>
    exact ⟨hnone (input_setWriter (by rw [hphase]; rfl)), rfl⟩
  | letGo w' hw hphase =>
    exact ⟨hnone (input_setWriter (s := s.setCollected w' _) (by
      show _ = (s.writer w').input
      rw [hphase]
      rfl)), rfl⟩
  | retake w' hfree hphase =>
    exact ⟨hnone (input_setWriter (s := s.take w') (by
      show _ = (s.writer w').input
      rw [hphase]
      rfl)), rfl⟩
  | carryOn w' hw hphase =>
    refine ⟨hnone (hchange _ (input_setWriter ?_)), rfl⟩
    rw [hphase]
    split <;> rfl
  | resume w' hfree hphase =>
    exact ⟨hnone (input_setWriter (s := (s.take w').setCollected w' _) (by
      show _ = (s.writer w').input
      rw [hphase]
      rfl)), rfl⟩
  | read r size nonblocking hfree hphase hsize =>
    cases ttyReadTurn s.tty size nonblocking with
    | returned out tty => exact ⟨hnone (hchange _ rfl), rfl⟩
    | waiting timed => exact ⟨hnone rfl, rfl⟩
  | @readMore r size hfree hphase =>
    cases ttyReadTurn s.tty size false with
    | returned out tty => exact ⟨hnone (hchange _ rfl), rfl⟩
    | waiting timed => exact ⟨hnone rfl, rfl⟩
  | readTimedOut r hfree hphase => exact ⟨hnone (hchange _ rfl), rfl⟩
  | timeout | wakeReader | cancelReader => exact ⟨hnone rfl, rfl⟩
  | wakeWriter w' hphase => exact ⟨hnone (input_setWriter (by rw [hphase]; rfl)), rfl⟩
  | call c hfree hside => exact ⟨hnone (hchange _ rfl), rfl⟩
  | forgetOwner => exact ⟨hnone (hchange _ rfl), rfl⟩

end

end Pscal.Terminal
