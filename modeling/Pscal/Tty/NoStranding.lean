import Pscal.Tty.EditorRuns
import Pscal.Tty.WaitersSpec

/-!
# No thread is left behind

* `Minded`  the steps that do not forget a broadcast;
* `WaitInv`, `WaitInv.step`  what holds between any two such steps;
* `noStranded`  in a run of them, whoever is parked would have to wait again;
* `Typing`, `typing_byte`  a writer at work, while the others are where they were;
* `noStranded_fails`  a writer is left behind by an erase key.
-/

set_option linter.unusedSectionVars false

namespace Pscal.Terminal

open Transitions Tty List Option Function TtyWorld

/-! ## the invariant -/

def ReaderPhase.Sized : ReaderPhase → Prop
  | .idle => True
  | .parked size _ | .woken size | .timedOut size => 0 < size

section
variable {R W : Type}

namespace TtyWorld

variable (s : TtyWorld R W)

/-- a reader is parked in a read of `size` bytes -/
def ReaderParked (size : Nat) : Prop := ∃ r timed, s.reader r = .parked size timed

/-- a writer is parked before `byte` -/
def WriterParked (byte : UInt8) : Prop := ∃ w input, s.writer w = .parked (byte :: input)

end TtyWorld

/-- a step that does not forget a broadcast, as a condition on the state before it -/
def Minded (s : TtyWorld R W) : TtyEvent R W → Prop
  | .flush w | .wait w =>
    s.notice = .owed → (s.collected w).announced = true → ∀ size, ¬ s.ReaderParked size
  | .byte w => ∀ b input, s.writer w = .working (b :: input) → s.tty.TakesBack b →
      ∀ byte, ¬ s.WriterParked byte
  | .carryOn w => ∀ rest input, s.writer w = .editing rest input →
      (rest.erases s.tty = true → ∀ byte, ¬ s.WriterParked byte) ∧
      (rest = .literalTaken → ∀ byte, s.WriterParked byte →
        (s.tty.setLiteralNext false).needsRoom byte = true)
  | .call c => c.Minds s.tty s.WriterParked
  | _ => True

structure WaitInv (s : TtyWorld R W) : Prop where
  ok : s.tty.Ok
  flags : s.tty.readable = false ∧ s.tty.writable = false
  sized : ∀ r, (s.reader r).Sized
  /-- a parked reader has too little, or the writer that holds the lock is to tell it -/
  readers : ∀ size, s.ReaderParked size →
    s.tty.Quiet ∧ (s.tty.Starved size ∨ s.holder ≠ none ∧ s.notice = .owed)
  writers : ∀ byte, s.WriterParked byte → s.tty.Full ∧ s.tty.needsRoom byte = true
  told : s.holder ≠ none → s.notice = .told → ∀ size, ¬ s.ReaderParked size
  owedRaw : s.holder ≠ none → s.notice = .owed → s.tty.ttyLineMode = false
  owedEditing : ∀ w rest input, s.holder = some w → s.writer w = .editing rest input →
    s.notice ≠ .owed

/-! ## who is parked after a step -/

section
variable [DecidableEq R] [DecidableEq W] {s : TtyWorld R W}

variable {tty : Tty} {phase : ReaderPhase} {r : R} {w : W} {s' : TtyWorld R W}

theorem TtyWorld.readerParked_change {size : Nat} (h : (s.change tty).ReaderParked size) :
    tty.readable = false ∧ s.ReaderParked size := by
  obtain ⟨r, timed, h⟩ := h
  have h : (if tty.readable then (s.reader r).wake else s.reader r) = .parked size timed := h
  cases hreadable : tty.readable with
  | true =>
    rw [hreadable, if_pos rfl] at h
    cases hphase : s.reader r <;> rw [hphase] at h <;> cases h
  | false =>
    rw [hreadable] at h
    exact ⟨rfl, r, timed, h⟩

theorem TtyWorld.writerParked_change {byte : UInt8} (h : (s.change tty).WriterParked byte) :
    tty.writable = false ∧ s.WriterParked byte := by
  obtain ⟨w, input, h⟩ := h
  have h : (if tty.writable then (s.writer w).wake else s.writer w) = .parked (byte :: input) := h
  cases hwritable : tty.writable with
  | true =>
    rw [hwritable, if_pos rfl] at h
    cases hphase : s.writer w <;> rw [hphase] at h <;> cases h
  | false =>
    rw [hwritable] at h
    exact ⟨rfl, w, input, h⟩

theorem TtyWorld.readerParked_setReader {size : Nat} (h : (s.setReader r phase).ReaderParked size) :
    (∃ timed, phase = .parked size timed) ∨ s.ReaderParked size := by
  obtain ⟨r', timed, h⟩ := h
  have h : update s.reader r phase r' = .parked size timed := h
  by_cases hr : r' = r
  · rw [hr, update_self] at h
    exact .inl ⟨timed, h⟩
  · rw [update_of_ne hr] at h
    exact .inr ⟨r', timed, h⟩

theorem TtyWorld.writerParked_setWriter {phase : WriterPhase} {byte : UInt8}
    (h : (s.setWriter w phase).WriterParked byte) :
    (∃ input, phase = .parked (byte :: input)) ∨ s.WriterParked byte := by
  obtain ⟨w', input, h⟩ := h
  have h : update s.writer w phase w' = .parked (byte :: input) := h
  by_cases hw : w' = w
  · rw [hw, update_self] at h
    exact .inl ⟨input, h⟩
  · rw [update_of_ne hw] at h
    exact .inr ⟨w', input, h⟩

theorem TtyWorld.writerParked_busy {phase : WriterPhase} {byte : UInt8}
    (hphase : ∀ input, phase ≠ .parked input) (h : (s.setWriter w phase).WriterParked byte) :
    s.WriterParked byte := by
  rcases writerParked_setWriter h with ⟨input, h⟩ | h
  · exact absurd h (hphase _)
  · exact h

theorem ReaderPhase.Sized.wake {phase : ReaderPhase} (h : phase.Sized) : phase.wake.Sized := by
  cases phase <;> exact h

theorem sized_change (h : ∀ r, (s.reader r).Sized) (tty : Tty) (r : R) :
    ((s.change tty).reader r).Sized := by
  show (if tty.readable then (s.reader r).wake else s.reader r).Sized
  split
  · exact (h r).wake
  · exact h r

theorem sized_setReader (h : ∀ r, (s.reader r).Sized) (hphase : phase.Sized) (r' : R) :
    ((s.setReader r phase).reader r').Sized := by
  show (update s.reader r phase r').Sized
  by_cases hr : r' = r
  · rw [hr, update_self]
    exact hphase
  · rw [update_of_ne hr]
    exact h r'

theorem WaitInv.size_pos (h : WaitInv s) {size : Nat} (hparked : s.ReaderParked size) :
    0 < size := by
  obtain ⟨r, timed, hphase⟩ := hparked
  have := h.sized r
  rwa [hphase] at this

theorem WaitInv.readers_free (h : WaitInv s) (hfree : s.holder = none) {size : Nat}
    (hparked : s.ReaderParked size) : s.tty.Quiet ∧ s.tty.Starved size := by
  obtain ⟨hquiet, hstarved | ⟨hlocked, -⟩⟩ := h.readers size hparked
  · exact ⟨hquiet, hstarved⟩
  · exact absurd hfree hlocked

/-! ## steps that leave the terminal -/

/-- only where the threads are changes -/
theorem WaitInv.rephase (h : WaitInv s) (htty : s'.tty = s.tty) (hsized : ∀ r, (s'.reader r).Sized)
    (hreaders : ∀ size, s'.ReaderParked size → s.ReaderParked size ∨ s.tty.Quiet ∧ s.tty.Starved
      size)
    (hwriters : ∀ byte, s'.WriterParked byte → s.WriterParked byte ∨ s.tty.Full ∧ s.tty.needsRoom
      byte = true)
    (howed : ∀ size, s'.ReaderParked size → s.holder ≠ none → s.notice = .owed → s'.holder ≠ none ∧
      s'.notice = .owed)
    (htold : s'.holder ≠ none → s'.notice = .told → s.holder ≠ none ∧ s.notice = .told ∧ ∀ size,
      s'.ReaderParked size → s.ReaderParked size)
    (howedRaw : s'.holder ≠ none → s'.notice = .owed → s.holder ≠ none ∧ s.notice = .owed)
    (howedEditing : ∀ w rest input, s'.holder = some w → s'.writer w = .editing rest input →
      s'.notice ≠ .owed) : WaitInv s' where
  ok := htty ▸ h.ok
  flags := htty ▸ h.flags
  sized := hsized
  readers := by
    intro size hparked
    rw [htty]
    rcases hreaders size hparked with hold | hnew
    · obtain ⟨hquiet, hstarved | ⟨hlocked, hnotice⟩⟩ := h.readers size hold
      · exact ⟨hquiet, .inl hstarved⟩
      · exact ⟨hquiet, .inr (howed size hparked hlocked hnotice)⟩
    · exact ⟨hnew.1, .inl hnew.2⟩
  writers := by
    intro byte hparked
    rw [htty]
    rcases hwriters byte hparked with hold | hnew
    · exact h.writers byte hold
    · exact hnew
  told := by
    intro hlocked hnotice size hparked
    obtain ⟨hlocked', hnotice', hsub⟩ := htold hlocked hnotice
    exact h.told hlocked' hnotice' size (hsub size hparked)
  owedRaw := by
    intro hlocked hnotice
    obtain ⟨hlocked', hnotice'⟩ := howedRaw hlocked hnotice
    rw [htty]
    exact h.owedRaw hlocked' hnotice'
  owedEditing := howedEditing

theorem WaitInv.taken (h : WaitInv s) (hfree : s.holder = none) (htty : s'.tty = s.tty)
    (hreader : s'.reader = s.reader) (hnotice : s'.notice = .nothing)
    (hwriters : ∀ byte, s'.WriterParked byte → s.WriterParked byte) : WaitInv s' := by
  refine h.rephase htty (hreader ▸ h.sized) (fun size hp => .inl ?_)
    (fun byte hp => .inl (hwriters byte hp)) (fun _ _ hlocked => absurd hfree hlocked)
    (fun _ hn => ?_) (fun _ hn => ?_) (fun _ _ _ _ _ hn => ?_)
  · unfold TtyWorld.ReaderParked at hp ⊢
    rwa [hreader] at hp
  · rw [hnotice] at hn
    cases hn
  · rw [hnotice] at hn
    cases hn
  · rw [hnotice] at hn
    cases hn

theorem WaitInv.reader_moves (h : WaitInv s) (hphase : phase.Sized)
    (hparked : ∀ size timed, phase ≠ .parked size timed) : WaitInv (s.setReader r phase) := by
  have hsub : ∀ size, (s.setReader r phase).ReaderParked size → s.ReaderParked size := by
    intro size hp
    rcases readerParked_setReader hp with ⟨timed, h'⟩ | hp
    · exact absurd h' (hparked size timed)
    · exact hp
  exact h.rephase rfl (sized_setReader h.sized hphase) (fun size hp => .inl (hsub size hp))
    (fun _ hp => .inl hp) (fun _ _ hlocked hnotice => ⟨hlocked, hnotice⟩)
    (fun hlocked hnotice => ⟨hlocked, hnotice, hsub⟩)
    (fun hlocked hnotice => ⟨hlocked, hnotice⟩) h.owedEditing

theorem WaitInv.writer_moves (h : WaitInv s) {phase : WriterPhase}
    (hparked : ∀ input, phase ≠ .parked input)
    (hediting : ∀ rest input, phase ≠ .editing rest input) : WaitInv (s.setWriter w phase) := by
  refine h.rephase rfl h.sized (fun _ hp => .inl hp)
    (fun _ hp => .inl (writerParked_busy hparked hp))
    (fun _ _ hlocked hnotice => ⟨hlocked, hnotice⟩)
    (fun hlocked hnotice => ⟨hlocked, hnotice, fun _ hp => hp⟩)
    (fun hlocked hnotice => ⟨hlocked, hnotice⟩) fun w' rest input hlock hphase => ?_
  have hphase : update s.writer w phase w' = .editing rest input := hphase
  by_cases hw : w' = w
  · rw [hw, update_self] at hphase
    exact absurd hphase (hediting rest input)
  · rw [update_of_ne hw] at hphase
    exact h.owedEditing w' rest input hlock hphase

theorem WaitInv.unlocked (h : WaitInv s) (htty : s'.tty = s.tty) (hholder : s'.holder = none)
    (hreader : s'.reader = s.reader)
    (hwriters : ∀ byte, s'.WriterParked byte → s.WriterParked byte ∨ s.tty.Full ∧ s.tty.needsRoom
      byte = true) (hnothing : s.holder ≠ none → s.notice = .owed → ∀ size, ¬ s.ReaderParked size) :
    WaitInv s' := by
  have hsame : ∀ size, s'.ReaderParked size ↔ s.ReaderParked size := fun size => by
    unfold TtyWorld.ReaderParked
    rw [hreader]
  exact h.rephase htty (hreader ▸ h.sized) (fun size hp => .inl ((hsame size).mp hp)) hwriters
    (fun size hp hlocked hnotice => absurd ((hsame size).mp hp) (hnothing hlocked hnotice size))
    (fun hlocked => absurd hholder hlocked) (fun hlocked => absurd hholder hlocked)
    fun w _ _ hlock => by rw [hholder] at hlock; cases hlock

/-! ## steps that change the terminal -/

theorem WaitInv.changed (h : WaitInv s) (hfree : s.holder = none) (hok : tty.Ok)
    (hreaders : KeepsReaders s.tty tty)
    (hwriters : tty.writable = true ∨ ∀ byte, s.WriterParked byte → s.tty.Refuses byte → tty.Refuses
      byte) : WaitInv (s.change tty) where
  ok := hok
  flags := ⟨rfl, rfl⟩
  sized := sized_change h.sized tty
  readers := by
    intro size hp
    obtain ⟨hreadable, hparked⟩ := readerParked_change hp
    rcases hreaders with htold | hkeeps
    · rw [hreadable] at htold
      cases htold
    · have hwaits := waits_iff.mpr (h.readers_free hfree hparked)
      obtain ⟨hquiet, hstarved⟩ := waits_iff.mp (hkeeps size (h.size_pos hparked) hwaits)
      exact ⟨⟨hquiet.up, hquiet.packet, hquiet.timer⟩, .inl hstarved⟩
  writers := by
    intro byte hp
    obtain ⟨hwritable, hparked⟩ := writerParked_change hp
    rcases hwriters with htold | hkeeps
    · rw [hwritable] at htold
      cases htold
    · exact (refuses_full hok).mp
        (hkeeps byte hparked ((refuses_full h.ok).mpr (h.writers byte hparked)))
  told := fun hlocked => absurd hfree hlocked
  owedRaw := fun hlocked => absurd hfree hlocked
  owedEditing := fun w _ _ hlock => by
    have hlock : s.holder = some w := hlock
    rw [hfree] at hlock
    cases hlock

theorem WaitInv.turned (h : WaitInv s) (hfree : s.holder = none) (r : R) {size : Nat}
    (hsize : 0 < size) (nonblocking : Bool) :
    WaitInv (s.turned r size (ttyReadTurn s.tty size nonblocking)) := by
  cases hturn : ttyReadTurn s.tty size nonblocking with
  | returned out tty =>
    have hok := ttyReadTurn_ok h.ok hturn
    have heffect := ttyReadTurn_effect hturn
    have hidle : WaitInv (s.setReader r .idle) :=
      h.reader_moves trivial fun _ _ h => nomatch h
    refine hidle.changed hfree hok heffect.keepsReaders ?_
    rcases heffect.keepsWriters h.ok hok with htold | hkeeps
    · exact .inl htold
    · exact .inr fun byte _ => hkeeps byte
  | waiting timed =>
    have hnew := waiting_spec hturn
    refine h.rephase rfl (sized_setReader h.sized hsize) (fun size' hp => ?_)
      (fun _ hp => .inl hp) (fun _ _ hlocked => absurd hfree hlocked)
      (fun hlocked => absurd hfree hlocked) (fun hlocked => absurd hfree hlocked) h.owedEditing
    rcases readerParked_setReader hp with ⟨timed', h'⟩ | hp
    · cases h'
      exact .inr hnew
    · exact .inl hp

theorem TtyWorld.noteQueued_notice (s : TtyWorld R W) (used : Nat) :
    (s.noteQueued used).notice = s.notice ∧
        (s.tty.ttyLineMode = false → used < s.tty.queue.used → s.notice ≠ .nothing) ∨
      (s.noteQueued used).notice = .owed ∧ s.tty.ttyLineMode = false ∧ s.notice = .nothing := by
  unfold noteQueued
  split
  · next h =>
    obtain ⟨h, hnotice⟩ := Bool.and_eq_true_iff.mp h
    obtain ⟨hraw, -⟩ := Bool.and_eq_true_iff.mp h
    rw [Bool.not_eq_true'] at hraw
    exact .inr ⟨rfl, hraw, beq_iff_eq.mp hnotice⟩
  · next h =>
    refine .inl ⟨rfl, fun hraw hused hnotice => h ?_⟩
    rw [hraw, hnotice, decide_eq_true hused]
    rfl

theorem WaitInv.byte (h : WaitInv s) {w : W} {b : UInt8} {input : List UInt8} {run : TtyInputRun}
    {rest : Rest} (hw : s.holder = some w) (hphase : s.writer w = .working (b :: input))
    (htaken : ttyInputByte (s.run w) b = some (run, rest)) (hminded : Minded s (.byte w)) :
    WaitInv ((((s.setCollected w run.toCollected).setWriter w
      (if s.tty.ttyLineMode then .editing rest input else .working input)).change
        run.tty).noteQueued s.tty.queue.used) := by
  obtain ⟨hok, hmodes⟩ := @ttyInputByte_ok (s.run w) _ _ _ h.ok htaken
  have hmodes : s.tty.SameModes run.tty := hmodes
  have hlocked : s.holder ≠ none := by
    rw [hw]
    exact some_ne_none w
  generalize hphase' : (if s.tty.ttyLineMode then WriterPhase.editing rest input
    else .working input) = phase'
  have hbusy : ∀ input, phase' ≠ .parked input := fun _ => by
    rw [← hphase']
    split <;> exact fun h => nomatch h
  generalize hs₁ : ((s.setCollected w run.toCollected).setWriter w phase').change run.tty = s₁
  obtain ⟨hholder, hreader, hwriter⟩ := s₁.noteQueued_fields s.tty.queue.used
  have htty : (s₁.noteQueued s.tty.queue.used).tty =
      { run.tty with readable := false, writable := false } := by
    rw [noteQueued_tty, ← hs₁]
    rfl
  have hline : s₁.tty.ttyLineMode = s.tty.ttyLineMode := by
    rw [← hs₁]
    exact hmodes.lineMode
  have hqueue : s₁.tty.queue = run.tty.queue := by
    rw [← hs₁]
    rfl
  have hlocked₁ : s₁.holder ≠ none := by
    rw [← hs₁]
    exact hlocked
  have hreaders : ∀ size, (s₁.noteQueued s.tty.queue.used).ReaderParked size →
      run.tty.readable = false ∧ s.ReaderParked size := fun size hp => by
    unfold TtyWorld.ReaderParked at hp
    rw [hreader, ← hs₁] at hp
    exact readerParked_change hp
  have hwriters : ∀ byte, (s₁.noteQueued s.tty.queue.used).WriterParked byte →
      run.tty.writable = false ∧ s.WriterParked byte := fun byte hp => by
    unfold TtyWorld.WriterParked at hp
    rw [hwriter, ← hs₁] at hp
    obtain ⟨hwritable, hp⟩ := writerParked_change hp
    exact ⟨hwritable, writerParked_busy (s := s.setCollected w _) hbusy hp⟩
  have hnotice₁ : s₁.notice = if run.tty.readable then .told else s.notice := by
    rw [← hs₁]
    rfl
  have howedRaw : (s₁.noteQueued s.tty.queue.used).notice = .owed →
      s.tty.ttyLineMode = false := fun hnotice => by
    rcases s₁.noteQueued_notice s.tty.queue.used with ⟨hsame, -⟩ | ⟨-, hraw, -⟩
    · rw [hsame, hnotice₁] at hnotice
      split at hnotice
      · cases hnotice
      · exact h.owedRaw hlocked hnotice
    · exact hline ▸ hraw
  refine ⟨htty ▸ hok, htty ▸ ⟨rfl, rfl⟩, ?_, ?_, ?_, ?_, ?_, ?_⟩
  · rw [hreader, ← hs₁]
    exact sized_change (s := (s.setCollected w _).setWriter w _) h.sized run.tty
  · -- the readers
    intro size hp
    obtain ⟨hreadable, hparked⟩ := hreaders size hp
    obtain ⟨hquiet, hstarved⟩ := h.readers size hparked
    have hquiet' : run.tty.Quiet := hmodes.quiet hquiet
    rw [htty, hholder]
    refine ⟨⟨hquiet'.up, hquiet'.packet, hquiet'.timer⟩, ?_⟩
    rw [hreadable] at hnotice₁
    by_cases hmode : s.tty.ttyLineMode = true
    · refine .inl ?_
      have hzero : s.tty.queue.released = 0 := by
        rcases hstarved with hstarved | ⟨-, hnotice⟩
        · exact (Starved.of_line hmode).mp hstarved
        · rw [h.owedRaw hlocked hnotice] at hmode
          cases hmode
      rw [ttyInputByte, if_pos (show (s.run w).tty.ttyLineMode = true from hmode)] at htaken
      rcases ttyInputLineByte_readers htaken with htold | hle
      · rw [hreadable] at htold
        cases htold
      · have hzero' : run.tty.queue.released = 0 := by
          have hle : run.tty.queue.released ≤ s.tty.queue.released := hle
          omega
        exact (Starved.of_line (hmodes.lineMode.trans hmode)).mpr hzero'
    · rw [Bool.not_eq_true] at hmode
      have hnottold : s.notice ≠ .told := fun htold => h.told hlocked htold size hparked
      rcases s₁.noteQueued_notice s.tty.queue.used with ⟨hsame, hnew⟩ | ⟨howed, -⟩
      · rw [hsame]
        rw [hline, hqueue, hnotice₁] at hnew
        rcases hstarved with hstarved | ⟨-, hnotice⟩
        · by_cases hused : s.tty.queue.used < run.tty.queue.used
          · -- it was owed a word before
            refine .inr ⟨hlocked₁, ?_⟩
            have hnothing := hnew hmode hused
            rw [hnotice₁]
            cases hnotice : s.notice with
            | nothing => exact absurd hnotice hnothing
            | owed => rfl
            | told => exact absurd hnotice hnottold
          · have hreleased : run.tty.queue.released = 0 :=
              hok.raw (hmodes.lineMode.trans hmode)
            exact .inl (hstarved.mono hmodes.isMaster hmodes.lineMode
              (congrArg (·.cc .vmin) hmodes.termios) (by show run.tty.queue.used ≤ _; omega)
              (by show run.tty.queue.released ≤ _; omega))
        · refine .inr ⟨hlocked₁, ?_⟩
          rw [hnotice₁]
          exact hnotice
      · exact .inr ⟨hlocked₁, howed⟩
  · -- the writers
    intro byte hp
    obtain ⟨hwritable, hparked⟩ := hwriters byte hp
    obtain ⟨hfull, hneeds⟩ := h.writers byte hparked
    rw [htty]
    rcases @ttyInputByte_writers (s.run w) _ _ _ hfull htaken with
      htold | hsame | ⟨hmode, hsame⟩ | htakes
    · rw [hwritable] at htold
      cases htold
    · rw [hsame]
      exact ⟨hfull, hneeds⟩
    · rw [hsame]
      refine ⟨hfull, ?_⟩
      have hmode : s.tty.ttyLineMode = true := hmode
      show (if s.tty.ttyLineMode then _ else _) = true
      rw [if_pos hmode]
      rfl
    · exact absurd hparked (hminded b input hphase htakes byte)
  · -- readers that were told are gone
    intro _ hnotice size hp
    obtain ⟨hreadable, hparked⟩ := hreaders size hp
    rw [hreadable] at hnotice₁
    rcases s₁.noteQueued_notice s.tty.queue.used with ⟨hsame, -⟩ | ⟨howed, -⟩
    · rw [hsame, hnotice₁] at hnotice
      exact h.told hlocked hnotice size hparked
    · rw [howed] at hnotice
      cases hnotice
  · intro _ hnotice
    rw [htty]
    exact hmodes.lineMode.trans (howedRaw hnotice)
  · intro w' rest' input' hlock hediting hnotice
    have hraw := howedRaw hnotice
    rw [hholder, ← hs₁] at hlock
    have hlock : s.holder = some w' := hlock
    obtain rfl : w' = w := some_inj.mp (hlock.symm.trans hw)
    rw [hwriter, ← hs₁] at hediting
    have hediting : (if run.tty.writable then
        (update s.writer w' phase' w').wake else update s.writer w' phase' w') =
        .editing rest' input' := hediting
    rw [update_self, ← hphase', hraw, if_neg Bool.false_ne_true] at hediting
    split at hediting <;> cases hediting

theorem WaitInv.carryOn (h : WaitInv s) {w : W} {rest : Rest} {input : List UInt8}
    (hw : s.holder = some w) (hphase : s.writer w = .editing rest input)
    (hminded : Minded s (.carryOn w)) : WaitInv ((s.setWriter w (if rest = .done then .working input
      else .editing (restStep s.tty rest).2 input)).change (restStep s.tty rest).1) := by
  have hmodes := restStep_modes s.tty rest
  have hok := restStep_ok h.ok rest
  have hlocked : s.holder ≠ none := by
    rw [hw]
    exact some_ne_none w
  have hnotOwed := h.owedEditing w rest input hw hphase
  obtain ⟨hkills, hliteral⟩ := hminded rest input hphase
  have hused : (restStep s.tty rest).1.queue.used ≤ s.tty.queue.used ∧
      (restStep s.tty rest).1.queue.released = s.tty.queue.released ∧
      (restStep s.tty rest).1.readable = s.tty.readable := by
    rcases restStep_cases s.tty rest with ⟨-, hsame⟩ | hsame | ⟨-, hsame⟩
    · rw [hsame]
      exact ⟨Nat.sub_le _ _, rfl, rfl⟩
    · rw [hsame]
      exact ⟨Nat.le_refl _, rfl, rfl⟩
    · rw [hsame]
      exact ⟨Nat.le_refl _, rfl, rfl⟩
  have hreadable : (restStep s.tty rest).1.readable = false := hused.2.2.trans h.flags.1
  have hnotice : ∀ s' : TtyWorld R W, (s'.change (restStep s.tty rest).1).notice = s'.notice :=
    fun s' => by
      show (if (restStep s.tty rest).1.readable then _ else _) = _
      rw [hreadable, if_neg Bool.false_ne_true]
  refine ⟨hok, ⟨rfl, rfl⟩, sized_change (s := s.setWriter w _) h.sized _, ?_, ?_, ?_, ?_, ?_⟩
  · intro size hp
    obtain ⟨-, hparked⟩ := readerParked_change hp
    obtain ⟨hquiet, hstarved⟩ := h.readers size hparked
    have hquiet' := hmodes.quiet hquiet
    refine ⟨⟨hquiet'.up, hquiet'.packet, hquiet'.timer⟩, ?_⟩
    rcases hstarved with hstarved | ⟨-, howed⟩
    · exact .inl (hstarved.mono hmodes.isMaster hmodes.lineMode
        (congrArg (·.cc .vmin) hmodes.termios) hused.1 (Nat.le_of_eq hused.2.1))
    · exact absurd howed hnotOwed
  · intro byte hp
    obtain ⟨-, hp⟩ := writerParked_change hp
    have hparked : s.WriterParked byte := writerParked_busy
      (fun _ => by split <;> exact fun h => nomatch h) hp
    obtain ⟨hfull, hneeds⟩ := h.writers byte hparked
    rcases restStep_cases s.tty rest with ⟨herases, -⟩ | hsame | ⟨htaken, hsame⟩
    · exact absurd hparked (hkills herases byte)
    · rw [hsame]
      exact ⟨hfull, hneeds⟩
    · rw [hsame]
      exact ⟨hfull, hliteral htaken byte hparked⟩
  · intro _ hn size hp
    rw [hnotice] at hn
    exact h.told hlocked hn size (readerParked_change hp).2
  · intro _ hn
    rw [hnotice] at hn
    exact absurd hn hnotOwed
  · intro _ _ _ _ _
    rw [hnotice]
    exact hnotOwed

theorem WaitInv.finish (h : WaitInv s) {w : W} (hw : s.holder = some w) :
    WaitInv (((s.setWriter w .idle).change (inputEnd s.tty)).unlock) := by
  have hlocked : s.holder ≠ none := by
    rw [hw]
    exact some_ne_none w
  have hsame : inputEnd s.tty = s.tty ∨
      inputEnd s.tty = s.tty.broadcastReadable := by
    unfold inputEnd
    split
    · exact .inr rfl
    · exact .inl rfl
  have hsized : ∀ r, (((s.setWriter w .idle).change (inputEnd s.tty)).reader r).Sized :=
    sized_change (s := s.setWriter w .idle) h.sized _
  refine ⟨inputEnd_ok h.ok, ⟨rfl, rfl⟩, hsized, ?_, ?_, fun h => absurd rfl h,
    fun h => absurd rfl h, fun _ _ _ h => nomatch h⟩
  · intro size hp
    obtain ⟨hreadable, hparked⟩ :=
      readerParked_change (s := s.setWriter w .idle) hp
    have hparked : s.ReaderParked size := hparked
    obtain ⟨hquiet, hstarved⟩ := h.readers size hparked
    rcases hsame with hend | hend
    · rw [hend] at hreadable
      have hstarved' : s.tty.Starved size := by
        rcases hstarved with hstarved | ⟨-, howed⟩
        · exact hstarved
        · -- nothing is queued, or the readers would have been told
          have hraw := h.owedRaw hlocked howed
          have hused : s.tty.queue.used = 0 := by
            by_contra hne
            unfold inputEnd at hend
            rw [hraw, decide_eq_true (Nat.pos_of_ne_zero hne)] at hend
            have htrue := congrArg Tty.readable hend
            rw [h.flags.1] at htrue
            cases htrue
          exact .of_empty (h.size_pos hparked) hused (h.ok.raw hraw)
      show Tty.Quiet { inputEnd s.tty with readable := false, writable := false } ∧ _
      rw [hend]
      exact ⟨⟨hquiet.up, hquiet.packet, hquiet.timer⟩, .inl hstarved'⟩
    · rw [hend] at hreadable
      cases hreadable
  · intro byte hp
    obtain ⟨-, hp⟩ := writerParked_change (s := s.setWriter w .idle) hp
    have hparked : s.WriterParked byte :=
      writerParked_busy (fun _ => by exact fun h => nomatch h) hp
    have hold := h.writers byte hparked
    show Tty.Full { inputEnd s.tty with readable := false, writable := false } ∧ _
    rcases hsame with hend | hend
    · rw [hend]
      exact hold
    · rw [hend]
      exact hold

theorem WaitInv.flush (h : WaitInv s) {w : W} {c : Collected} {phase : WriterPhase}
    (hw : s.holder = some w) (hphase : ∀ input, phase ≠ .parked input)
    (hminded : Minded s (.flush w)) :
    WaitInv ((((s.setCollected w c).setWriter w phase).change (announce (s.run w)).tty).unlock) := by
  have hlocked : s.holder ≠ none := by
    rw [hw]
    exact some_ne_none w
  have hsame : (announce (s.run w)).tty = s.tty ∧
        (s.tty.ttyLineMode = true ∨ (s.collected w).announced = true) ∨
      (announce (s.run w)).tty = s.tty.broadcastReadable := by
    unfold announce
    split
    · exact .inr rfl
    · next hcond =>
      refine .inl ⟨rfl, ?_⟩
      rw [Bool.and_eq_true, not_and_or, Bool.not_eq_true', Bool.not_eq_true',
        Bool.not_eq_false, Bool.not_eq_false] at hcond
      exact hcond
  have hsized : ∀ r, ((((s.setCollected w c).setWriter w phase).change
      (announce (s.run w)).tty).reader r).Sized :=
    sized_change (s := (s.setCollected w c).setWriter w phase) h.sized _
  refine ⟨announce_tty_ok (s.run w) h.ok, ⟨rfl, rfl⟩, hsized, ?_, ?_, fun h => absurd rfl h,
    fun h => absurd rfl h, fun _ _ _ h => nomatch h⟩
  · intro size hp
    obtain ⟨hreadable, hparked⟩ :=
      readerParked_change (s := (s.setCollected w c).setWriter w phase) hp
    have hparked : s.ReaderParked size := hparked
    obtain ⟨hquiet, hstarved⟩ := h.readers size hparked
    rcases hsame with ⟨hend, hwhy⟩ | hend
    · have hstarved' : s.tty.Starved size := by
        rcases hstarved with hstarved | ⟨-, howed⟩
        · exact hstarved
        · rcases hwhy with hline | hannounced
          · rw [h.owedRaw hlocked howed] at hline
            cases hline
          · exact absurd hparked (hminded howed hannounced size)
      show Tty.Quiet { (announce (s.run w)).tty with readable := false, writable := false } ∧ _
      rw [hend]
      exact ⟨⟨hquiet.up, hquiet.packet, hquiet.timer⟩, .inl hstarved'⟩
    · rw [hend] at hreadable
      cases hreadable
  · intro byte hp
    obtain ⟨-, hp⟩ :=
      writerParked_change (s := (s.setCollected w c).setWriter w phase) hp
    have hparked : s.WriterParked byte :=
      writerParked_busy (s := s.setCollected w c) hphase hp
    have hold := h.writers byte hparked
    show Tty.Full { (announce (s.run w)).tty with readable := false, writable := false } ∧ _
    rcases hsame with ⟨hend, -⟩ | hend
    · rw [hend]
      exact hold
    · rw [hend]
      exact hold

theorem WaitInv.timedOut (h : WaitInv s) (hfree : s.holder = none) (r : R) (size : Nat) :
    WaitInv ((s.setReader r .idle).change (ttyCopyRaw s.tty size).2) := by
  have heffect := ttyCopyRaw_effect s.tty size
  have hok := (ttyCopyRaw_ok h.ok size).1
  have hidle : WaitInv (s.setReader r .idle) := h.reader_moves trivial fun _ _ h => nomatch h
  refine hidle.changed hfree hok heffect.keepsReaders ?_
  rcases heffect.keepsWriters h.ok hok with htold | hkeeps
  · exact .inl htold
  · exact .inr fun byte _ => hkeeps byte

theorem WaitInv.forgetOwner (h : WaitInv s) :
    WaitInv (s.change ((TtyCall.setFgGroup 0).apply s.tty)) := by
  have hreadable : ((TtyCall.setFgGroup 0).apply s.tty).readable = false := h.flags.1
  have hwritable : ((TtyCall.setFgGroup 0).apply s.tty).writable = false := h.flags.2
  have hnotice : (s.change ((TtyCall.setFgGroup 0).apply s.tty)).notice = s.notice := by
    show (if ((TtyCall.setFgGroup 0).apply s.tty).readable then _ else _) = _
    rw [hreadable, if_neg Bool.false_ne_true]
  refine ⟨h.ok, ⟨rfl, rfl⟩, sized_change h.sized _, ?_, ?_, ?_, ?_, ?_⟩
  · intro size hp
    obtain ⟨hquiet, hstarved⟩ := h.readers size (readerParked_change hp).2
    rw [hnotice]
    exact ⟨⟨hquiet.up, hquiet.packet, hquiet.timer⟩, hstarved⟩
  · exact fun byte hp => h.writers byte (writerParked_change hp).2
  · intro hlocked hn size hp
    rw [hnotice] at hn
    exact h.told hlocked hn size (readerParked_change hp).2
  · intro hlocked hn
    rw [hnotice] at hn
    exact h.owedRaw hlocked hn
  · intro w rest input hlock hphase
    rw [hnotice]
    have hphase : (if ((TtyCall.setFgGroup 0).apply s.tty).writable then (s.writer w).wake
      else s.writer w) = .editing rest input := hphase
    rw [hwritable, if_neg Bool.false_ne_true] at hphase
    exact h.owedEditing w rest input hlock hphase

theorem WaitInv.step {s' : TtyWorld R W} {e : TtyEvent R W} (h : WaitInv s)
    (hstep : TtyStep s e s') (hminded : Minded s e) : WaitInv s' := by
  cases hstep with
  | enter w input blocking hfree hw hinput =>
    refine h.taken hfree rfl rfl rfl fun byte hp => ?_
    exact writerParked_busy (s := ((s.take w).setBlocking w _).setCollected w _)
      (fun _ => by exact fun h => nomatch h) hp
  | byte w hw hphase htaken => exact h.byte hw hphase htaken hminded
  | finish w hw hphase hend => exact h.finish hw
  | flush w hw hphase hfull hblocking hup => exact h.flush hw (fun _ h => nomatch h) hminded
  | wait w hw hphase hfull hblocking hup hout =>
    refine h.unlocked rfl rfl rfl (fun byte hp => ?_) fun hlocked howed => ?_
    · rcases writerParked_setWriter (s := s) hp with ⟨input', h'⟩ | hp
      · cases h'
        exact .inr ((refuses_iff h.ok _ _).mp hfull)
      · exact .inl hp
    · -- out of line mode it announced the queue before, and nothing was to be flushed
      refine hminded howed ?_
      by_contra hnot
      rw [Bool.not_eq_true] at hnot
      have hraw := h.owedRaw hlocked howed
      have hwake := congrArg Collected.wakePollers hout
      unfold announce at hwake
      rw [if_pos (show (!(s.run w).tty.ttyLineMode && !(s.run w).announced) = true by
        rw [show (s.run w).tty.ttyLineMode = false from hraw,
          show (s.run w).announced = false from hnot]
        rfl)] at hwake
      cases hwake
  | letGo w hw hphase =>
    refine h.unlocked rfl rfl rfl (fun byte hp => .inl ?_) fun _ howed => ?_
    · exact writerParked_busy (s := s.setCollected w _)
        (fun _ => by exact fun h => nomatch h) hp
    · exact absurd howed (h.owedEditing w _ _ hw hphase)
  | retake w hfree hphase =>
    refine h.taken hfree rfl rfl rfl fun byte hp => ?_
    exact writerParked_busy (s := s.take w) (fun _ => by exact fun h => nomatch h) hp
  | carryOn w hw hphase => exact h.carryOn hw hphase hminded
  | resume w hfree hphase =>
    refine h.taken hfree rfl rfl rfl fun byte hp => ?_
    exact writerParked_busy (s := (s.take w).setCollected w _)
      (fun _ => by exact fun h => nomatch h) hp
  | read r size nonblocking hfree hphase hsize => exact h.turned hfree r hsize nonblocking
  | readMore r hfree hphase =>
    refine h.turned hfree r ?_ false
    have := h.sized r
    rwa [hphase] at this
  | readTimedOut r hfree hphase => exact h.timedOut hfree r _
  | timeout r hphase =>
    refine h.reader_moves ?_ fun _ _ h => nomatch h
    have := h.sized r
    rwa [hphase] at this
  | wakeReader r hphase =>
    refine h.reader_moves ?_ fun _ _ h => nomatch h
    have := h.sized r
    rwa [hphase] at this
  | wakeWriter w hphase => exact h.writer_moves (fun _ h => nomatch h) fun _ _ h => nomatch h
  | cancelReader r hphase => exact h.reader_moves trivial fun _ _ h => nomatch h
  | cancelWriter w hphase => exact h.writer_moves (fun _ h => nomatch h) fun _ _ h => nomatch h
  | call c hfree hside =>
    exact h.changed hfree (TtyCall.apply_ok h.ok hside) c.keepsReaders
      (c.keepsWriters h.ok hside hminded)
  | forgetOwner => exact h.forgetOwner

theorem WaitInv.start (isMaster : Bool) : WaitInv (TtyWorld.start isMaster : TtyWorld R W) where
  ok := ttyCreate_ok isMaster
  flags := ⟨rfl, rfl⟩
  sized := fun _ => trivial
  readers := fun _ ⟨_, _, h⟩ => nomatch h
  writers := fun _ ⟨_, _, h⟩ => nomatch h
  told := fun h => absurd rfl h
  owedRaw := fun h => absurd rfl h
  owedEditing := fun _ _ _ h => nomatch h

/-- in a run whose steps forget no broadcast, with the lock free whoever is parked would have to
wait again -/
theorem noStranded {isMaster : Bool} {tr : List (TtyEvent R W)} {s : TtyWorld R W}
    (h : Run (fun s e s' => TtyStep s e s' ∧ Minded s e) (TtyWorld.start isMaster) tr s)
    (hfree : s.holder = none) :
    (∀ r size timed, s.reader r = .parked size timed → s.tty.Waits size) ∧
      ∀ w b input, s.writer w = .parked (b :: input) → s.tty.Refuses b := by
  have hinv : WaitInv s := h.invariant (I := fun _ s => WaitInv s) (.start isMaster)
    fun _ _ _ _ hinv hstep => hinv.step hstep.1 hstep.2
  refine ⟨fun r size timed hphase => ?_, fun w b input hphase => ?_⟩
  · exact waits_iff.mpr (hinv.readers_free hfree ⟨r, timed, hphase⟩)
  · exact (refuses_full hinv.ok).mpr (hinv.writers b ⟨w, input, hphase⟩)

end

end

/-- a read of a slave just made is parked -/
theorem noStranded_read : ∃ (tr : List (TtyEvent Unit Unit)) (s : TtyWorld Unit Unit),
    Run (fun s e s' => TtyStep s e s' ∧ Minded s e) (TtyWorld.start false) tr s ∧
      s.reader () = .parked 1 false ∧ s.tty.Waits 1 := by
  have hstep := TtyStep.read (s := start (W := Unit) false) () 1 false rfl rfl Nat.one_pos
  have hstart : Run (fun (s : TtyWorld Unit Unit) e s' => TtyStep s e s' ∧ Minded s e)
      (start false) [] _ := .start
  have hrun := hstart.next ⟨hstep, trivial⟩
  exact ⟨_, _, hrun, rfl, (noStranded hrun rfl).1 () 1 false rfl⟩

/-! ## a writer at work -/

section
variable {R W : Type} [DecidableEq R] [DecidableEq W]

/-- a writer holds the lock with `input` still to put in, the terminal is an editor, and all other
threads are as they were -/
structure Typing (s₀ s : TtyWorld R W) (w : W) (e : Editor) (input : List UInt8) : Prop where
  holder : s.holder = some w
  phase : s.writer w = .working input
  typed : s.tty.Typed
  modes : s.tty.editorModes = s₀.tty.editorModes
  represents : Represents s.tty .done e
  blocking : s.blocking w = s₀.blocking w
  unwoken : s.tty.writable = false
  readers : (∀ r, s₀.reader r = .idle) → ∀ r, s.reader r = .idle
  others : ∀ w', w' ≠ w → s.writer w' = s₀.writer w'

variable {e : Editor} {s s₀ : TtyWorld R W} {w : W}

theorem Represents.heard {tty : Tty} {rest : Rest} (h : Represents tty rest e)
    (readable writable : Bool) :
    Represents { tty with readable := readable, writable := writable } rest e :=
  ⟨h.whole, h.line, h.literal⟩

def LineKey.Brief (k : LineKey) : Prop :=
  k = .erase ∨ ∃ b, k = .plain b ∨ k = .lineEnd b

theorem pressKey_brief {run run' : TtyInputRun} {k : LineKey} {rest : Rest} (hk : k.Brief)
    (hliteral : run.tty.literalNext = false) (h : pressKey run k = some (run', rest)) :
    rest = .done ∧ run'.tty.writable = run.tty.writable := by
  rcases hk with rfl | ⟨b, rfl | rfl⟩
  · obtain ⟨rfl, rfl⟩ := Prod.mk.inj (some_inj.mp h)
    refine ⟨rfl, ?_⟩
    show (ttyInputEraseKey run.tty).writable = _
    unfold ttyInputEraseKey
    split <;> rfl
  · obtain ⟨run'', hplain, heq⟩ := map_eq_some_iff.mp h
    obtain ⟨rfl, rfl⟩ := Prod.mk.inj heq
    rw [hliteral]
    refine ⟨rfl, ?_⟩
    rcases ttyInputPlainByte_cases run b with ⟨-, -, h'⟩ | ⟨-, -, h'⟩ | ⟨-, -, h'⟩
    · rw [← some_inj.mp (h'.symm.trans hplain)]
    · cases h'.symm.trans hplain
    · rw [← some_inj.mp (h'.symm.trans hplain)]
      rfl
  · obtain ⟨run'', hend, heq⟩ := map_eq_some_iff.mp h
    obtain ⟨rfl, rfl⟩ := Prod.mk.inj heq
    obtain ⟨tty, hroom, rfl⟩ := map_eq_some_iff.mp hend
    refine ⟨rfl, ?_⟩
    show tty.writable = _
    rcases ttyMakeRoomForLineEnd_cases run.tty with ⟨-, h'⟩ | ⟨-, -, h'⟩ | ⟨-, -, h'⟩
    · rw [← some_inj.mp (h'.symm.trans hroom)]
    · cases h'.symm.trans hroom
    · rw [← some_inj.mp (h'.symm.trans hroom)]
      rfl

theorem ReaderPhase.wake_idle {phase : ReaderPhase} (h : phase = .idle) (told : Bool) :
    (if told then phase.wake else phase) = .idle := by
  rw [h]
  cases told <;> rfl

theorem typing_byte {e' : Editor} {b : UInt8} {input : List UInt8}
    (h : Typing s₀ s w e (b :: input)) (hpress : e.press s₀.tty.editorModes b = some e')
    (hliteral : e.literal = false) (hbrief : (e.key s₀.tty.editorModes b).Brief) :
    ∃ (tr : List (TtyEvent R W)) (s' : TtyWorld R W), Run TtyStep s tr s' ∧
      Typing s₀ s' w e' input := by
  rw [← h.modes] at hpress hbrief
  obtain ⟨run, rest, hbyte, hrep⟩ : ∃ run rest,
      ttyInputLineByte (s.run w) b = some (run, rest) ∧ Represents run.tty rest e' := by
    rcases @represents_press e (s.run w) h.represents b with ⟨hnone, -⟩ |
      ⟨e'', run, rest, hsome, hbyte, hrep⟩
    · cases hnone.symm.trans hpress
    · obtain rfl := some_inj.mp (hsome.symm.trans hpress)
      exact ⟨run, rest, hbyte, hrep⟩
  have hnext : s.tty.literalNext = false := by
    rw [← hliteral, h.represents.literal]
    exact (Bool.and_true _).symm
  rw [ttyInputLineByte_eq] at hbyte
  rw [h.represents.key_eq rfl] at hbrief
  obtain ⟨rfl, hwritable⟩ := @pressKey_brief (s.run w) run _ rest hbrief hnext hbyte
  rw [show (s.run w).tty.writable = false from h.unwoken] at hwritable
  rw [← ttyInputLineByte_eq] at hbyte
  have htaken : ttyInputByte (s.run w) b = some (run, .done) := by
    rw [ttyInputByte, if_pos (show (s.run w).tty.ttyLineMode = true from h.typed.lineMode)]
    exact hbyte
  have hsame : s.tty.SameModes run.tty :=
    (@ttyInputByte_ok (s.run w) _ _ _ (h.represents.ok h.typed) htaken).2
  obtain ⟨htyped, hmodes⟩ := hsame.typed h.typed
  -- the byte
  have hstep := TtyStep.byte w h.holder h.phase htaken
  rw [if_pos h.typed.lineMode] at hstep
  generalize hs₁ : ((s.setCollected w run.toCollected).setWriter w (.editing .done input)).change
    run.tty = s₁ at hstep
  obtain ⟨hholder, hreader, hwriter⟩ := s₁.noteQueued_fields s.tty.queue.used
  have htty := noteQueued_tty s₁ s.tty.queue.used
  have hblocking : (s₁.noteQueued s.tty.queue.used).blocking = s₁.blocking := by
    unfold noteQueued
    split <;> rfl
  generalize s₁.noteQueued s.tty.queue.used = s₂ at hstep hholder hreader hwriter htty hblocking
  have hwriter₂ : s₂.writer = update s.writer w (.editing .done input) := by
    rw [hwriter, ← hs₁]
    funext w'
    show (if run.tty.writable then _ else _) = _
    rw [hwritable, if_neg Bool.false_ne_true]
    rfl
  have htty₂ : s₂.tty = { run.tty with readable := false, writable := false } := by
    rw [htty, ← hs₁]
    rfl
  have hholder₂ : s₂.holder = some w := by
    rw [hholder, ← hs₁]
    exact h.holder
  -- there is nothing left to do for it
  have hphase₂ : s₂.writer w = .editing .done input := by rw [hwriter₂, update_self]
  have hcarry := TtyStep.carryOn w hholder₂ hphase₂
  refine ⟨_, _, (Run.start.next hstep).next hcarry, ?_⟩
  have hwritable₂ : (restStep s₂.tty .done).1.writable = false := by
    show s₂.tty.writable = false
    rw [htty₂]
  refine ⟨hholder₂, ?_, ?_, ?_, ?_, ?_, rfl, ?_, ?_⟩
  · show (if (restStep s₂.tty .done).1.writable then _ else _) = _
    rw [hwritable₂, if_neg Bool.false_ne_true]
    show update s₂.writer w _ w = _
    rw [update_self, if_pos rfl]
  · show Tty.Typed { s₂.tty with readable := false, writable := false }
    rw [htty₂]
    exact ⟨htyped.lineMode, htyped.up⟩
  · show Tty.editorModes { s₂.tty with readable := false, writable := false } = _
    rw [htty₂]
    exact hmodes.trans h.modes
  · show Represents { s₂.tty with readable := false, writable := false } .done e'
    rw [htty₂]
    exact hrep.heard false false
  · show s₂.blocking w = _
    rw [hblocking, ← hs₁]
    exact h.blocking
  · intro hidle r
    refine ReaderPhase.wake_idle ?_ _
    show s₂.reader r = .idle
    rw [hreader, ← hs₁]
    exact ReaderPhase.wake_idle (h.readers hidle r) _
  · intro w' hw'
    show (if (restStep s₂.tty .done).1.writable then _ else _) = _
    rw [hwritable₂, if_neg Bool.false_ne_true]
    show update s₂.writer w _ w' = _
    rw [update_of_ne hw', hwriter₂, update_of_ne hw']
    exact h.others w' hw'

theorem refused_lineMode (run : TtyInputRun) (hline : run.tty.ttyLineMode = true) (b : UInt8) :
    ttyInputByte run b = none ↔ ttyInputLineByte run b = none := by
  rw [ttyInputByte, if_pos hline]

theorem typing_enter (w : W) (input : List UInt8) (blocking : Bool) (hfree : s.holder = none)
    (hw : s.writer w = .idle) (hinput : input ≠ []) (htyped : s.tty.Typed)
    (hrep : Represents s.tty .done e) (hunwoken : s.tty.writable = false) :
    ∃ (ev : TtyEvent R W) (s' : TtyWorld R W), TtyStep s ev s' ∧ Typing s' s' w e input ∧
      s'.tty = s.tty ∧ s'.reader = s.reader ∧ s'.blocking w = blocking ∧
      ∀ w', w' ≠ w → s'.writer w' = s.writer w' := by
  refine ⟨_, _, .enter w input blocking hfree hw hinput,
    ⟨rfl, update_self _ _ _, htyped, rfl, hrep, rfl, hunwoken, fun h => h,
      fun _ _ => rfl⟩, rfl, rfl, update_self _ _ _, fun w' hw' => ?_⟩
  exact update_of_ne hw' _ _

theorem typing_parks {b : UInt8} {input : List UInt8} (h : Typing s₀ s w e (b :: input))
    (hpress : e.press s₀.tty.editorModes b = none) (hblocking : s₀.blocking w = true)
    (hidle : ∀ r, s₀.reader r = .idle) :
    ∃ (tr : List (TtyEvent R W)) (s' : TtyWorld R W), Run TtyStep s tr s' ∧ s'.holder = none ∧
      (∀ r, s'.reader r = .idle) ∧ s'.writer w = .parked (b :: input) ∧
      (∀ w', w' ≠ w → s'.writer w' = s₀.writer w') ∧
      s'.tty = { s.tty with readable := false, writable := false } := by
  rw [← h.modes] at hpress
  have hfull : ∀ (c : Collected) (readable : Bool), ttyInputByte
      { c with tty := { s.tty with readable := readable, writable := false } } b = none := by
    intro c readable
    refine (refused_lineMode { c with
      tty := { s.tty with readable := readable, writable := false } } h.typed.lineMode b).mpr ?_
    rcases @represents_press e
        { c with tty := { s.tty with readable := readable, writable := false } }
        (h.represents.heard readable false) b with ⟨-, h'⟩ | ⟨e', -, -, he', -, -⟩
    · exact h'
    · cases hpress.symm.trans he'
  have htty : ∀ readable, s.tty.readable = readable →
      s.tty = { s.tty with readable := readable, writable := false } := by
    intro readable hreadable
    rw [← hreadable, ← h.unwoken]
  have hannounce : ∀ run : TtyInputRun, run.tty.ttyLineMode = true → announce run = run := by
    intro run hline
    unfold announce
    rw [hline]
    rfl
  have hup : s.tty.hungUp = false := (Bool.or_eq_false_iff.mp h.typed.up).1
  -- everything goes out first
  have hfull₀ : ttyInputByte (s.run w) b = none := by
    rw [run, htty _ rfl]
    exact hfull _ _
  have hflush := TtyStep.flush w h.holder h.phase hfull₀ (h.blocking.trans hblocking) hup
  rw [hannounce (s.run w) h.typed.lineMode] at hflush
  generalize hs₁ : ((((s.setCollected w ((s.run w).toCollected.flushed true)).setWriter w
    (.flushing .done (b :: input))).change (s.run w).tty).unlock) = s₁ at hflush
  have hwriter₁ : s₁.writer = update s.writer w (.flushing .done (b :: input)) := by
    rw [← hs₁]
    funext w'
    show (if s.tty.writable then _ else _) = _
    rw [h.unwoken, if_neg Bool.false_ne_true]
    rfl
  have htty₁ : s₁.tty = { s.tty with readable := false, writable := false } := by
    rw [← hs₁]
    rfl
  have hreader₁ : ∀ r, s₁.reader r = .idle := by
    intro r
    rw [← hs₁]
    exact ReaderPhase.wake_idle (h.readers hidle r) _
  have hblocking₁ : s₁.blocking w = true := by
    rw [← hs₁]
    exact h.blocking.trans hblocking
  have hcollected₁ : (s₁.collected w).flushed true = s₁.collected w := by
    rw [← hs₁]
    show (update s.collected w _ w).flushed true = update s.collected w _ w
    rw [update_self]
    rfl
  have hretake := TtyStep.retake (s := s₁) w (by rw [← hs₁]; rfl) (by rw [hwriter₁, update_self])
  -- and then the byte is tried again, and waits
  have hcarry := TtyStep.carryOn (s := (s₁.take w).setWriter w (.editing .done (b :: input))) w rfl
    (update_self _ _ _)
  generalize hs₃ : (((s₁.take w).setWriter w (.editing .done (b :: input))).setWriter w
    (if Rest.done = .done then .working (b :: input) else
      .editing (restStep ((s₁.take w).setWriter w (.editing .done (b :: input))).tty .done).2
        (b :: input))).change
    (restStep ((s₁.take w).setWriter w (.editing .done (b :: input))).tty .done).1 = s₃ at hcarry
  have hwriter₃ : s₃.writer = update s.writer w (.working (b :: input)) := by
    rw [← hs₃]
    funext w'
    show (if s₁.tty.writable then _ else _) = _
    rw [htty₁, if_neg Bool.false_ne_true]
    show update (update s₁.writer w _) w _ w' = _
    rw [hwriter₁, update_idem, update_idem, if_pos rfl]
  have htty₃ : s₃.tty = { s.tty with readable := false, writable := false } := by
    rw [← hs₃]
    show ({ s₁.tty with readable := false, writable := false } : Tty) = _
    rw [htty₁]
  have hreader₃ : ∀ r, s₃.reader r = .idle := by
    intro r
    rw [← hs₃]
    exact ReaderPhase.wake_idle (hreader₁ r) _
  have hcollected₃ : s₃.collected = s₁.collected := by
    rw [← hs₃]
    rfl
  have hblocking₃ : s₃.blocking w = true := by
    rw [← hs₃]
    exact hblocking₁
  have hholder₃ : s₃.holder = some w := by
    rw [← hs₃]
    rfl
  have hwait := TtyStep.wait w hholder₃
    (show s₃.writer w = .working (b :: input) by rw [hwriter₃, update_self])
    (by rw [run, htty₃]; exact hfull _ _) hblocking₃ (by rw [htty₃]; exact hup)
    (by
      rw [hannounce (s₃.run w) (by
        rw [run, htty₃]
        exact h.typed.lineMode)]
      show s₃.collected w = (s₃.collected w).flushed true
      rw [hcollected₃]
      exact hcollected₁.symm)
  refine ⟨_, _, ((((Run.start.next hflush).next hretake).next hcarry).next hwait), rfl, hreader₃,
    update_self _ _ _, fun w' hw' => ?_, htty₃⟩
  show update s₃.writer w _ w' = _
  rw [update_of_ne hw', hwriter₃, update_of_ne hw']
  exact h.others w' hw'

theorem typing_finish (h : Typing s₀ s w e []) (hidle : ∀ r, s₀.reader r = .idle) :
    ∃ (ev : TtyEvent R W) (s' : TtyWorld R W), TtyStep s ev s' ∧ s'.holder = none ∧
      (∀ r, s'.reader r = .idle) ∧ s'.writer w = .idle ∧
      (∀ w', w' ≠ w → s'.writer w' = s₀.writer w') ∧
      s'.tty = { s.tty with readable := false, writable := false } := by
  have hstep := TtyStep.finish w h.holder h.phase fun _ _ hnil => nomatch hnil
  have hend : inputEnd s.tty = s.tty := by
    unfold inputEnd
    rw [h.typed.lineMode]
    rfl
  rw [hend] at hstep
  have hwriter : ((s.setWriter w .idle).change s.tty).writer = update s.writer w .idle := by
    funext w'
    show (if s.tty.writable then _ else _) = _
    rw [h.unwoken, if_neg Bool.false_ne_true]
    rfl
  refine ⟨_, _, hstep, rfl, fun r => ReaderPhase.wake_idle (h.readers hidle r) _, ?_,
    fun w' hw' => ?_, rfl⟩
  · show ((s.setWriter w .idle).change s.tty).writer w = .idle
    rw [hwriter, update_self]
  · show ((s.setWriter w .idle).change s.tty).writer w' = _
    rw [hwriter, update_of_ne hw']
    exact h.others w' hw'

end

/-! ## a writer left behind -/

/-- a line is finished, and `n` bytes are typed after it -/
def behindLine (n : Nat) : Editor := ⟨[⟨[10], false⟩], List.replicate n 120, false⟩

theorem behindLine_positions (n : Nat) : (behindLine n).positions = 1 + n := by
  show (0 + 1 + 0) + (replicate n (120 : UInt8)).length = _
  rw [length_replicate]

theorem behindLine_press {n : Nat} (hn : n < 4095) :
    (behindLine n).press (Tty.ttyCreate false).editorModes 120 = some (behindLine (n + 1)) := by
  have hpositions := behindLine_positions n
  show (behindLine n).type _ 120 = _
  have hfull : (behindLine n).full = false := by
    unfold Editor.full ttyBufSize
    exact decide_eq_false (by omega)
  rw [Editor.type, if_neg (fun h => nomatch h.1), hfull, if_neg Bool.false_ne_true]
  have hdoubles : ttyInputDoubles (Tty.ttyCreate false).editorModes.termios 120 = false := rfl
  rw [hdoubles]
  show some (Editor.mk _ (replicate n 120 ++ [120]) false) = _
  rw [← replicate_succ']
  rfl

theorem behindLine_full : (behindLine 4095).press (Tty.ttyCreate false).editorModes 97 = none := by
  have hpositions := behindLine_positions 4095
  show (behindLine 4095).type _ 97 = _
  have hfull : (behindLine 4095).full = true := by
    unfold Editor.full ttyBufSize
    exact decide_eq_true (by omega)
  rw [Editor.type, if_neg (fun h => nomatch h.1), hfull, if_pos rfl]

theorem behindLine_erase :
    (behindLine 4095).press (Tty.ttyCreate false).editorModes 127 = some (behindLine 4094) := by
  show some ((behindLine 4095).edit (eraseChar slaveTermios)) = _
  have herase : eraseChar slaveTermios (replicate 4095 120) = replicate 4094 120 := by
    rw [show 4095 = 4093 + 1 + 1 from rfl, replicate_succ, replicate_succ, eraseChar,
      lastChar, if_neg (by decide)]
    rfl
  unfold Editor.edit behindLine
  dsimp only
  rw [reverse_replicate, herase, reverse_replicate]

section
variable {R W : Type} [DecidableEq R] [DecidableEq W]

theorem typing_line {s₀ s : TtyWorld R W} {w : W} {n : Nat} {input : List UInt8} (hn : n ≤ 4095)
    (hmodes : s₀.tty.editorModes = (Tty.ttyCreate false).editorModes)
    (h : Typing s₀ s w (behindLine 0) (replicate n 120 ++ input)) :
    ∃ (tr : List (TtyEvent R W)) (s' : TtyWorld R W), Run TtyStep s tr s' ∧
      Typing s₀ s' w (behindLine n) input := by
  induction n generalizing input with
  | zero => exact ⟨[], s, .start, h⟩
  | succ n ih =>
    rw [replicate_succ', append_assoc] at h
    obtain ⟨tr, s₁, hrun, htyping⟩ := ih (by omega) h
    obtain ⟨tr', s₂, hrun', htyping'⟩ := typing_byte htyping
      (hmodes ▸ behindLine_press (by omega)) rfl (.inr ⟨120, .inl (by rw [hmodes]; rfl)⟩)
    exact ⟨tr ++ tr', s₂, hrun.trans hrun', htyping'⟩

end

/-- a writer is parked before a full queue, another takes a byte back with the erase key, and no
one tells the first -/
theorem noStranded_fails : ∃ (tr : List (TtyEvent Unit Bool)) (s : TtyWorld Unit Bool),
    Run TtyStep (TtyWorld.start false) tr s ∧ s.holder = none ∧ (∀ r, s.reader r = .idle) ∧
      s.writer true = .idle ∧ s.writer false = .parked [97] ∧ ¬ s.tty.Refuses 97 := by
  -- a line, its end, and 4095 bytes after it: the next byte waits
  obtain ⟨ev₁, s₁, hstep₁, htyping₁, htty₁, hreader₁, hblocking₁, hothers₁⟩ :=
    typing_enter (s := (start false : TtyWorld Unit Bool)) false
      (10 :: (replicate 4095 120 ++ [97])) true rfl rfl (fun h => nomatch h)
      ⟨rfl, rfl⟩ (represents_start rfl rfl rfl) rfl
  have hmodes₁ : s₁.tty.editorModes = (Tty.ttyCreate false).editorModes := by rw [htty₁]; rfl
  have hidle₁ : ∀ r, s₁.reader r = .idle := fun r => by rw [hreader₁]; rfl
  have hline : Editor.start.press s₁.tty.editorModes 10 = some (behindLine 0) := by
    rw [hmodes₁]
    rfl
  obtain ⟨tr₂, s₂, hrun₂, htyping₂⟩ := typing_byte htyping₁ hline rfl (.inr ⟨10, .inr (by rw [hmodes₁]; rfl)⟩)
  obtain ⟨tr₃, s₃, hrun₃, htyping₃⟩ := typing_line (Nat.le_refl _) hmodes₁ htyping₂
  obtain ⟨tr₄, s₄, hrun₄, hfree₄, hidle₄, hparked₄, hothers₄, htty₄⟩ := typing_parks htyping₃
    (hmodes₁ ▸ behindLine_full) hblocking₁ hidle₁
  -- another call with the erase key
  have hmodes₄ : s₄.tty.editorModes = (Tty.ttyCreate false).editorModes := by
    rw [htty₄]
    exact htyping₃.modes.trans hmodes₁
  have hwriter₄ : s₄.writer true = .idle :=
    (hothers₄ true (by decide)).trans (hothers₁ true (by decide))
  obtain ⟨ev₅, s₅, hstep₅, htyping₅, htty₅, hreader₅, -, hothers₅⟩ :=
    typing_enter (s := s₄) true [127] false hfree₄ hwriter₄ (fun h => nomatch h)
      (by rw [htty₄]; exact ⟨htyping₃.typed.lineMode, htyping₃.typed.up⟩)
      (by rw [htty₄]; exact htyping₃.represents.heard false false) (by rw [htty₄])
  have hmodes₅ : s₅.tty.editorModes = (Tty.ttyCreate false).editorModes := by rw [htty₅, hmodes₄]
  have hidle₅ : ∀ r, s₅.reader r = .idle := fun r => by rw [hreader₅]; exact hidle₄ r
  obtain ⟨tr₆, s₆, hrun₆, htyping₆⟩ := typing_byte htyping₅
    (hmodes₅ ▸ behindLine_erase) rfl (.inl (by rw [hmodes₅]; rfl))
  obtain ⟨ev₇, s₇, hstep₇, hfree₇, hidle₇, hwriter₇, hothers₇, htty₇⟩ :=
    typing_finish htyping₆ hidle₅
  refine ⟨_, s₇, ((((((Run.start.next hstep₁).trans hrun₂).trans hrun₃).trans hrun₄).next
    hstep₅).trans hrun₆).next hstep₇, hfree₇, hidle₇, hwriter₇, ?_, fun hrefuses => ?_⟩
  · rw [hothers₇ false (by decide), hothers₅ false (by decide)]
    exact hparked₄
  -- there is room now
  · rw [htty₇] at hrefuses
    have hrefuses := (refused_lineMode { Collected.fresh with
      tty := { s₆.tty with readable := false, writable := false } }
      htyping₆.typed.lineMode 97).mp hrefuses
    rcases @represents_press _ { Collected.fresh with
        tty := { s₆.tty with readable := false, writable := false } }
        (htyping₆.represents.heard false false) 97 with ⟨hnone, -⟩ | ⟨_, _, _, -, hsome, -⟩
    · have hmodes₆ : Tty.editorModes { s₆.tty with readable := false, writable := false } =
          (Tty.ttyCreate false).editorModes := htyping₆.modes.trans hmodes₅
      rw [hmodes₆] at hnone
      have hnone : (behindLine 4094).type (Tty.ttyCreate false).editorModes 97 = none := hnone
      have hfull : (behindLine 4094).full = false := by
        unfold Editor.full ttyBufSize
        exact decide_eq_false (by rw [behindLine_positions]; omega)
      rw [Editor.type, if_neg (fun h => nomatch h.1), hfull, if_neg Bool.false_ne_true] at hnone
      cases hnone
    · cases hrefuses.symm.trans hsome

end Pscal.Terminal
