import Pscal.Tty.StreamSpec

/-!
# What is written is read

* `Taken`  what the ended writes of a thread put in;
* `WriteCall.At`  where a write is, against the bytes of it that were put in;
* `StreamInv`  both, and what was put in against what was read;
* `ptyStream_run`  what holds of every plain run;
* `ptyStream_lost`  a byte that comes in changed, and a byte that is lost.
-/

set_option linter.unusedSectionVars false

namespace Pscal.Terminal

open Transitions List Option Function

section
variable {R W : Type} [DecidableEq R] [DecidableEq W]

/-- each write put in a prefix of what it was given, and all of it unless it was cut short -/
def Taken (calls : List (List UInt8 × Bool)) (parts : List (List UInt8)) : Prop :=
  List.Forall₂ (fun call part => part <+: call.1 ∧ (call.2 = true → part = call.1)) calls parts

/-- `now` are the bytes that the write in progress has put in -/
def WriteCall.At (side : TtyWorld R W) (w : W) (now : List UInt8) : WriteCall → Prop
  | .idle => (side.writer w).input = none ∧ now = []
  | .between data rest _ _ => (side.writer w).input = none ∧ now ++ rest = data
  | .inside data _ rest blocking _ => ∃ input, (side.writer w).input = some input ∧
      now ++ input ++ rest = data ∧ side.blocking w = blocking

structure StreamInv (tty₀ : Tty) (tr : List (PtyEvent R W)) (s : PtyWorld R W) : Prop where
  side : SideInv s.side
  isMaster : s.side.tty.isMaster = tty₀.isMaster
  termios : s.side.tty.termios = tty₀.termios
  flow : bytesOut tr ++ s.side.tty.bytes = tty₀.bytes ++ (bytesIn tr).map Prod.snd
  calls : ∀ w, ∃ parts now, bytesBy w tr = parts.flatten ++ now ∧ Taken (callsOf w tr) parts ∧
    (s.call w).At s.side w now

variable {tty₀ : Tty} {tr : List (PtyEvent R W)} {s s' : PtyWorld R W}

theorem bytesOut_concat (tr : List (PtyEvent R W)) (ev : PtyEvent R W) :
    bytesOut (tr ++ [ev]) = bytesOut tr ++ bytesOut [ev] := flatMap_append

theorem bytesIn_concat (tr : List (PtyEvent R W)) (ev : PtyEvent R W) :
    bytesIn (tr ++ [ev]) = bytesIn tr ++ bytesIn [ev] := flatMap_append

theorem bytesBy_concat (w : W) (tr : List (PtyEvent R W)) (ev : PtyEvent R W) :
    bytesBy w (tr ++ [ev]) = bytesBy w tr ++ bytesBy w [ev] := by
  unfold bytesBy
  rw [bytesIn_concat, filter_append, map_append]

theorem callsOf_concat (w : W) (tr : List (PtyEvent R W)) (ev : PtyEvent R W) :
    callsOf w (tr ++ [ev]) = callsOf w tr ++ callsOf w [ev] := filterMap_append

theorem callsOf_singleton (w : W) (ev : PtyEvent R W) : callsOf w [ev] = (ev.ended w).toList := by
  unfold callsOf
  cases hended : ev.ended w with
  | none => rw [filterMap_cons_none hended]; rfl
  | some call => rw [filterMap_cons_some hended]; rfl

theorem Taken.concat {calls : List (List UInt8 × Bool)} {parts : List (List UInt8)}
    (h : Taken calls parts) {data part : List UInt8} {whole : Bool} (hpart : part <+: data)
    (hwhole : whole = true → part = data) : Taken (calls ++ [(data, whole)]) (parts ++ [part]) := by
  induction h with
  | nil => exact .cons ⟨hpart, hwhole⟩ .nil
  | cons hcall h ih => exact .cons hcall ih

/-! ## steps -/

theorem StreamInv.moved (h : StreamInv tty₀ tr s) (side : TtyWorld R W) {w : W} {call : WriteCall}
    {ev : PtyEvent R W} (hside : SideInv side) (heffect : SideEffect s.side side none [])
    (hev : bytesOut [ev] = [] ∧ bytesIn [ev] = []) (hothers : ∀ w', w' ≠ w → ev.ended w' = none ∧
      (side.writer w').input = (s.side.writer w').input ∧ side.blocking w' = s.side.blocking w')
    (hcall : ∀ parts now, Taken (callsOf w tr) parts → (s.call w).At s.side w now →
      ∃ parts' now', parts.flatten ++ now = parts'.flatten ++ now' ∧
        Taken (callsOf w tr ++ (ev.ended w).toList) parts' ∧ call.At side w now') :
    StreamInv tty₀ (tr ++ [ev]) ((s.setSide side).setCall w call) := by
  have hby : ∀ w', bytesBy w' (tr ++ [ev]) = bytesBy w' tr := by
    intro w'
    rw [bytesBy_concat]
    unfold bytesBy
    rw [hev.2]
    exact append_nil _
  refine ⟨hside, heffect.isMaster.trans h.isMaster, heffect.termios.trans h.termios, ?_, fun w' => ?_⟩
  · rw [bytesOut_concat, bytesIn_concat, hev.1, hev.2, append_nil, append_nil]
    have hflow : side.tty.bytes = s.side.tty.bytes := heffect.flow.trans (append_nil _)
    show bytesOut tr ++ side.tty.bytes = _
    rw [hflow]
    exact h.flow
  · obtain ⟨parts, now, hbytes, htaken, hat⟩ := h.calls w'
    rw [hby]
    by_cases hw : w' = w
    · subst hw
      obtain ⟨parts', now', hsplit, htaken', hat'⟩ := hcall parts now htaken hat
      rw [callsOf_concat, callsOf_singleton]
      refine ⟨parts', now', hbytes.trans hsplit, htaken', ?_⟩
      show (update s.call w' call w').At side w' now'
      rw [update_self]
      exact hat'
    · obtain ⟨hnone, hinput, hblocking⟩ := hothers w' hw
      refine ⟨parts, now, hbytes, ?_, ?_⟩
      · rw [callsOf_concat, callsOf_singleton, hnone, toList_none, append_nil]
        exact htaken
      · show (update s.call w call w').At side w' now
        rw [update_of_ne hw]
        cases hcall' : s.call w' <;> rw [hcall'] at hat <;> unfold WriteCall.At at hat ⊢ <;>
          rwa [hinput, hblocking]

/-- the phase and the call of a write that enters `tty_input`, that comes back or that is killed -/
theorem TtyStep.ofWrite_inv {ev : TtyEvent R W} {s s' : TtyWorld R W} (h : TtyStep s ev s') :
    (∀ w input blocking, ev = .enter w input blocking → (s'.writer w).input = some input ∧
      s'.blocking w = blocking ∧
      ∀ w', w' ≠ w → (s'.writer w').input = (s.writer w').input ∧ s'.blocking w' = s.blocking w') ∧
    (∀ w, ev = .finish w ∨ ev = .cancelWriter w → (s'.writer w).input = none ∧
      (∀ w', w' ≠ w → (s'.writer w').input = (s.writer w').input) ∧ s'.blocking = s.blocking) ∧
    ∀ w b input, ev = .finish w → s.writer w = .working (b :: input) →
      s.blocking w = false ∨ s.tty.hungUp = true := by
  cases h with
  | enter w input blocking hfree hw hinput =>
    refine ⟨?_, fun _ h => (by rcases h with h | h <;> cases h), fun _ _ _ h => (nomatch h)⟩
    intro w' input' blocking' hev
    obtain ⟨rfl, rfl, rfl⟩ := TtyEvent.enter.inj hev
    refine ⟨?_, update_self _ _ _, fun w' hw' => ⟨?_, update_of_ne hw' _ _⟩⟩
    · show (update s.writer w _ w).input = _
      rw [update_self]
      rfl
    · show (update s.writer w _ w').input = _
      rw [update_of_ne hw']
  | @finish w input hw hphase hend =>
    refine ⟨fun _ _ _ h => (nomatch h), ?_, ?_⟩
    · intro w' hev
      obtain rfl : w = w' := TtyEvent.finish.inj (hev.resolve_right fun h => nomatch h)
      refine ⟨?_, fun w' hw' => ?_, rfl⟩
      · show (if (inputEnd s.tty).writable then _ else _ : WriterPhase).input = _
        rw [WriterPhase.input_wake]
        show (update s.writer w .idle w).input = none
        rw [update_self]
        rfl
      · show (if (inputEnd s.tty).writable then _ else _ : WriterPhase).input = _
        rw [WriterPhase.input_wake]
        show (update s.writer w .idle w').input = _
        rw [update_of_ne hw']
    · intro w' b input' hev hphase'
      obtain rfl := TtyEvent.finish.inj hev
      obtain rfl := WriterPhase.working.inj (hphase.symm.trans hphase')
      exact (hend b input' rfl).2
  | @cancelWriter w input hphase =>
    refine ⟨fun _ _ _ h => (nomatch h), ?_, fun _ _ _ h => (nomatch h)⟩
    intro w' hev
    obtain rfl : w = w' := TtyEvent.cancelWriter.inj (hev.resolve_left fun h => nomatch h)
    refine ⟨?_, fun w' hw' => ?_, rfl⟩
    · show (update s.writer w .idle w).input = none
      rw [update_self]
      rfl
    · show (update s.writer w .idle w').input = _
      rw [update_of_ne hw']
  | byte | flush | wait | letGo | retake | carryOn | resume | read | readMore | readTimedOut
  | timeout | wakeReader | wakeWriter | cancelReader | call | forgetOwner =>
    exact ⟨fun _ _ _ h => (nomatch h), fun _ h => (by rcases h with h | h <;> cases h),
      fun _ _ _ h => (nomatch h)⟩

theorem taken_ends {calls : List (List UInt8 × Bool)} {parts : List (List UInt8)}
    {data now rest : List UInt8} (whole : Bool) (htaken : Taken calls parts)
    (hdata : now ++ rest = data) (hwhole : whole = true → rest = []) :
    ∃ parts' now', parts.flatten ++ now = parts'.flatten ++ now' ∧
      Taken (calls ++ [(data, whole)]) parts' ∧ now' = [] := by
  refine ⟨parts ++ [now], [], ?_, htaken.concat ⟨rest, hdata⟩ fun h => ?_, rfl⟩
  · rw [flatten_append, flatten_singleton, append_nil]
  · rw [hwhole h, append_nil] at hdata
    exact hdata

theorem took_of_none {s : TtyWorld R W} {ev : TtyEvent R W} {w : W}
    (h : (s.writer w).input = none) : bytesOf w (s.took ev) = [] := by
  cases ev with
  | byte w' =>
    unfold TtyWorld.took
    dsimp only
    split
    · next b input hphase =>
      have hne : w' ≠ w := fun hw => by
        rw [← hw, hphase] at h
        cases h
      unfold bytesOf
      rw [filter_cons_of_neg (by exact fun h => hne (of_decide_eq_true h))]
      rfl
    · rfl
  | enter | finish | flush | wait | letGo | retake | carryOn | resume | read | readMore | timeout
  | wakeReader | wakeWriter | cancelReader | cancelWriter | call => rfl

theorem StreamInv.step {ev : PtyEvent R W} (h : StreamInv tty₀ tr s) (hstep : PtyStep s ev s')
    (hplain : ev.Plain s) : StreamInv tty₀ (tr ++ [ev]) s' := by
  cases hstep with
  | start w data blocking hw =>
    refine h.moved s.side h.side (.of_same rfl) ⟨rfl, rfl⟩ (fun _ _ => ⟨rfl, rfl, rfl⟩)
      fun parts now htaken hat => ⟨parts, now, rfl, ?_, ?_⟩
    · rw [show PtyEvent.ended w (.start w data blocking : PtyEvent R W) = none from rfl,
        toList_none, append_nil]
      exact htaken
    · obtain ⟨hinput, rfl⟩ := (hw ▸ hat : WriteCall.At _ _ _ _)
      exact ⟨hinput, rfl⟩
  | @chunk w data rest blocking delivered side hw hrest hstep =>
    obtain ⟨hside, heffect⟩ := h.side.step hstep trivial
    obtain ⟨hinput, hblocking, hothers⟩ := hstep.ofWrite_inv.1 w _ blocking rfl
    refine h.moved _ hside heffect ⟨rfl, rfl⟩ (fun w' hw' => ⟨rfl, hothers w' hw'⟩)
      fun parts now htaken hat => ⟨parts, now, rfl, ?_, ?_⟩
    · rw [show PtyEvent.ended w (.chunk w : PtyEvent R W) = none from rfl, toList_none, append_nil]
      exact htaken
    · obtain ⟨-, hdata⟩ := (hw ▸ hat : WriteCall.At _ _ _ _)
      refine ⟨_, hinput, ?_, hblocking⟩
      rw [append_assoc, fillChunk_append]
      exact hdata
  | @back w data chunk rest blocking delivered side hw hphase hstep =>
    obtain ⟨hside, heffect⟩ := h.side.step hstep trivial
    obtain ⟨hnone, hothers, hblocking⟩ := hstep.ofWrite_inv.2.1 w (.inl rfl)
    refine h.moved _ hside heffect ⟨rfl, rfl⟩
      (fun w' hw' => ⟨rfl, hothers w' hw', by rw [hblocking]⟩)
      fun parts now htaken hat => ⟨parts, now, rfl, ?_, ?_⟩
    · rw [show PtyEvent.ended w (.back w : PtyEvent R W) = none from rfl, toList_none, append_nil]
      exact htaken
    · obtain ⟨input, hinput, hdata, -⟩ := (hw ▸ hat : WriteCall.At _ _ _ _)
      rw [hphase] at hinput
      obtain rfl : [] = input := some_inj.mp hinput
      rw [append_nil] at hdata
      exact ⟨hnone, hdata⟩
  | @cut w data chunk rest blocking delivered input side hw hphase hinput hstep =>
    obtain ⟨hside, heffect⟩ := h.side.step hstep trivial
    obtain ⟨hnone, hothers, hblocking⟩ := hstep.ofWrite_inv.2.1 w (.inl rfl)
    refine h.moved _ hside heffect ⟨rfl, rfl⟩
      (fun w' hw' => ⟨if_neg (Ne.symm hw'), hothers w' hw', by rw [hblocking]⟩)
      fun parts now htaken hat => ?_
    obtain ⟨input', -, hdata, -⟩ := (hw ▸ hat : WriteCall.At _ _ _ _)
    rw [append_assoc] at hdata
    obtain ⟨parts', now', hsplit, htaken', rfl⟩ := taken_ends false htaken hdata fun h => nomatch h
    refine ⟨parts', [], hsplit, ?_, hnone, rfl⟩
    show Taken (_ ++ (if w = w then some (data, false) else none).toList) _
    rw [if_pos rfl]
    exact htaken'
  | @done w data blocking delivered hw =>
    refine h.moved s.side h.side (.of_same rfl) ⟨rfl, rfl⟩
      (fun _ hw' => ⟨if_neg (Ne.symm hw'), rfl, rfl⟩) fun parts now htaken hat => ?_
    obtain ⟨hnone, hdata⟩ := (hw ▸ hat : WriteCall.At _ _ _ _)
    obtain ⟨parts', now', hsplit, htaken', rfl⟩ := taken_ends true htaken hdata fun _ => rfl
    refine ⟨parts', [], hsplit, ?_, hnone, rfl⟩
    show Taken (_ ++ (if w = w then some (data, true) else none).toList) _
    rw [if_pos rfl]
    exact htaken'
  | @killed w data chunk rest blocking delivered side hw hstep =>
    obtain ⟨hside, heffect⟩ := h.side.step hstep trivial
    obtain ⟨hnone, hothers, hblocking⟩ := hstep.ofWrite_inv.2.1 w (.inr rfl)
    refine h.moved _ hside heffect ⟨rfl, rfl⟩
      (fun w' hw' => ⟨if_neg (Ne.symm hw'), hothers w' hw', by rw [hblocking]⟩)
      fun parts now htaken hat => ?_
    obtain ⟨input', -, hdata, -⟩ := (hw ▸ hat : WriteCall.At _ _ _ _)
    rw [append_assoc] at hdata
    obtain ⟨parts', now', hsplit, htaken', rfl⟩ := taken_ends false htaken hdata fun h => nomatch h
    refine ⟨parts', [], hsplit, ?_, hnone, rfl⟩
    show Taken (_ ++ (if w = w then some (data, false) else none).toList) _
    rw [if_pos rfl]
    exact htaken'
  | @tty ev side hwrite hstep =>
    obtain ⟨hside, heffect⟩ := h.side.step hstep hplain
    refine ⟨hside, heffect.isMaster.trans h.isMaster, heffect.termios.trans h.termios, ?_,
      fun w => ?_⟩
    · rw [bytesOut_concat, bytesIn_concat]
      have hout : bytesOut [(.tty ev (s.side.readOut ev) (s.side.took ev) : PtyEvent R W)] =
          (s.side.readOut ev).getD [] := append_nil _
      have hin : bytesIn [(.tty ev (s.side.readOut ev) (s.side.took ev) : PtyEvent R W)] =
          s.side.took ev := append_nil _
      rw [hout, hin, append_assoc, map_append]
      show _ ++ (_ ++ side.tty.bytes) = _
      rw [heffect.flow, ← append_assoc, h.flow, append_assoc]
    · obtain ⟨parts, now, hbytes, htaken, hat⟩ := h.calls w
      obtain ⟨hinput, hblocking⟩ := hstep.input_eq hwrite w
      have hby : bytesBy w [(.tty ev (s.side.readOut ev) (s.side.took ev) : PtyEvent R W)] =
          bytesOf w (s.side.took ev) := by
        unfold bytesBy bytesOf
        rw [show bytesIn [(.tty ev (s.side.readOut ev) (s.side.took ev) : PtyEvent R W)] =
          s.side.took ev from append_nil _]
      refine ⟨parts, now ++ bytesOf w (s.side.took ev), ?_, ?_, ?_⟩
      · rw [bytesBy_concat, hby, hbytes, append_assoc]
      · rw [callsOf_concat]
        exact (append_nil (callsOf w tr)).symm ▸ htaken
      · show (s.call w).At side w _
        cases hcall : s.call w with
        | idle =>
          rw [hcall] at hat
          obtain ⟨hnone, rfl⟩ := hat
          rw [took_of_none hnone]
          rw [hnone] at hinput
          exact ⟨map_eq_none_iff.mp hinput.symm, rfl⟩
        | between data rest blocking delivered =>
          rw [hcall] at hat
          obtain ⟨hnone, hdata⟩ := hat
          rw [took_of_none hnone, append_nil]
          rw [hnone] at hinput
          exact ⟨map_eq_none_iff.mp hinput.symm, hdata⟩
        | inside data chunk rest blocking delivered =>
          rw [hcall] at hat
          obtain ⟨input, hsome, hdata, hblock⟩ := hat
          rw [hsome] at hinput
          obtain ⟨input', hinput', rfl⟩ := map_eq_some_iff.mp hinput.symm
          refine ⟨input', hinput', ?_, hblocking ▸ hblock⟩
          rw [← hdata, append_assoc now]

/-! ## hang-ups and ends -/

/-- what a step tells of hang-ups and of the ends of reads and writes -/
structure StepFacts (tty₀ : Tty) (s : PtyWorld R W) (ev : PtyEvent R W) (s' : PtyWorld R W) :
    Prop where
  hungUp : s.side.tty.hungUp = true → s'.side.tty.hungUp = true
  down : s.side.tty.ttyIsDown = true → s'.side.tty.ttyIsDown = true
  cut : ∀ w data blocking result, ev = .cut w data blocking result →
    blocking = false ∨ s'.side.tty.hungUp = true
  done : ∀ w data result, ev = .done w data result → result = .written data.length
  eof : ∀ e took, ev = .tty e (some []) took → s'.side.tty.ttyIsDown = true ∨ tty₀.Timed
  hangs : ∀ out took, ev = .tty (.call .markHungUp) out took → s'.side.tty.hungUp = true
  reads : ∀ r size nonblocking out took, ev = .tty (.read r size nonblocking) out took →
    s.side.tty.hungUp = true → out = some []

theorem ttyReadTurn_hungUp {tty : Tty} (h : tty.hungUp = true) (size : Nat) (nonblocking : Bool) :
    (ttyReadTurn tty size nonblocking).out = some [] := by
  have hdown : tty.ttyIsDown = true := by rw [Tty.ttyIsDown, h, Bool.true_or]
  unfold ttyReadTurn ttyReadMasterTurn ttyReadSlaveTurn
  rw [hdown]
  split <;> rfl

theorem StreamInv.facts {ev : PtyEvent R W} (h : StreamInv tty₀ tr s) (hstep : PtyStep s ev s')
    (hplain : ev.Plain s) : StepFacts tty₀ s ev s' := by
  cases hstep with
  | start w data blocking hw =>
    exact ⟨fun h => h, fun h => h, fun _ _ _ _ h => (nomatch h), fun _ _ _ h => (nomatch h),
      fun _ _ h => (nomatch h), fun _ _ h => (nomatch h), fun _ _ _ _ _ h => (nomatch h)⟩
  | done w hw =>
    refine ⟨fun h => h, fun h => h, fun _ _ _ _ h => (nomatch h), ?_, fun _ _ h => (nomatch h),
      fun _ _ h => (nomatch h), fun _ _ _ _ _ h => (nomatch h)⟩
    intro w' data result hev
    obtain ⟨-, rfl, rfl⟩ := PtyEvent.done.inj hev
    rfl
  | chunk w hw hrest hstep | back w hw hphase hstep | killed w hw hstep =>
    obtain ⟨-, heffect⟩ := h.side.step hstep trivial
    exact ⟨heffect.hungUp, heffect.down, fun _ _ _ _ h => (nomatch h), fun _ _ _ h => (nomatch h),
      fun _ _ h => (nomatch h), fun _ _ h => (nomatch h), fun _ _ _ _ _ h => (nomatch h)⟩
  | @cut w data chunk rest blocking delivered input side hw hphase hinput hstep =>
    obtain ⟨-, heffect⟩ := h.side.step hstep trivial
    refine ⟨heffect.hungUp, heffect.down, ?_, fun _ _ _ h => (nomatch h), fun _ _ h => (nomatch h),
      fun _ _ h => (nomatch h), fun _ _ _ _ _ h => (nomatch h)⟩
    intro w' data' blocking' result hev
    obtain ⟨rfl, rfl, rfl, -⟩ := PtyEvent.cut.inj hev
    obtain ⟨b, input, rfl⟩ := exists_cons_of_ne_nil hinput
    obtain ⟨parts, now, -, -, hat⟩ := h.calls w
    rw [hw] at hat
    obtain ⟨-, -, -, hblock⟩ := hat
    rcases hstep.ofWrite_inv.2.2 w b input rfl hphase with hnot | hup
    · exact .inl (hblock.symm.trans hnot)
    · exact .inr (heffect.hungUp hup)
  | @tty e side hwrite hstep =>
    obtain ⟨-, heffect⟩ := h.side.step hstep hplain
    refine ⟨heffect.hungUp, heffect.down, fun _ _ _ _ h => (nomatch h), fun _ _ _ h => (nomatch h),
      ?_, ?_, ?_⟩
    · intro e' took hev
      obtain ⟨-, hout, -⟩ := PtyEvent.tty.inj hev
      rcases heffect.eof hout with hdown | htimed
      · exact .inl (heffect.down hdown)
      · exact .inr (htimed.of_same h.isMaster.symm h.termios.symm)
    · intro out took hev
      obtain ⟨rfl, -, -⟩ := PtyEvent.tty.inj hev
      cases hstep with
      | call => rfl
    · intro r size nonblocking out took hev hup
      obtain ⟨rfl, rfl, -⟩ := PtyEvent.tty.inj hev
      exact ttyReadTurn_hungUp hup size nonblocking

/-- a plain run tells of hang-ups and of the ends of reads and writes -/
structure RunFacts (tty₀ : Tty) (tr : List (PtyEvent R W)) (s : PtyWorld R W) : Prop where
  cut : ∀ w data blocking result, .cut w data blocking result ∈ tr →
    blocking = false ∨ s.side.tty.hungUp = true
  done : ∀ w data result, .done w data result ∈ tr → result = .written data.length
  eof : ∀ e took, .tty e (some []) took ∈ tr → s.side.tty.ttyIsDown = true ∨ tty₀.Timed
  hangs : ∀ out took, .tty (.call .markHungUp) out took ∈ tr → s.side.tty.hungUp = true

theorem RunFacts.step {ev : PtyEvent R W} (h : RunFacts tty₀ tr s) (hstep : StepFacts tty₀ s ev s') :
    RunFacts tty₀ (tr ++ [ev]) s' := by
  have hmem : ∀ {e : PtyEvent R W}, e ∈ tr ++ [ev] → e ∈ tr ∨ ev = e := fun he =>
    (mem_append.mp he).imp_right fun he => (mem_singleton.mp he).symm
  refine ⟨fun w data blocking result he => ?_, fun w data result he => ?_, fun e took he => ?_,
    fun out took he => ?_⟩
  · rcases hmem he with he | he
    · exact (h.cut w data blocking result he).imp_right hstep.hungUp
    · exact hstep.cut w data blocking result he
  · rcases hmem he with he | he
    · exact h.done w data result he
    · exact hstep.done w data result he
  · rcases hmem he with he | he
    · exact (h.eof e took he).imp_left hstep.down
    · exact hstep.eof e took he
  · rcases hmem he with he | he
    · exact hstep.hungUp (h.hangs out took he)
    · exact hstep.hangs out took he

theorem StreamInv.of_run (hok : tty₀.Ok) (hplain : tty₀.Plain)
    (h : Run (fun s ev s' => PtyStep s ev s' ∧ ev.Plain s) (PtyWorld.start tty₀) tr s) :
    StreamInv tty₀ tr s ∧ RunFacts tty₀ tr s := by
  refine h.invariant (I := fun tr s => StreamInv tty₀ tr s ∧ RunFacts tty₀ tr s) ⟨?_, ?_⟩
    fun tr s ev s' hinv hstep =>
      ⟨hinv.1.step hstep.1 hstep.2, hinv.2.step (hinv.1.facts hstep.1 hstep.2)⟩
  · exact ⟨⟨hok, hplain, fun _ => trivial, fun _ => rfl⟩, rfl, rfl, (append_nil _).symm,
      fun w => ⟨[], [], rfl, .nil, rfl, rfl⟩⟩
  · exact ⟨fun _ _ _ _ h => (nomatch h), fun _ _ _ h => (nomatch h), fun _ _ h => (nomatch h),
      fun _ _ h => (nomatch h)⟩

/-- in a plain run the reads give what was put in, the writes put in what they are given, one after
the other, and only a hang-up or a timer ends the file -/
theorem ptyStream_run (hok : tty₀.Ok) (hplain : tty₀.Plain)
    (h : Run (fun s ev s' => PtyStep s ev s' ∧ ev.Plain s) (PtyWorld.start tty₀) tr s) :
    bytesOut tr ++ s.side.tty.bytes = tty₀.bytes ++ (bytesIn tr).map Prod.snd ∧
    (∀ w, ∃ parts now, bytesBy w tr = parts.flatten ++ now ∧ Taken (callsOf w tr) parts ∧
      (s.call w = .idle → now = [])) ∧
    (∀ w data blocking result, .cut w data blocking result ∈ tr →
      blocking = false ∨ s.side.tty.hungUp = true) ∧
    (∀ w data result, .done w data result ∈ tr → result = .written data.length) ∧
    (∀ e took, .tty e (some []) took ∈ tr → s.side.tty.ttyIsDown = true ∨ tty₀.Timed) ∧
    ∀ tr₁ r size nonblocking out took tr₂, tr = tr₁ ++ .tty (.read r size nonblocking) out took :: tr₂ →
      (∃ out' took', .tty (.call .markHungUp) out' took' ∈ tr₁) → out = some [] := by
  obtain ⟨hinv, hfacts⟩ := StreamInv.of_run hok hplain h
  refine ⟨hinv.flow, fun w => ?_, hfacts.cut, hfacts.done, hfacts.eof, ?_⟩
  · obtain ⟨parts, now, hbytes, htaken, hat⟩ := hinv.calls w
    refine ⟨parts, now, hbytes, htaken, fun hidle => ?_⟩
    rw [hidle] at hat
    exact hat.2
  · rintro tr₁ r size nonblocking out took tr₂ rfl ⟨out', took', hhung⟩
    obtain ⟨s₁, s₂, hrun, hstep, -⟩ := h.at
    obtain ⟨hinv₁, hfacts₁⟩ := StreamInv.of_run hok hplain hrun
    exact (hinv₁.facts hstep.1 hstep.2).reads r size nonblocking out took rfl
      (hfacts₁.hangs out' took' hhung)

end

/-! ## one byte -/

def oneByte (b : UInt8) : List (PtyEvent Unit Unit) :=
  [.start () [b] true, .chunk (), .tty (.byte ()) none [((), b)], .back (),
    .done () [b] (.written 1)]

theorem oneByte_run {tty : Tty} {b : UInt8} {run : TtyInputRun} {rest : Rest}
    (hraw : tty.ttyLineMode = false) (hkey : tty.isSignalKey b = false)
    (htaken : ttyInputByte { Collected.fresh with tty := tty } b = some (run, rest)) :
    ∃ s : PtyWorld Unit Unit,
      Run (fun s ev s' => PtyStep s ev s' ∧ ev.Plain s) (PtyWorld.start tty) (oneByte b) s ∧
        s.side.holder = none ∧ s.side.reader () = .idle ∧
        s.side.tty = { run.tty with readable := false, writable := false } := by
  obtain ⟨s₁, henter, hholder₁, hwriter₁, hrun₁, hreader₁⟩ : ∃ s₁,
      TtyStep (.startAt (R := Unit) tty) (.enter () [b] true) s₁ ∧ s₁.holder = some () ∧
        s₁.writer () = .working [b] ∧ s₁.run () = { Collected.fresh with tty := tty } ∧
        s₁.reader () = .idle :=
    ⟨_, .enter () [b] true rfl rfl (cons_ne_nil _ _), rfl, rfl, rfl, rfl⟩
  have htty₁ : s₁.tty = tty := congrArg TtyInputRun.tty hrun₁
  -- the byte is taken
  obtain ⟨s₂, hbyte, hholder₂, hwriter₂, htty₂, hreader₂⟩ : ∃ s₂,
      TtyStep s₁ (.byte ()) s₂ ∧ s₂.holder = some () ∧ s₂.writer () = .working [] ∧
        s₂.tty = { run.tty with readable := false, writable := false } ∧
        s₂.reader () = .idle := by
    have hbyte := TtyStep.byte () hholder₁ hwriter₁ (by rw [hrun₁, htaken])
    rw [htty₁, hraw, if_neg Bool.false_ne_true] at hbyte
    obtain ⟨hholder, hreader, hwriter⟩ := TtyWorld.noteQueued_fields
      (((s₁.setCollected () run.toCollected).setWriter () (.working [])).change run.tty)
      tty.queue.used
    refine ⟨_, hbyte, hholder.trans hholder₁, ?_, TtyWorld.noteQueued_tty _ _, ?_⟩
    · rw [hwriter]
      cases hwoken : run.tty.writable <;> simp [TtyWorld.change, TtyWorld.setWriter, hwoken,
        WriterPhase.wake]
    · rw [hreader]
      cases hwoken : run.tty.readable <;> simp [TtyWorld.change, TtyWorld.setWriter,
        TtyWorld.setCollected, hwoken, hreader₁, ReaderPhase.wake]
  have htook : s₁.took (.byte ()) = [((), b)] := by
    simp only [TtyWorld.took, hwriter₁]
  have hend : ∀ b rest, [] = b :: rest → ttyInputByte (s₂.run ()) b = none ∧
      (s₂.blocking () = false ∨ s₂.tty.hungUp = true) := fun _ _ h => (nomatch h)
  have hfinish := TtyStep.finish () hholder₂ hwriter₂ hend
  -- the write over these steps
  obtain ⟨p₁, hp₁, hside₁, hcall₁⟩ : ∃ p₁ : PtyWorld Unit Unit,
      Run (fun s ev s' => PtyStep s ev s' ∧ ev.Plain s) (PtyWorld.start tty)
        [.start () [b] true, .chunk ()] p₁ ∧ p₁.side = s₁ ∧
        p₁.call () = .inside [b] [b] [] true false :=
    ⟨_, (Run.start.next ⟨.start () [b] true rfl, trivial⟩).next
      ⟨.chunk () rfl (cons_ne_nil _ _) henter, trivial⟩, rfl, rfl⟩
  subst hside₁
  have hbytePlain : PtyEvent.Plain p₁ (.tty (.byte ()) none [((), b)]) := by
    intro b' input' h
    obtain ⟨rfl, rfl⟩ := cons.inj (WriterPhase.working.inj (hwriter₁.symm.trans h))
    rw [htty₁, hkey]
  have hp₂ := hp₁.next ⟨htook ▸ PtyStep.tty rfl hbyte, hbytePlain⟩
  have hp₃ := hp₂.next ⟨PtyStep.back () hcall₁ hwriter₂ hfinish, trivial⟩
  refine ⟨_, hp₃.next ⟨.done () rfl, trivial⟩, rfl, ?_, ?_⟩
  · show (if (inputEnd s₂.tty).readable then (s₂.reader ()).wake else s₂.reader ()) = .idle
    rw [hreader₂]
    exact ite_self _
  · show { inputEnd s₂.tty with readable := false, writable := false } = _
    rw [htty₂]
    unfold inputEnd
    split <;> rfl

theorem oneByte_read {tty : Tty} {b : UInt8} {run : TtyInputRun} {rest : Rest}
    {out : Option (List UInt8)} (hraw : tty.ttyLineMode = false) (hkey : tty.isSignalKey b = false)
    (htaken : ttyInputByte { Collected.fresh with tty := tty } b = some (run, rest))
    (hread : (ttyReadTurn { run.tty with readable := false, writable := false } 1 false).out = out) :
    ∃ s : PtyWorld Unit Unit,
      Run (fun s ev s' => PtyStep s ev s' ∧ ev.Plain s) (PtyWorld.start tty)
        (oneByte b ++ [.tty (.read () 1 false) out []]) s := by
  obtain ⟨s, hrun, hholder, hreader, htty⟩ := oneByte_run hraw hkey htaken
  rw [← htty] at hread
  have hstep := PtyStep.tty rfl (TtyStep.read () 1 false hholder hreader Nat.one_pos)
  rw [show s.side.readOut (.read () 1 false) = out from hread] at hstep
  exact ⟨_, hrun.next ⟨hstep, trivial⟩⟩

/-- a slave out of line mode with `ISTRIP_` -/
def strippingSlave : Tty :=
  { Tty.ttyCreate false with termios := { Tty.slaveTermios with iflags := 0x20, lflags := 0 } }

/-- a byte written to a master is read -/
theorem ptyStream_run_byte : ∃ s : PtyWorld Unit Unit,
    Run (fun s ev s' => PtyStep s ev s' ∧ ev.Plain s) (PtyWorld.start (.ttyCreate true))
      (oneByte 97 ++ [.tty (.read () 1 false) (some [97]) []]) s ∧
    bytesOut (oneByte 97 ++ [.tty (.read () 1 false) (some [97]) []]) ++ s.side.tty.bytes =
      [97] := by
  obtain ⟨s, hrun⟩ := @oneByte_read (.ttyCreate true) 97 _ _ (some [97]) rfl rfl rfl
    (by decide +kernel)
  have hplain : (Tty.ttyCreate true).Plain := ⟨rfl, rfl, fun _ => rfl, fun _ => rfl⟩
  exact ⟨s, hrun, (ptyStream_run (ttyCreate_ok true) hplain hrun).1⟩

/-- a byte comes in changed; and a byte that was reported as written is not read before the end of
the file -/
theorem ptyStream_lost : (∃ s : PtyWorld Unit Unit,
      Run (fun s ev s' => PtyStep s ev s' ∧ ev.Plain s) (PtyWorld.start strippingSlave)
        (oneByte 0xc1 ++ [.tty (.read () 1 false) (some [0x41]) []]) s) ∧
    ∃ s : PtyWorld Unit Unit,
      Run (fun s ev s' => PtyStep s ev s' ∧ ev.Plain s) (PtyWorld.start (.ttyCreate true))
        (oneByte 97 ++ [.tty (.call .markHungUp) none []] ++
          [.tty (.read () 1 false) (some []) []]) s := by
  refine ⟨@oneByte_read strippingSlave 0xc1 _ _ (some [0x41]) rfl rfl rfl (by decide +kernel), ?_⟩
  obtain ⟨s, hrun, hholder, hreader, htty⟩ := @oneByte_run (.ttyCreate true) 97 _ _ rfl rfl rfl
  have hhung := hrun.next ⟨.tty rfl (.call .markHungUp hholder rfl), rfl⟩
  obtain ⟨side, hside, hholder', hidle, hup⟩ : ∃ side : TtyWorld Unit Unit,
      side = s.side.change (TtyCall.markHungUp.apply s.side.tty) ∧ side.holder = none ∧
        side.reader () = .idle ∧ side.tty.hungUp = true := by
    refine ⟨_, rfl, hholder, ?_, rfl⟩
    show (if (TtyCall.markHungUp.apply s.side.tty).readable then (s.side.reader ()).wake
      else s.side.reader ()) = .idle
    rw [hreader]
    exact ite_self _
  rw [← hside] at hhung
  have hread := PtyStep.tty (s := s.setSide side) rfl
    (TtyStep.read () 1 false hholder' hidle Nat.one_pos)
  rw [show (s.setSide side).side.readOut (.read () 1 false) = some [] from
    ttyReadTurn_hungUp hup 1 false] at hread
  exact ⟨_, hhung.next ⟨hread, trivial⟩⟩

end Pscal.Terminal
