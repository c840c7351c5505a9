import Mathlib
import Pscal.VProc.SessionOutput

/-!
# Session output in order

* `OutputInv`  the backlog is the newest output, and what went before is in order;
* `Orderly`  steps that hand nothing over past output that is still on its way, and nothing twice;
* `OutputInv.step`  these keep the invariant;
* `sessionOutput_inOrder`  runs of such steps deliver in order, and lose only at the limit.
-/

namespace Pscal

open Transitions List Option OutputWorld

/-! ## the backlog -/

variable {entry entry' : VProcSessionPtyEntry} {memory : Bool} {sent : List SentByte}

theorem ensurePendingCapacity_fields {needed : Nat}
    (h : ensurePendingCapacity entry needed memory = some entry') :
    ∃ cap, entry' = { entry with pendingOutputCap := cap } := by
  unfold ensurePendingCapacity at h
  dsimp only at h
  split at h
  · cases h
    exact ⟨_, rfl⟩
  split at h
  · cases h
    exact ⟨_, rfl⟩
  · cases h

theorem ensured {needed : Nat} {f : VProcSessionPtyEntry → VProcSessionPtyEntry}
    (h : (do let e ← ensurePendingCapacity entry needed memory return f e) = some entry') :
    ∃ cap, entry' = f { entry with pendingOutputCap := cap } := by
  obtain ⟨e, he, h⟩ := bind_eq_some_iff.mp h
  obtain ⟨cap, rfl⟩ := ensurePendingCapacity_fields he
  exact ⟨cap, (some_inj.mp h).symm⟩

/-- the backlog cannot take these bytes in addition, or could not take earlier ones -/
def VProcSessionPtyEntry.AtLimit (entry : VProcSessionPtyEntry) (len : Nat) : Prop :=
  entry.outputBacklogSaturated = true ∨ sessionOutputBacklogMax ≤ len ∨
    sessionOutputBacklogMax < entry.pendingOutput.length + len

theorem freshTail_small {data : List SentByte} (h : ¬ sessionOutputBacklogMax ≤ data.length) :
    data = freshTail data := by
  unfold freshTail
  rw [Nat.sub_eq_zero_of_le (Nat.le_of_not_le h), drop_zero]

theorem queueOutput_spec {data : List SentByte} (hdata : data ≠ [])
    (h : queueOutput entry data memory = some entry') :
    entry'.outputHandler = entry.outputHandler ∧ entry'.outputPaused = entry.outputPaused ∧
    (entry.outputBacklogSaturated = false ∧ entry'.pendingOutput = entry.pendingOutput ++ data ∧
        entry'.outputBacklogSaturated = false ∨
      entry.AtLimit data.length ∧ entry'.pendingOutput = freshTail data ∧
        entry'.outputBacklogSaturated = true) := by
  unfold queueOutput at h
  rw [if_neg hdata] at h
  by_cases hsaturated : entry.outputBacklogSaturated = true
  · have hlimit : entry.AtLimit data.length := .inl hsaturated
    rw [if_pos hsaturated] at h
    split at h
    · obtain ⟨cap, rfl⟩ := ensured h
      exact ⟨rfl, rfl, .inr ⟨hlimit, rfl, hsaturated⟩⟩
    · rename_i hlarge
      obtain ⟨cap, rfl⟩ := ensured h
      have htail := freshTail_small hlarge
      exact ⟨rfl, rfl, .inr ⟨hlimit, htail, hsaturated⟩⟩
  rw [if_neg hsaturated] at h
  split at h
  · rename_i hlarge
    obtain ⟨cap, rfl⟩ := ensured h
    exact ⟨rfl, rfl, .inr ⟨.inr (.inl hlarge), rfl, rfl⟩⟩
  rename_i hlarge
  split at h
  · rename_i htotal
    obtain ⟨cap, rfl⟩ := ensured h
    have htail := freshTail_small hlarge
    exact ⟨rfl, rfl, .inr ⟨.inr (.inr htotal), htail, rfl⟩⟩
  · obtain ⟨cap, rfl⟩ := ensured h
    have hroom := Bool.eq_false_iff.mpr hsaturated
    exact ⟨rfl, rfl, .inl ⟨hroom, rfl, hroom⟩⟩

inductive Dispatched (entry : VProcSessionPtyEntry) (data : List SentByte) :
    VProcSessionPtyEntry → OutputDispatch → Prop where
  | handled (handler : Nat) (hdirect : entry.Direct) : Dispatched entry data entry (.handled handler)
  | dropped : Dispatched entry data entry .dropped
  | appended {entry' : VProcSessionPtyEntry} (hheld : ¬ entry.Direct)
      (hroom : entry.outputBacklogSaturated = false)
      (hpending : entry'.pendingOutput = entry.pendingOutput ++ data) :
      Dispatched entry data entry' .queued
  | replaced {entry' : VProcSessionPtyEntry} {result : OutputDispatch} (hheld : ¬ entry.Direct)
      (hlimit : entry.AtLimit data.length) (hpending : entry'.pendingOutput = freshTail data)
      (hresult : result = .queued ∨ result = .throttled) : Dispatched entry data entry' result

section
variable {entry : Option VProcSessionPtyEntry} {e : VProcSessionPtyEntry} {data : List SentByte}
  {slot memory : Bool}

theorem dispatchOutput_direct (data : List SentByte) (memory : Bool)
    (he : ensureEntry entry slot = some e) (hdirect : e.Direct) :
    ∃ handler, dispatchOutput entry data slot memory = (some e, .handled handler) := by
  obtain ⟨hsome, hpaused⟩ := hdirect
  obtain ⟨handler, hhandler⟩ := isSome_iff_exists.mp hsome
  refine ⟨handler, ?_⟩
  unfold dispatchOutput
  rw [he]
  dsimp only
  rw [hhandler, hpaused]

theorem dispatchOutput_held (he : ensureEntry entry slot = some e) (hheld : ¬ e.Direct) :
    dispatchOutput entry data slot memory =
      (queueOutput e data memory).elim (some e, .dropped) fun e' =>
        (some e',
          if e'.outputPaused = true ∧ e'.outputBacklogSaturated = true then .throttled
          else .queued) := by
  unfold dispatchOutput
  rw [he]
  dsimp only
  split
  · rename_i hhandler hpaused
    exact absurd ⟨by rw [hhandler]; rfl, hpaused⟩ hheld
  · cases queueOutput e data memory <;> rfl

theorem dispatchOutput_spec (memory : Bool) (hdata : data ≠ []) (he : ensureEntry entry slot = some e) :
    ∃ e' result, dispatchOutput entry data slot memory = (some e', result) ∧
      Dispatched e data e' result := by
  by_cases hdirect : e.Direct
  · obtain ⟨handler, h⟩ := dispatchOutput_direct data memory he hdirect
    exact ⟨e, _, h, .handled handler hdirect⟩
  rw [dispatchOutput_held he hdirect]
  cases hqueue : queueOutput e data memory with
  | none => exact ⟨e, _, rfl, .dropped⟩
  | some e' =>
    obtain ⟨-, -, hcase⟩ := queueOutput_spec hdata hqueue
    rcases hcase with ⟨hroom, hpending, hsaturated⟩ | ⟨hlimit, hpending, -⟩
    · refine ⟨e', .queued, ?_, .appended hdirect hroom hpending⟩
      rw [elim_some, if_neg]
      rintro ⟨-, h⟩
      exact absurd (hsaturated.symm.trans h) Bool.false_ne_true
    · refine ⟨e', _, rfl, .replaced hdirect hlimit hpending ?_⟩
      split
      · exact .inr rfl
      · exact .inl rfl

end

/-! ## places -/

theorem length_numberFrom (place : Nat) (data : List UInt8) :
    (numberFrom place data).length = data.length := by
  unfold numberFrom
  rw [length_map, length_zipIdx]

theorem numberFrom_ne (place : Nat) {data : List UInt8} (h : data ≠ []) :
    numberFrom place data ≠ [] := by
  intro hnil
  have hlength := length_numberFrom place data
  rw [hnil] at hlength
  exact h (length_eq_zero_iff.mp hlength.symm)

def Numbered (sent : List SentByte) : Prop :=
  sent.map SentByte.place = List.range sent.length

theorem Numbered.append (h : Numbered sent) (data : List UInt8) :
    Numbered (sent ++ numberFrom sent.length data) := by
  have hplaces : (numberFrom sent.length data).map SentByte.place =
      range' sent.length data.length := by
    unfold numberFrom
    rw [List.map_map, ← zipIdx_map_snd]
    rfl
  unfold Numbered at h ⊢
  have happend := range'_append_1 (s := 0) (m := sent.length) (n := data.length)
  rw [Nat.zero_add] at happend
  rw [map_append, h, hplaces, length_append, length_numberFrom, range_eq_range',
    range_eq_range', happend]

theorem Numbered.pairwise (h : Numbered sent) : sent.Pairwise fun b b' => b.place < b'.place := by
  have hpairwise : (sent.map SentByte.place).Pairwise (· < ·) := by
    rw [h]
    exact pairwise_lt_range
  exact pairwise_map.mp hpairwise

theorem Numbered.nodup (h : Numbered sent) : sent.Nodup := by
  refine h.pairwise.imp fun hlt heq => ?_
  rw [heq] at hlt
  exact Nat.lt_irrefl _ hlt

/-! ## order -/

namespace OutputWorld

variable (w : OutputWorld)

def account : List SentByte := w.received ++ w.onItsWay ++ w.queued

def Lost (b : SentByte) : Prop := b ∈ w.dispatched ∧ b ∉ w.account

/-- the dispatch is held back, and the backlog is at its limit -/
def DiscardsAt : OutputAction → Prop
  | .dispatch _ data slot _ =>
    ∃ entry, ensureEntry w.entry slot = some entry ∧ ¬ entry.Direct ∧ entry.AtLimit data.length
  | _ => False

/-- Output goes to a handler only when nothing before it is queued or on its way, and it is not
dispatched once more after it has left the backlog. -/
def Orderly : OutputAction → Prop
  | .dispatch _ _ slot _ =>
    ∀ entry, ensureEntry w.entry slot = some entry → entry.Direct →
      w.handovers = [] ∧ entry.pendingOutput = []
  | .resend _ _ =>
    ∃ entry, w.entry = some entry ∧ ¬ entry.Direct ∧ entry.outputBacklogSaturated = true
  | .setOutputHandler handler slot memory =>
    ∀ entry, ensureEntry w.entry slot = some entry → handler ≠ none → entry.outputPaused = false →
      entry.pendingOutput ≠ [] → memory = true → w.handovers = []
  | .setOutputPaused paused memory =>
    ∀ entry, w.entry = some entry → entry.outputHandler ≠ none → paused = false →
      entry.pendingOutput ≠ [] → memory = true → w.handovers = []
  | _ => True

end OutputWorld

/-- The backlog is the newest output. What has gone before it is in order, at most one piece of it
on its way. -/
structure OutputInv (w : OutputWorld) : Prop where
  numbered : Numbered w.dispatched
  split : ∃ earlier, w.dispatched = earlier ++ w.queued ∧
    (w.received ++ w.onItsWay).Sublist earlier
  single : w.handovers.length ≤ 1
  calling : ∀ handler data, w.source = .calling handler data → w.handovers = [] ∧ w.queued = []
  retrying : ∀ data, w.source = .retrying data → data ≠ [] ∧
    ∃ entry, w.entry = some entry ∧
      (entry.outputBacklogSaturated = true → entry.pendingOutput = freshTail data)

namespace OutputInv

variable {w w' : OutputWorld}

theorem split_nil (h : ∃ earlier, w.dispatched = earlier ++ w.queued ∧
    (w.received ++ w.onItsWay).Sublist earlier) : w.account.Sublist w.dispatched := by
  obtain ⟨earlier, hdispatched, hsub⟩ := h
  rw [hdispatched]
  exact hsub.append (Sublist.refl _)

theorem keep (h : OutputInv w) (hdispatched : w'.dispatched = w.dispatched)
    (haccount : w'.account = w.account) (hqueued : w'.queued = w.queued ∨ w'.queued = []) :
    ∃ earlier, w'.dispatched = earlier ++ w'.queued ∧
      (w'.received ++ w'.onItsWay).Sublist earlier := by
  rcases hqueued with hsame | hnil
  · obtain ⟨earlier, hsplit, hsub⟩ := h.split
    have hfront : w'.received ++ w'.onItsWay = w.received ++ w.onItsWay := by
      unfold account at haccount
      rw [hsame] at haccount
      exact append_cancel_right haccount
    refine ⟨earlier, ?_, ?_⟩
    · rw [hdispatched, hsame, hsplit]
    · rw [hfront]
      exact hsub
  · refine ⟨w'.dispatched, by rw [hnil, append_nil], ?_⟩
    have hfront : w'.received ++ w'.onItsWay = w.account := by
      rw [← haccount]
      unfold account
      rw [hnil, append_nil]
    rw [hfront, hdispatched]
    exact split_nil h.split

variable {slot : Bool} {result : OutputDispatch} {caller : OutputCaller}

theorem ensureEntry_queued {entry : Option VProcSessionPtyEntry} {e : VProcSessionPtyEntry}
    (h : ensureEntry entry slot = some e) :
    entry.elim [] VProcSessionPtyEntry.pendingOutput = e.pendingOutput := by
  cases entry with
  | some e' =>
    cases h
    rfl
  | none =>
    unfold ensureEntry at h
    dsimp only at h
    split at h
    · cases h
      rfl
    · cases h

/-! ## steps -/

def Kept (w : OutputWorld) (a : OutputAction) (w' : OutputWorld) : Prop :=
  OutputInv w' ∧ ∀ b, w'.Lost b → w.Lost b ∨ w.DiscardsAt a

theorem kept {a : OutputAction} (h : OutputInv w') (hdispatched : w'.dispatched = w.dispatched)
    (haccount : w'.account = w.account) : Kept w a w' := by
  refine ⟨h, fun b hb => .inl ?_⟩
  unfold OutputWorld.Lost at hb ⊢
  rw [← hdispatched, ← haccount]
  exact hb

theorem callHandler (h : OutputInv w) (hs : outputStep w .callHandler = some w') :
    Kept w .callHandler w' := by
  unfold outputStep at hs
  dsimp only at hs
  split at hs
  · rename_i handler data hsource
    cases hs
    obtain ⟨hnone, hempty⟩ := h.calling handler data hsource
    have haccount : account { w with source := .idle, received := w.received ++ data } =
        w.account := by
      unfold account onItsWay
      rw [hnone, hsource]
      show (w.received ++ data) ++ [] ++ w.queued = w.received ++ ([] ++ data) ++ w.queued
      rw [append_nil, nil_append]
    refine kept ⟨h.numbered, keep h rfl haccount (.inl rfl), h.single, fun _ _ hs => ?_,
      fun _ hs => ?_⟩ rfl haccount
    · cases hs
    · cases hs
  · cases hs

theorem poll (h : OutputInv w) (hs : outputStep w .poll = some w') : Kept w .poll w' := by
  unfold outputStep at hs
  dsimp only at hs
  split at hs
  · rename_i hpoll
    cases hs
    have haccount : account { w with source := .idle } = w.account := by
      unfold account onItsWay
      rw [hpoll.1]
      rfl
    refine kept ⟨h.numbered, keep h rfl haccount (.inl rfl), h.single, fun _ _ hs => ?_,
      fun _ hs => ?_⟩ rfl haccount
    · cases hs
    · cases hs
  · cases hs

theorem handing_nil {source : OutputSource} (h : ∀ handler data, source ≠ .calling handler data) :
    source.handing = [] := by
  cases source with
  | calling handler data => exact absurd rfl (h handler data)
  | idle => rfl
  | backoff => rfl
  | retrying data => rfl

theorem handOver {k : Nat} (h : OutputInv w) (hs : outputStep w (.handOver k) = some w') :
    Kept w (.handOver k) w' := by
  unfold outputStep at hs
  dsimp only at hs
  split at hs
  · rename_i handler data hk
    cases hs
    -- it is the only one
    have hone : w.handovers = [(handler, data)] ∧ k = 0 := by
      have hsingle := h.single
      cases hlist : w.handovers with
      | nil =>
        rw [hlist] at hk
        cases hk
      | cons p rest =>
        rw [hlist, length_cons] at hsingle
        obtain rfl : rest = [] := length_eq_zero_iff.mp (by omega)
        rw [hlist] at hk
        cases k with
        | zero =>
          cases hk
          exact ⟨rfl, rfl⟩
        | succ k => cases hk
    obtain ⟨hlist, rfl⟩ := hone
    have hquiet : w.source.handing = [] := handing_nil fun handler' data' hsource => by
      have hnone := (h.calling handler' data' hsource).1
      rw [hlist] at hnone
      cases hnone
    have haccount : account
        { w with handovers := w.handovers.eraseIdx 0, received := w.received ++ data } =
          w.account := by
      unfold account onItsWay
      rw [hlist, hquiet]
      show (w.received ++ data) ++ [] ++ w.queued = w.received ++ ((data ++ []) ++ []) ++ w.queued
      rw [append_nil, append_nil, append_nil]
    refine kept ⟨h.numbered, keep h rfl haccount (.inl rfl), ?_, fun handler' data' hsource => ?_,
      h.retrying⟩ rfl haccount
    · rw [hlist]
      exact Nat.zero_le 1
    · have hnone := (h.calling handler' data' hsource).1
      rw [hlist] at hnone
      cases hnone
  · cases hs

/-! ## a new handler, pausing and resuming -/

variable {memory : Bool} {sent : List SentByte}

theorem settle {a : OutputAction} {e e' : VProcSessionPtyEntry} (h : OutputInv w)
    (hqueued : w.queued = e.pendingOutput) (hpending : e'.pendingOutput = e.pendingOutput)
    (hentry : ∀ entry, w.entry = some entry → entry = e)
    (hsaturated : e'.outputBacklogSaturated = e.outputBacklogSaturated)
    (hfree : e'.outputHandler ≠ none → e'.outputPaused = false → e'.pendingOutput ≠ [] → memory =
      true → w.handovers = []) : Kept w a (w.settle e' memory) := by
  have hstay : takePending e' memory = (e', none) → Kept w a (w.settle e' memory) := by
    intro htake
    have hw : w.settle e' memory = { w with entry := some e' } := by
      unfold OutputWorld.settle
      rw [htake]
      show OutputWorld.mk _ _ (w.handovers ++ []) _ _ = _
      rw [append_nil]
    rw [hw]
    have hsame : queued { w with entry := some e' } = w.queued := by
      rw [hqueued]
      exact hpending
    have haccount : account { w with entry := some e' } = w.account := by
      unfold account
      rw [hsame]
      rfl
    refine kept ⟨h.numbered, keep h rfl haccount (.inl hsame), h.single, fun handler data hs => ?_,
      fun data hs => ⟨(h.retrying data hs).1, e', rfl, fun hsat => ?_⟩⟩ rfl haccount
    · rw [hsame]
      exact h.calling handler data hs
    · obtain ⟨-, entry, hsome, hpend⟩ := h.retrying data hs
      obtain rfl := hentry entry hsome
      rw [hpending]
      exact hpend (hsaturated.symm.trans hsat)
  cases hhandler : e'.outputHandler with
  | none =>
    refine hstay ?_
    unfold takePending
    rw [hhandler]
  | some handler =>
    by_cases htakes : e'.outputPaused = false ∧ e'.pendingOutput ≠ [] ∧ memory = true
    · obtain ⟨hpaused, hsome, hmemory⟩ := htakes
      have hnone := hfree (by rw [hhandler]; exact some_ne_none _) hpaused hsome hmemory
      have hquiet : w.source.handing = [] := handing_nil fun handler' data hsource => by
        have hempty := (h.calling handler' data hsource).2
        rw [hqueued, ← hpending] at hempty
        exact hsome hempty
      have hw : w.settle e' memory =
          { w with
            entry := some { e' with pendingOutput := [], outputBacklogSaturated := false }
            handovers := [(handler, e'.pendingOutput)] } := by
        unfold OutputWorld.settle takePending
        rw [hhandler]
        dsimp only
        rw [if_pos ⟨hpaused, hsome, hmemory⟩, hnone]
        rfl
      rw [hw]
      have haccount : account
          { w with
            entry := some { e' with pendingOutput := [], outputBacklogSaturated := false }
            handovers := [(handler, e'.pendingOutput)] } = w.account := by
        unfold account onItsWay
        rw [hnone, hquiet, hqueued, ← hpending]
        show w.received ++ ((e'.pendingOutput ++ []) ++ []) ++ [] =
          w.received ++ ([] ++ []) ++ e'.pendingOutput
        simp only [append_nil]
      refine kept ⟨h.numbered, keep h rfl haccount (.inr rfl), Nat.le_refl 1,
        fun handler' data hs => ?_,
        fun data hs => ⟨(h.retrying data hs).1, _, rfl, fun hsat => (by cases hsat)⟩⟩ rfl haccount
      have hempty := (h.calling handler' data hs).2
      rw [hqueued, ← hpending] at hempty
      exact absurd hempty hsome
    · refine hstay ?_
      unfold takePending
      rw [hhandler]
      exact if_neg htakes

theorem setOutputHandler {handler : Option Nat} (h : OutputInv w)
    (ho : w.Orderly (.setOutputHandler handler slot memory))
    (hs : outputStep w (.setOutputHandler handler slot memory) = some w') :
    Kept w (.setOutputHandler handler slot memory) w' := by
  unfold outputStep at hs
  dsimp only at hs
  split at hs
  · cases hs
    exact kept h rfl rfl
  · rename_i e he
    cases hs
    refine settle (e := e) h (ensureEntry_queued he) rfl (fun entry hentry => ?_) rfl (ho e he)
    rw [hentry] at he
    exact some_inj.mp he

theorem setOutputPaused {paused : Bool} (h : OutputInv w)
    (ho : w.Orderly (.setOutputPaused paused memory))
    (hs : outputStep w (.setOutputPaused paused memory) = some w') :
    Kept w (.setOutputPaused paused memory) w' := by
  unfold outputStep at hs
  dsimp only at hs
  split at hs
  · cases hs
    exact kept h rfl rfl
  · rename_i e he
    cases hs
    refine settle (e := e) h ?_ rfl (fun entry hentry => ?_) rfl (ho e he)
    · unfold queued
      rw [he]
      rfl
    · exact some_inj.mp (hentry.symm.trans he)

/-! ## dispatching -/

theorem freshTail_split (data : List SentByte) : ∃ head, data = head ++ freshTail data :=
  ⟨_, (take_append_drop (data.length - sessionOutputBacklogMax) data).symm⟩

theorem handing_after (caller : OutputCaller) (sent : List SentByte)
    (h : ∀ handler, result ≠ .handled handler) :
    (OutputSource.after caller sent result).handing = [] ∧
      ∀ handler data, OutputSource.after caller sent result ≠ .calling handler data := by
  cases result with
  | handled handler => exact absurd rfl (h handler)
  | dropped => exact ⟨rfl, fun _ _ h => by cases h⟩
  | queued => exact ⟨rfl, fun _ _ h => by cases h⟩
  | throttled => cases caller <;> exact ⟨rfl, fun _ _ h => by cases h⟩

theorem after_retrying {data : List SentByte}
    (h : OutputSource.after caller sent result = .retrying data) :
    result = .throttled ∧ data = sent := by
  cases result with
  | throttled =>
    cases caller with
    | ptyThread => cases h
    | emitOutput =>
      cases h
      exact ⟨rfl, rfl⟩
  | dropped => cases h
  | queued => cases h
  | handled handler => cases h

theorem held (front : List SentByte) {e' : VProcSessionPtyEntry} (h : OutputInv w)
    (hsource : w.source = .idle) (hnumbered : Numbered (w.dispatched ++ sent))
    (hresult : ∀ handler, result ≠ .handled handler)
    (hqueue : w.queued ++ sent = front ++ e'.pendingOutput)
    (hretry : result = .throttled → sent ≠ [] ∧ e'.pendingOutput = freshTail sent) : OutputInv
      { w with
        entry := some e'
        source := .after caller sent result
        dispatched := w.dispatched ++ sent } := by
  obtain ⟨hquiet, hcalls⟩ := handing_after caller sent hresult
  obtain ⟨earlier, hsplit, hsub⟩ := h.split
  refine ⟨hnumbered, ⟨earlier ++ front, ?_, ?_⟩, h.single, fun handler data hs => ?_,
    fun data hs => ?_⟩
  · show w.dispatched ++ sent = (earlier ++ front) ++ e'.pendingOutput
    rw [hsplit, append_assoc, append_assoc, hqueue]
  · unfold onItsWay at hsub ⊢
    rw [hsource] at hsub
    dsimp only
    rw [hquiet]
    exact hsub.trans (sublist_append_left earlier front)
  · exact absurd hs (hcalls handler data)
  · obtain ⟨hthrottled, rfl⟩ := after_retrying hs
    obtain ⟨hne, hpending⟩ := hretry hthrottled
    exact ⟨hne, e', rfl, fun _ => hpending⟩

theorem lost_of_accounted (hdispatched : w'.dispatched = w.dispatched ++ sent)
    (haccount : w'.account = w.account ++ sent) {b : SentByte} (h : w'.Lost b) : w.Lost b := by
  obtain ⟨hmem, hno⟩ := h
  rw [hdispatched] at hmem
  rw [haccount, mem_append, not_or] at hno
  rcases mem_append.mp hmem with hmem | hmem
  · exact ⟨hmem, hno.1⟩
  · exact absurd hmem hno.2

theorem dispatch {data : List UInt8} (h : OutputInv w)
    (ho : w.Orderly (.dispatch caller data slot memory))
    (hs : outputStep w (.dispatch caller data slot memory) = some w') :
    Kept w (.dispatch caller data slot memory) w' := by
  unfold outputStep at hs
  dsimp only at hs
  split at hs
  on_goal 2 => cases hs
  rename_i hcan
  obtain ⟨hsource, hdata, -⟩ := hcan
  have hsome := numberFrom_ne w.dispatched.length hdata
  have hnumbered := h.numbered.append data
  have hlength := length_numberFrom w.dispatched.length data
  generalize numberFrom w.dispatched.length data = sent at hs hsome hnumbered hlength
  have hquiet : w.source.handing = [] := by
    rw [hsource]
    rfl
  -- nothing is dispatched
  have hdropped : ∀ entry, entry.elim [] VProcSessionPtyEntry.pendingOutput = w.queued →
      Kept w (.dispatch caller data slot memory) { w with entry := entry, source := .idle } := by
    intro entry hentry
    have haccount : account { w with entry := entry, source := .idle } = w.account := by
      unfold account onItsWay
      rw [hquiet]
      exact congrArg _ hentry
    refine kept ⟨h.numbered, keep h rfl haccount (.inl hentry), h.single, fun _ _ hs => ?_,
      fun _ hs => ?_⟩ rfl haccount
    · cases hs
    · cases hs
  cases he : ensureEntry w.entry slot with
  | none =>
    have hnone : w.entry = none := by
      cases hentry : w.entry with
      | none => rfl
      | some e =>
        rw [hentry] at he
        cases he
    have hresult : dispatchOutput w.entry sent slot memory = (none, .dropped) := by
      unfold dispatchOutput
      rw [he]
    rw [hresult] at hs
    cases hs
    refine hdropped none ?_
    unfold queued
    rw [hnone]
  | some e =>
    have hqueued : w.queued = e.pendingOutput := ensureEntry_queued he
    obtain ⟨e', result, hresult, hspec⟩ := dispatchOutput_spec memory hsome he
    rw [hresult] at hs
    cases hs
    cases hspec with
    | dropped => exact hdropped (some e) hqueued.symm
    | handled handler hdirect =>
      obtain ⟨hnone, hempty⟩ := ho e he hdirect
      have hempty' : w.queued = [] := hqueued.trans hempty
      obtain ⟨earlier, hsplit, hsub⟩ := h.split
      rw [hempty', append_nil] at hsplit
      have hfront : w.received.Sublist w.dispatched := by
        rw [hsplit]
        unfold onItsWay at hsub
        rw [hnone, hquiet] at hsub
        change (w.received ++ []).Sublist earlier at hsub
        rwa [append_nil] at hsub
      refine ⟨⟨hnumbered, ⟨w.dispatched ++ sent, ?_, ?_⟩, h.single, fun _ _ _ => ⟨hnone, hempty⟩,
        fun _ hs => (by cases hs)⟩, fun b hb => .inl ?_⟩
      · show w.dispatched ++ sent = (w.dispatched ++ sent) ++ e.pendingOutput
        rw [hempty, append_nil]
      · show (w.received ++ (w.handovers.flatMap Prod.snd ++ sent)).Sublist (w.dispatched ++ sent)
        rw [hnone]
        exact hfront.append (Sublist.refl sent)
      · refine lost_of_accounted rfl ?_ hb
        unfold account onItsWay
        rw [hquiet, hempty']
        show w.received ++ (w.handovers.flatMap Prod.snd ++ sent) ++ e.pendingOutput = _
        rw [hempty, append_nil, append_nil, append_nil, append_assoc]
    | appended hheld hroom hpending =>
      refine ⟨held [] h hsource hnumbered (fun _ h => (by cases h)) ?_
        (fun h => (by cases h)), fun b hb => .inl ?_⟩
      · rw [hpending, hqueued]
        rfl
      · refine lost_of_accounted rfl ?_ hb
        unfold account onItsWay
        rw [hquiet, hqueued]
        show w.received ++ (w.handovers.flatMap Prod.snd ++ []) ++ e'.pendingOutput = _
        rw [hpending, append_assoc (_ ++ _)]
    | replaced hheld hlimit hpending hresult' =>
      obtain ⟨head, hhead⟩ := freshTail_split sent
      have hkept : OutputInv
          { w with
            entry := some e'
            source := .after caller sent result
            dispatched := w.dispatched ++ sent } := by
        refine held (w.queued ++ head) h hsource hnumbered ?_ ?_ fun _ => ⟨hsome, hpending⟩
        · rintro handler rfl
          rcases hresult' with h | h <;> cases h
        · rw [hpending, append_assoc, ← hhead]
      have hnot : result ≠ .dropped := by
        rintro rfl
        rcases hresult' with h | h <;> cases h
      dsimp only
      rw [if_neg hnot]
      exact ⟨hkept, fun b _ => .inr ⟨e, he, hheld, hlength ▸ hlimit⟩⟩

theorem resend (h : OutputInv w) (ho : w.Orderly (.resend slot memory))
    (hs : outputStep w (.resend slot memory) = some w') : Kept w (.resend slot memory) w' := by
  unfold outputStep at hs
  dsimp only at hs
  split at hs
  on_goal 2 => cases hs
  rename_i sent hsource
  obtain ⟨hsome, e, hentry, hpend⟩ := h.retrying sent hsource
  obtain ⟨e₁, hentry₁, hheld, hsaturated⟩ := ho
  cases hentry.symm.trans hentry₁
  have he : ensureEntry w.entry slot = some e := by
    rw [hentry]
    rfl
  obtain ⟨e', result, hresult, hspec⟩ := dispatchOutput_spec memory hsome he
  rw [hresult] at hs
  cases hs
  dsimp only
  have hsame : e'.pendingOutput = e.pendingOutput ∧ (∀ handler, result ≠ .handled handler) := by
    cases hspec with
    | dropped => exact ⟨rfl, fun _ h => by cases h⟩
    | handled handler hdirect => exact absurd hdirect hheld
    | appended _ hroom _ => exact absurd (hroom.symm.trans hsaturated) Bool.false_ne_true
    | replaced _ _ hpending hresult' =>
      refine ⟨hpending.trans (hpend hsaturated).symm, ?_⟩
      rintro handler rfl
      rcases hresult' with h | h <;> cases h
  obtain ⟨hpending, hheld'⟩ := hsame
  obtain ⟨hquiet, hcalls⟩ := handing_after .emitOutput sent hheld'
  have hqueued : w.queued = e'.pendingOutput := by
    unfold queued
    rw [hentry]
    exact hpending.symm
  have haccount : account
      { w with entry := some e', source := .after .emitOutput sent result } = w.account := by
    unfold account onItsWay
    rw [hqueued, hsource]
    dsimp only
    rw [hquiet]
    rfl
  refine kept ⟨h.numbered, keep h rfl haccount (.inl hqueued.symm), h.single, fun handler data hs => ?_,
    fun data hs => ?_⟩ rfl haccount
  · exact absurd hs (hcalls handler data)
  · change OutputSource.after .emitOutput sent result = .retrying data at hs
    obtain ⟨-, rfl⟩ := after_retrying hs
    exact ⟨hsome, e', rfl, fun _ => hpending.trans (hpend hsaturated)⟩

theorem step {a : OutputAction} (h : OutputInv w) (ho : w.Orderly a)
    (hs : outputStep w a = some w') : Kept w a w' := by
  cases a with
  | dispatch caller data slot memory => exact dispatch h ho hs
  | resend slot memory => exact resend h ho hs
  | callHandler => exact callHandler h hs
  | poll => exact poll h hs
  | setOutputHandler handler slot memory => exact setOutputHandler h ho hs
  | setOutputPaused paused memory => exact setOutputPaused h ho hs
  | handOver k => exact handOver h hs

theorem start (entry : Option VProcSessionPtyEntry) : OutputInv (.start entry) := by
  refine ⟨rfl, ⟨[], ?_, Sublist.refl []⟩, Nat.zero_le 1, fun _ _ h => (by cases h),
    fun _ h => (by cases h)⟩
  cases entry <;> rfl

end OutputInv

/-! ## runs -/

def OutputStep (w : OutputWorld) (a : OutputAction) (w' : OutputWorld) : Prop :=
  outputStep w a = some w'

/-- The handlers have received dispatched bytes in their order and no byte twice; what is queued is
newer than what is lost. -/
structure InDispatchOrder (w : OutputWorld) : Prop where
  order : w.received.Sublist w.dispatched
  places : Numbered w.dispatched
  once : w.received.Nodup
  newer : ∀ b, w.Lost b → ∀ b' ∈ w.queued, b.place < b'.place

theorem OutputInv.inDispatchOrder {w : OutputWorld} (h : OutputInv w) : InDispatchOrder w := by
  obtain ⟨earlier, hsplit, hsub⟩ := h.split
  have hreceived : w.received.Sublist w.dispatched := by
    rw [hsplit]
    exact ((sublist_append_left _ _).trans hsub).trans (sublist_append_left _ _)
  refine ⟨hreceived, h.numbered, h.numbered.nodup.sublist hreceived, fun b hb b' hb' => ?_⟩
  obtain ⟨hmem, hno⟩ := hb
  have hpairwise := h.numbered.pairwise
  rw [hsplit] at hmem hpairwise
  rcases mem_append.mp hmem with hmem | hmem
  · exact (pairwise_append.mp hpairwise).2.2 b hmem b' hb'
  · exact absurd (mem_append_right _ hmem) hno

section
variable {entry : Option VProcSessionPtyEntry}

def OrderlyStep (w : OutputWorld) (a : OutputAction) (w' : OutputWorld) : Prop :=
  OutputStep w a w' ∧ w.Orderly a

theorem orderly_inv {tr : List OutputAction} {w : OutputWorld}
    (hrun : Run OrderlyStep (.start entry) tr w) : OutputInv w :=
  hrun.invariant (I := fun _ w => OutputInv w) (OutputInv.start entry)
    fun _ _ _ _ h hstep => (h.step hstep.2 hstep.1).1

def DiscardedIn (w₀ : OutputWorld) (tr : List OutputAction) (b : SentByte) : Prop :=
  ∃ tr₁ a tr₂ w₁ w₂, tr = tr₁ ++ a :: tr₂ ∧ Run OrderlyStep w₀ tr₁ w₁ ∧ OutputStep w₁ a w₂ ∧
    ¬ w₁.Lost b ∧ w₂.Lost b ∧ w₁.DiscardsAt a

theorem lost_discarded {tr : List OutputAction} {w : OutputWorld} {b : SentByte}
    (hrun : Run OrderlyStep (.start entry) tr w) (hb : w.Lost b) :
    DiscardedIn (.start entry) tr b := by
  induction hrun with
  | start => cases hb.1
  | @next tr w w' a hrun hstep ih =>
    by_cases hlost : w.Lost b
    · obtain ⟨tr₁, a₁, tr₂, w₁, w₂, rfl, h⟩ := ih hlost
      exact ⟨tr₁, a₁, tr₂ ++ [a], w₁, w₂, by rw [append_assoc]; rfl, h⟩
    · have hcause := ((orderly_inv hrun).step hstep.2 hstep.1).2 b hb
      exact ⟨tr, a, [], w, w', rfl, hrun, hstep.1, hlost, hb, hcause.resolve_left hlost⟩

/-- In runs of orderly steps, output is received in dispatch order and no byte twice, and a byte is
lost only to a backlog at its limit. -/
theorem sessionOutput_inOrder {tr : List OutputAction} {w : OutputWorld}
    (hrun : Run OrderlyStep (.start entry) tr w) :
    InDispatchOrder w ∧ ∀ b, w.Lost b → DiscardedIn (.start entry) tr b :=
  ⟨(orderly_inv hrun).inDispatchOrder, fun _ hb => lost_discarded hrun hb⟩

/-- queued without a handler, handed over before more is dispatched -/
def orderlyActions : List OutputAction :=
  [.dispatch .ptyThread [65] true true, .setOutputHandler (some 0) true true, .handOver 0,
    .dispatch .emitOutput [66] true true, .callHandler]

theorem sessionOutput_handedOver : ∃ w, Run OrderlyStep (.start none) orderlyActions w ∧
    w.received = [⟨0, 65⟩, ⟨1, 66⟩] ∧ InDispatchOrder w := by
  let entry (handler : Option Nat) (pending : List SentByte) : Option VProcSessionPtyEntry :=
    some ⟨handler, pending, 4096, false, false⟩
  have h₁ : OrderlyStep (.start none) (.dispatch .ptyThread [65] true true)
      ⟨entry none [⟨0, 65⟩], .idle, [], [⟨0, 65⟩], []⟩ :=
    ⟨(by decide +kernel : outputStep _ _ = some _), fun e he _ => ⟨rfl, (by cases he; rfl)⟩⟩
  have h₂ : OrderlyStep ⟨entry none [⟨0, 65⟩], .idle, [], [⟨0, 65⟩], []⟩
      (.setOutputHandler (some 0) true true)
      ⟨entry (some 0) [], .idle, [(0, [⟨0, 65⟩])], [⟨0, 65⟩], []⟩ :=
    ⟨(by decide +kernel : outputStep _ _ = some _), fun _ _ _ _ _ _ => rfl⟩
  have h₃ : OrderlyStep ⟨entry (some 0) [], .idle, [(0, [⟨0, 65⟩])], [⟨0, 65⟩], []⟩ (.handOver 0)
      ⟨entry (some 0) [], .idle, [], [⟨0, 65⟩], [⟨0, 65⟩]⟩ :=
    ⟨(by decide +kernel : outputStep _ _ = some _), trivial⟩
  have h₄ : OrderlyStep ⟨entry (some 0) [], .idle, [], [⟨0, 65⟩], [⟨0, 65⟩]⟩
      (.dispatch .emitOutput [66] true true)
      ⟨entry (some 0) [], .calling 0 [⟨1, 66⟩], [], [⟨0, 65⟩, ⟨1, 66⟩], [⟨0, 65⟩]⟩ :=
    ⟨(by decide +kernel : outputStep _ _ = some _), fun e he _ => ⟨rfl, (by cases he; rfl)⟩⟩
  have h₅ : OrderlyStep
      ⟨entry (some 0) [], .calling 0 [⟨1, 66⟩], [], [⟨0, 65⟩, ⟨1, 66⟩], [⟨0, 65⟩]⟩ .callHandler
      ⟨entry (some 0) [], .idle, [], [⟨0, 65⟩, ⟨1, 66⟩], [⟨0, 65⟩, ⟨1, 66⟩]⟩ :=
    ⟨(by decide +kernel : outputStep _ _ = some _), trivial⟩
  have hrun : Run OrderlyStep (.start none) orderlyActions _ :=
    Run.cons h₁ (Run.cons h₂ (Run.cons h₃ (Run.cons h₄ (Run.cons h₅ .start))))
  exact ⟨_, hrun, rfl, (sessionOutput_inOrder hrun).1⟩

/-! ## other steps -/

def overtakingActions : List OutputAction :=
  [.setOutputHandler (some 0) true true, .setOutputPaused true true,
    .dispatch .ptyThread [65] true true, .setOutputPaused false true,
    .dispatch .ptyThread [66] true true, .callHandler, .handOver 0]

theorem overtaking_outOfOrder :
    ∃ w, Run OutputStep (.start none) overtakingActions w ∧ w.received = [⟨1, 66⟩, ⟨0, 65⟩] ∧
      ¬ InDispatchOrder w := by
  refine ⟨_, Run.ofSteps (f := outputStep) (s := ⟨some ⟨some 0, [], 4096, false, false⟩, .idle, [],
    [⟨0, 65⟩, ⟨1, 66⟩], [⟨1, 66⟩, ⟨0, 65⟩]⟩) (by decide +kernel), rfl, fun h => ?_⟩
  exact absurd h.order (by decide)

end

end Pscal
