import Pscal.Compiler.VTableSpec

/-!
# Virtual method tables over whole runs

* `VTableReaches s`  the states of the runs whose steps keep to two rules;
* `TrackerInv s`  what the tracker knows of the tables in each chunk;
* `VTablesInherit s`  every class has one table a chunk, with the nearest definitions.
-/

namespace Pscal

open VTableInput VTableTracker List

/-! ## runs -/

/-- Another chunk than the tracked one is a new chunk; an emission finds a hierarchy that is
ready, in which the classes that have a table in the chunk have no other definitions. -/
def VTableStepOk (s : VTableRun) : VTableEvent → Prop
  | .enter chunk => s.tracker.chunk = some chunk ∨ chunk ∉ s.begun
  | .emit input => input.VTablesReady ∧ ∀ entry ∈ s.log,
      s.frames.head?.map Prod.fst = some entry.chunk → ∀ j a,
        input.NearestMethod entry.className j a → entry.input.NearestMethod entry.className j a
  | .leave => True
  | .reset => True

inductive VTableReaches : VTableRun → Prop where
  | start : VTableReaches {}
  | step {s s' : VTableRun} {event : VTableEvent} : VTableReaches s → VTableStepOk s event →
      s.step event = some s' → VTableReaches s'

structure VTablesInherit (s : VTableRun) : Prop where
  /-- a table has the nearest definition in every slot -/
  nearest : ∀ entry ∈ s.log, ∀ j a, entry.input.NearestMethod entry.className j a →
    entry.addrs[j]? = some a
  /-- after an emission every class with virtual methods has a table for all its slots -/
  covered : ∀ call ∈ s.calls, ∀ c, call.2.HasVirtual c → ∃ entry ∈ s.log,
    entry.chunk = call.1 ∧ entry.className = c ∧
      ∀ j a, call.2.NearestMethod c j a → entry.addrs[j]? = some a
  /-- a chunk has at most one table of a class -/
  once : (s.log.map fun entry => (entry.chunk, entry.className)).Nodup
  ends : ∀ input, s.frames ≠ [] → VTableStepOk s (.emit input) →
    ∃ s', s.step (.emit input) = some s'

/-! ## the tracker -/

def InLog (log : List EmittedVTable) (chunk : ChunkId) (name : String) : Prop :=
  ∃ entry ∈ log, entry.chunk = chunk ∧ entry.className = name

def VTableTracker.levels (t : VTableTracker) : List (Option ChunkId × List String) :=
  (t.chunk, t.classes) :: t.stack

/-- Each level knows tables of its chunk only, and the first level of a chunk knows them all;
`above` is the chunk of the level above. -/
inductive TracksLog (log : List EmittedVTable) (begun : List ChunkId) :
    Option ChunkId → List (Option ChunkId × List String) → Prop where
  | nil {above : Option ChunkId} : TracksLog log begun above []
  | idle : TracksLog log begun none [(none, [])]
  | level {above : Option ChunkId} {c : ChunkId} {known : List String}
      {rest : List (Option ChunkId × List String)} : c ∈ begun →
      (∀ name ∈ known, InLog log c name) →
      (above ≠ some c → ∀ name, InLog log c name → name ∈ known) →
      (rest.head?.bind Prod.fst ≠ some c → ∀ l ∈ rest, l.1 ≠ some c) →
      TracksLog log begun (some c) rest → TracksLog log begun above ((some c, known) :: rest)

/-- each active compilation works at the level it has entered -/
inductive FramesAligned : List (ChunkId × Bool) → List (Option ChunkId × List String) → Prop where
  | idle {l : Option ChunkId × List String} : FramesAligned [] [l]
  | first {c : ChunkId} {known : List String} : FramesAligned [(c, false)] [(some c, known)]
  | nested {c : ChunkId} {known : List String} {frames : List (ChunkId × Bool)}
      {l : Option ChunkId × List String} {ls : List (Option ChunkId × List String)} :
      FramesAligned frames (l :: ls) → FramesAligned ((c, true) :: frames) ((some c, known) :: l :: ls)

theorem FramesAligned.known {frames : List (ChunkId × Bool)} {c : Option ChunkId}
    {known : List String} {ls : List (Option ChunkId × List String)}
    (h : FramesAligned frames ((c, known) :: ls)) (known' : List String) :
    FramesAligned frames ((c, known') :: ls) := by
  cases h with
  | idle => exact .idle
  | first => exact .first
  | nested h => exact .nested h

theorem FramesAligned.chunk {frames : List (ChunkId × Bool)} {c : ChunkId} {pushed : Bool}
    {l : Option ChunkId × List String} {ls : List (Option ChunkId × List String)}
    (h : FramesAligned ((c, pushed) :: frames) (l :: ls)) : l.1 = some c := by
  cases h with
  | first => rfl
  | nested h => rfl

structure TrackerInv (s : VTableRun) : Prop where
  tracks : TracksLog s.log s.begun none s.tracker.levels
  aligned : FramesAligned s.frames s.tracker.levels
  begun : ∀ entry ∈ s.log, entry.chunk ∈ s.begun

namespace TracksLog

variable {log log' : List EmittedVTable} {begun begun' : List ChunkId}

variable {ls : List (Option ChunkId × List String)}

theorem begun_mono (hbegun : ∀ c ∈ begun, c ∈ begun') {above : Option ChunkId}
    (h : TracksLog log begun above ls) : TracksLog log begun' above ls := by
  induction h with
  | nil => exact .nil
  | idle => exact .idle
  | level hc hsound hfull hlast _ ih => exact .level (hbegun _ hc) hsound hfull hlast ih

theorem other {c : ChunkId} (hlog : ∀ d name, d ≠ c → (InLog log d name ↔ InLog log' d name))
    {above : Option ChunkId} {ls : List (Option ChunkId × List String)}
    (h : TracksLog log begun above ls) (hother : ∀ l ∈ ls, l.1 ≠ some c) :
    TracksLog log' begun above ls := by
  induction h with
  | nil => exact .nil
  | idle => exact .idle
  | @level above d known rest hd hsound hfull hlast hrest ih =>
    have hne : d ≠ c := fun heq => hother _ mem_cons_self (congrArg some heq)
    exact .level hd (fun name hname => (hlog d name hne).mp (hsound name hname))
      (fun habove name hname => hfull habove name ((hlog d name hne).mpr hname)) hlast
      (ih fun l hl => hother l (mem_cons_of_mem _ hl))

theorem under {c : ChunkId} (hlog : ∀ d name, d ≠ c → (InLog log d name ↔ InLog log' d name))
    (hmono : ∀ name, InLog log c name → InLog log' c name) (h : TracksLog log begun (some c) ls)
    (hlast : ls.head?.bind Prod.fst ≠ some c → ∀ l ∈ ls, l.1 ≠ some c) :
    TracksLog log' begun (some c) ls := by
  induction ls with
  | nil => exact .nil
  | cons l ls ih =>
    cases h with
    | @level _ d known rest hd hsound hfull hlast' hrest =>
      by_cases hdc : d = c
      · subst hdc
        exact .level hd (fun name hname => hmono name (hsound name hname))
          (fun habove => absurd rfl habove) hlast' (ih hrest hlast')
      · have hother := hlast fun heq => hdc (Option.some.inj heq)
        exact (TracksLog.level hd hsound hfull hlast' hrest).other hlog hother

theorem mem_begun {above : Option ChunkId} (h : TracksLog log begun above ls) {c : ChunkId}
    {known : List String} (hl : (some c, known) ∈ ls) : c ∈ begun := by
  induction h with
  | nil => cases hl
  | idle => simp at hl
  | level hc _ _ _ _ ih =>
    rcases mem_cons.mp hl with heq | hl
    · cases heq
      exact hc
    · exact ih hl

end TracksLog

/-! ## the steps -/

theorem mem_foldl_recordClass (names : List String) {classes : List String} {c : String} :
    c ∈ names.foldl recordClass classes ↔ c ∈ classes ∨ c ∈ names := by
  induction names generalizing classes with
  | nil => exact ⟨.inl, fun h => h.elim id nofun⟩
  | cons name names ih =>
    rw [foldl_cons, ih, mem_recordClass, mem_cons, or_assoc]

theorem TrackerInv.enter {s s' : VTableRun} (h : TrackerInv s) {chunk : ChunkId}
    (hok : VTableStepOk s (.enter chunk)) (hstep : s.step (.enter chunk) = some s') :
    TrackerInv s' := by
  cases hstep
  have htracks := h.tracks
  have haligned := h.aligned
  have hbegun : ∀ c ∈ s.begun, c ∈ chunk :: s.begun := fun c hc => mem_cons_of_mem _ hc
  obtain ⟨⟨trackedChunk, classes, stack⟩, frames, begun, log, calls⟩ := s
  cases htracks with
  | idle =>
    -- nothing is tracked: the chunk is a new one
    have hnew : chunk ∉ begun := hok.resolve_left nofun
    have hframes : frames = [] := by
      cases haligned
      rfl
    subst hframes
    refine ⟨?_, .first, fun entry he => hbegun _ (h.begun entry he)⟩
    refine .level mem_cons_self nofun (fun _ name hname => ?_) (fun _ => nofun) .nil
    obtain ⟨entry, he, rfl, -⟩ := hname
    exact absurd (h.begun entry he) hnew
  | @level _ c known rest hc hsound hfull hlast hrest =>
    refine ⟨?_, .nested haligned, fun entry he => hbegun _ (h.begun entry he)⟩
    by_cases heq : c = chunk
    · subst heq
      show TracksLog log _ none ((some c, if some c = some c then classes else []) ::
        (some c, classes) :: stack)
      rw [if_pos rfl]
      refine .level mem_cons_self hsound (fun _ => hfull nofun) (fun hne => absurd rfl hne) ?_
      exact .level (hbegun _ hc) hsound (fun habove => absurd rfl habove) hlast
        (hrest.begun_mono hbegun)
    · have hne : some c ≠ some chunk := fun h => heq (Option.some.inj h)
      have hnew : chunk ∉ begun := hok.resolve_left hne
      show TracksLog log _ none ((some chunk, if some c = some chunk then classes else []) ::
        (some c, classes) :: stack)
      rw [if_neg hne]
      refine .level mem_cons_self nofun (fun _ name hname => ?_) (fun _ l hl hchunk => ?_) ?_
      · obtain ⟨entry, he, rfl, -⟩ := hname
        exact absurd (h.begun entry he) hnew
      · obtain ⟨_, known⟩ := l
        cases hchunk
        exact hnew (h.tracks.mem_begun hl)
      · exact .level (hbegun _ hc) hsound (fun _ => hfull nofun) hlast (hrest.begun_mono hbegun)

variable {s s' : VTableRun}

theorem TrackerInv.leave (h : TrackerInv s) (hstep : s.step .leave = some s') : TrackerInv s' := by
  have htracks := h.tracks
  have haligned := h.aligned
  obtain ⟨⟨trackedChunk, classes, stack⟩, frames, begun, log, calls⟩ := s
  cases haligned with
  | idle => cases hstep
  | first =>
    cases hstep
    exact ⟨htracks, .idle, h.begun⟩
  | @nested c known frames l ls haligned =>
    cases hstep
    obtain ⟨parent, parentClasses⟩ := l
    cases htracks with
    | level hc hsound hfull hlast hrest =>
      cases hrest with
      | @level _ d known rest hd hsound' hfull' hlast' hrest' =>
        refine ⟨?_, ?_, h.begun⟩
        · by_cases heq : d = c
          · subst heq
            show TracksLog log begun none ((some d, if some d = some d then
              classes.foldl recordClass parentClasses else parentClasses) :: ls)
            rw [if_pos rfl]
            refine .level hd (fun name hname => ?_) (fun _ name hname => ?_) hlast' hrest'
            · rcases (mem_foldl_recordClass classes).mp hname with hname | hname
              · exact hsound' name hname
              · exact hsound name hname
            · exact (mem_foldl_recordClass classes).mpr (.inr (hfull nofun name hname))
          · have hne : some d ≠ some c := fun h => heq (Option.some.inj h)
            show TracksLog log begun none ((some d, if some d = some c then
              classes.foldl recordClass parentClasses else parentClasses) :: ls)
            rw [if_neg hne]
            exact .level hd hsound' (fun _ => hfull' hne.symm) hlast' hrest'
        · exact haligned.known _

theorem TrackerInv.reset (h : TrackerInv s) (hstep : s.step .reset = some s') : TrackerInv s' := by
  rw [VTableRun.step] at hstep
  split at hstep
  · rename_i hframes
    cases hstep
    refine ⟨.idle, ?_, h.begun⟩
    rw [hframes]
    exact .idle
  · cases hstep

def emittedOf (chunk : ChunkId) (input : VTableInput) (out : List (String × List Int)) :
    List EmittedVTable :=
  out.map fun entry => ⟨chunk, input, entry.1, entry.2⟩

/-- one emission: the new tables are right, are for classes without one, and leave none out -/
structure VTableEmission (s s' : VTableRun) (input : VTableInput) (chunk : ChunkId)
    (out : List (String × List Int)) : Prop where
  log : s'.log = s.log ++ emittedOf chunk input out
  calls : s'.calls = (chunk, input) :: s.calls
  nodup : (out.map Prod.fst).Nodup
  fresh : ∀ c ∈ out.map Prod.fst, ¬ InLog s.log chunk c
  covers : ∀ c, input.HasVirtual c → InLog s.log chunk c ∨ c ∈ out.map Prod.fst
  nearest : ∀ entry ∈ out, ∀ j a, input.NearestMethod entry.1 j a → entry.2[j]? = some a
  active : s.frames.head?.map Prod.fst = some chunk

variable {input : VTableInput} {out : List (String × List Int)}

theorem inLog_append {log : List EmittedVTable} {chunk : ChunkId} {d : ChunkId} {name : String} :
    InLog (log ++ emittedOf chunk input out) d name ↔
      InLog log d name ∨ chunk = d ∧ name ∈ out.map Prod.fst := by
  constructor
  · rintro ⟨entry, he, hd, hname⟩
    rcases mem_append.mp he with he | he
    · exact .inl ⟨entry, he, hd, hname⟩
    · obtain ⟨o, ho, rfl⟩ := List.mem_map.mp he
      exact .inr ⟨hd, List.mem_map.mpr ⟨o, ho, hname⟩⟩
  · rintro (⟨entry, he, hd, hname⟩ | ⟨rfl, hname⟩)
    · exact ⟨entry, mem_append_left _ he, hd, hname⟩
    · obtain ⟨o, ho, rfl⟩ := List.mem_map.mp hname
      exact ⟨_, mem_append_right _ (List.mem_map_of_mem ho), rfl, rfl⟩

theorem TrackerInv.emit (h : TrackerInv s) (hframes : s.frames ≠ []) (hready : input.VTablesReady) :
    ∃ s' chunk out, s.step (.emit input) = some s' ∧ TrackerInv s' ∧
      VTableEmission s s' input chunk out := by
  have htracks := h.tracks
  have haligned := h.aligned
  obtain ⟨⟨trackedChunk, classes, stack⟩, frames, begun, log, calls⟩ := s
  obtain _ | ⟨⟨c, pushed⟩, frames⟩ := frames
  · exact absurd rfl hframes
  have hchunk : trackedChunk = some c := haligned.chunk
  subst hchunk
  obtain ⟨out, hrun, hnodup, hfresh, hcover, hnearest⟩ := emitVTables_spec hready classes
  cases htracks with
  | level hc hsound hfull hlast hrest =>
    have hin : ∀ name, name ∈ classes ↔ InLog log c name :=
      fun name => ⟨hsound name, hfull nofun name⟩
    refine ⟨⟨⟨some c, classes ++ out.map Prod.fst, stack⟩, (c, pushed) :: frames, begun,
      log ++ emittedOf c input out, (c, input) :: calls⟩, c, out, ?_, ⟨?_, ?_, ?_⟩, ?_⟩
    · show ((emitVTables input (ensureVTableTrackerForChunk _ c).classes).map _) = _
      rw [ensureVTableTrackerForChunk, if_pos rfl, hrun]
      rfl
    · refine .level hc (fun name hname => ?_) (fun _ name hname => ?_) hlast ?_
      · rcases mem_append.mp hname with hname | hname
        · exact inLog_append.mpr (.inl ((hin name).mp hname))
        · exact inLog_append.mpr (.inr ⟨rfl, hname⟩)
      · rcases inLog_append.mp hname with hname | ⟨-, hname⟩
        · exact mem_append_left _ ((hin name).mpr hname)
        · exact mem_append_right _ hname
      · refine hrest.under (fun d name hd => ?_) (fun name hname => inLog_append.mpr (.inl hname))
          hlast
        rw [inLog_append]
        exact ⟨.inl, fun h => h.resolve_right fun h => hd h.1.symm⟩
    · exact haligned.known _
    · intro entry he
      rcases mem_append.mp he with he | he
      · exact h.begun entry he
      · obtain ⟨o, -, rfl⟩ := List.mem_map.mp he
        exact hc
    · exact {
        log := rfl
        calls := rfl
        nodup := hnodup
        fresh := fun name hname hlog => hfresh name hname ((hin name).mpr hlog)
        covers := fun name hname => (hcover name hname).imp_left (hin name).mp
        nearest := hnearest
        active := rfl }

/-! ## every run -/

/-- the parts of the result that an emission can change -/
structure LogRight (s : VTableRun) : Prop where
  nearest : ∀ entry ∈ s.log, ∀ j a, entry.input.NearestMethod entry.className j a →
    entry.addrs[j]? = some a
  covered : ∀ call ∈ s.calls, ∀ c, call.2.HasVirtual c → ∃ entry ∈ s.log,
    entry.chunk = call.1 ∧ entry.className = c ∧
      ∀ j a, call.2.NearestMethod c j a → entry.addrs[j]? = some a
  once : (s.log.map fun entry => (entry.chunk, entry.className)).Nodup

theorem LogRight.emit (h : LogRight s) {chunk : ChunkId} (hok : VTableStepOk s (.emit input))
    (hemit : VTableEmission s s' input chunk out) : LogRight s' := by
  refine ⟨?_, ?_, ?_⟩
  · rw [hemit.log]
    intro entry he
    rcases mem_append.mp he with he | he
    · exact h.nearest entry he
    · obtain ⟨o, ho, rfl⟩ := List.mem_map.mp he
      exact hemit.nearest o ho
  · rw [hemit.log, hemit.calls]
    intro call hcall c hc
    rcases mem_cons.mp hcall with rfl | hcall
    · rcases hemit.covers c hc with ⟨entry, he, hchunk, hname⟩ | hname
      · subst hname
        refine ⟨entry, mem_append_left _ he, hchunk, rfl, fun j a ha => ?_⟩
        exact h.nearest entry he j a (hok.2 entry he (hchunk ▸ hemit.active) j a ha)
      · obtain ⟨o, ho, rfl⟩ := List.mem_map.mp hname
        exact ⟨_, mem_append_right _ (List.mem_map_of_mem ho), rfl, rfl, hemit.nearest o ho⟩
    · obtain ⟨entry, he, hentry⟩ := h.covered call hcall c hc
      exact ⟨entry, mem_append_left _ he, hentry⟩
  · rw [hemit.log, map_append]
    refine Nodup.append h.once ?_ ?_
    · have hmap : (emittedOf chunk input out).map (fun entry => (entry.chunk, entry.className)) =
          (out.map Prod.fst).map (Prod.mk chunk) := by
        rw [emittedOf, List.map_map, List.map_map]
        rfl
      rw [hmap]
      exact hemit.nodup.map fun a b h => congrArg Prod.snd h
    · intro p hp hp'
      obtain ⟨entry, he, rfl⟩ := List.mem_map.mp hp
      obtain ⟨entry', he', heq⟩ := List.mem_map.mp hp'
      obtain ⟨o, ho, rfl⟩ := List.mem_map.mp he'
      exact hemit.fresh _ (List.mem_map_of_mem ho)
        ⟨entry, he, (congrArg Prod.fst heq).symm, (congrArg Prod.snd heq).symm⟩

theorem VTableReaches.inv (h : VTableReaches s) : TrackerInv s ∧ LogRight s := by
  induction h with
  | start => exact ⟨⟨.idle, .idle, nofun⟩, ⟨nofun, nofun, nodup_nil⟩⟩
  | @step s s' event _ hok hstep ih =>
    obtain ⟨htracker, hlog⟩ := ih
    cases event with
    | enter chunk =>
      refine ⟨htracker.enter hok hstep, ?_⟩
      cases hstep
      exact ⟨hlog.nearest, hlog.covered, hlog.once⟩
    | emit input =>
      have hframes : s.frames ≠ [] := fun hnil => by
        rw [VTableRun.step, hnil] at hstep
        cases hstep
      obtain ⟨s₁, chunk, out, hrun, hinv, hemit⟩ := htracker.emit hframes hok.1
      cases hstep.symm.trans hrun
      exact ⟨hinv, hlog.emit hok hemit⟩
    | leave =>
      refine ⟨htracker.leave hstep, ?_⟩
      rw [VTableRun.step] at hstep
      split at hstep
      · cases hstep
      · cases hstep
        exact ⟨hlog.nearest, hlog.covered, hlog.once⟩
    | reset =>
      refine ⟨htracker.reset hstep, ?_⟩
      rw [VTableRun.step] at hstep
      split at hstep
      · cases hstep
        exact ⟨hlog.nearest, hlog.covered, hlog.once⟩
      · cases hstep

/-- **Virtual method tables.**  In every run of compilations that keeps to the rules, every class
has one table in a chunk, with the nearest definition in every slot. -/
theorem vtables_inherit {s : VTableRun} (h : VTableReaches s) : VTablesInherit s := by
  obtain ⟨htracker, hlog⟩ := h.inv
  refine ⟨hlog.nearest, hlog.covered, hlog.once, fun input hframes hok => ?_⟩
  obtain ⟨s', -, -, hrun, -⟩ := htracker.emit hframes hok.1
  exact ⟨s', hrun⟩

/-! ## one hierarchy -/

/-- a class, and a class that inherits its method and adds one -/
def circleInput : VTableInput where
  entries := [
    { name := "circle.area", isVirtual := true, slot := 1, address := 200 },
    { name := "shape.draw", isVirtual := true, slot := 0, address := 100 }]
  types := [⟨"Shape", none⟩, ⟨"Circle", some "shape"⟩]

theorem circleInput_parentName {cls name : String} (h : circleInput.parentName cls = some name) :
    name = "shape" ∧ toLowerString cls = "circle" := by
  rw [parentName, Option.bind_eq_some_iff] at h
  obtain ⟨t, hfind, hparent⟩ := h
  have hname := find?_some hfind
  rcases mem_cons.mp (mem_of_find?_eq_some hfind) with rfl | ht
  · cases hparent
  · rw [mem_singleton] at ht
    subst ht
    have hcircle : toLowerString "Circle" = "circle" := by decide +kernel
    rw [strcasecmpEq, hcircle, beq_iff_eq] at hname
    cases hparent
    exact ⟨rfl, hname.symm⟩

theorem circleInput_ready : circleInput.VTablesReady where
  resolved cls e he := by
    have hall : ∀ e ∈ circleInput.entries, 0 ≤ e.slot ∧ 0 < e.address := by decide +kernel
    exact hall e he.1
  oneAddress cls e e' he he' := by
    have hall : ∀ e ∈ circleInput.entries, ∀ e' ∈ circleInput.entries, e.slot = e'.slot →
        e.address = e'.address := by decide +kernel
    exact hall e he.1 e' he'.1
  present cls h := by
    cases h with
    | own he => exact ⟨_, he⟩
    | inherited hlower hparent =>
      obtain ⟨name, hname, -⟩ := Option.map_eq_some_iff.mp hparent
      have hcls := (circleInput_parentName hname).2
      rw [hlower] at hcls
      subst hcls
      have harea : ∃ e ∈ circleInput.entries, e.isVirtual = true ∧ e.className? = some "circle" := by
        decide +kernel
      exact harea
  spelled cls name hname _ _ := by
    obtain ⟨rfl, -⟩ := circleInput_parentName hname
    exact .inl (by decide +kernel)
  levels := by
    refine ⟨fun cls => if toLowerString cls = "circle" then 1 else 0, fun cls p hp => ?_⟩
    obtain ⟨name, hname, rfl⟩ := Option.map_eq_some_iff.mp hp
    obtain ⟨rfl, hcls⟩ := circleInput_parentName hname
    have hshape : ¬ toLowerString (toLowerString "shape") = "circle" := by decide +kernel
    show (if toLowerString (toLowerString "shape") = "circle" then 1 else 0) <
      if toLowerString cls = "circle" then 1 else 0
    rw [if_pos hcls, if_neg hshape]
    exact Nat.zero_lt_one

theorem circleInput_tables : emitVTables circleInput [] =
    some ([("circle", [100, 200]), ("shape", [100])], ["circle", "shape"]) := by
  decide +kernel

def emittedRun (input : VTableInput) (out : List (String × List Int)) : VTableRun where
  tracker := ⟨some 0, out.map Prod.fst, []⟩
  frames := [(0, false)]
  begun := [0]
  log := emittedOf 0 input out
  calls := [(0, input)]

theorem emittedRun_eq (h : emitVTables input [] = some (out, out.map Prod.fst)) :
    vtableRun [.enter 0, .emit input] = some (emittedRun input out) := by
  show (Option.map _ (emitVTables input [])).bind _ = _
  rw [h]
  rfl

/-- the run that emits its tables -/
theorem vtables_inherit_circle : ∃ s, vtableRun [.enter 0, .emit circleInput] = some s ∧
    (s.log.map fun entry => (entry.className, entry.addrs)) =
      [("circle", [100, 200]), ("shape", [100])] ∧ VTablesInherit s := by
  have hrun := emittedRun_eq circleInput_tables
  have henter : ∃ s₀, VTableRun.step {} (.enter 0) = some s₀ ∧
      s₀.step (.emit circleInput) = some (emittedRun circleInput
        [("circle", [100, 200]), ("shape", [100])]) ∧ s₀.log = [] := ⟨_, rfl, hrun, rfl⟩
  obtain ⟨s₀, henter, hemit, hlog⟩ := henter
  have hreach : VTableReaches s₀ :=
    @VTableReaches.step _ _ (.enter 0) .start (.inr not_mem_nil) henter
  have hok : VTableStepOk s₀ (.emit circleInput) := by
    refine ⟨circleInput_ready, ?_⟩
    rw [hlog]
    nofun
  exact ⟨_, hrun, rfl, vtables_inherit (.step hreach hok hemit)⟩

/-! ## a class without virtual methods of its own -/

/-- a class, a class that inherits its method, and one that inherits both and adds a method -/
def discInput : VTableInput where
  entries := [
    { name := "shape.draw", isVirtual := true, slot := 0, address := 100 },
    { name := "disc.area", isVirtual := true, slot := 1, address := 200 }]
  types := [⟨"shape", none⟩, ⟨"circle", some "shape"⟩, ⟨"disc", some "circle"⟩]

theorem discInput_tables : emitVTables discInput [] =
    some ([("shape", [100]), ("disc", [0, 200])], ["shape", "disc"]) := by
  decide +kernel

theorem discInput_nearest : discInput.NearestMethod "disc" 0 100 := by
  have hown : ∀ cls, cls = "disc" ∨ cls = "circle" → ∀ e, discInput.OwnMethod cls e → e.slot ≠ 0 := by
    have hall : ∀ cls ∈ ["disc", "circle"], ∀ e ∈ discInput.entries, e.className? = some cls →
        e.slot ≠ 0 := by decide +kernel
    exact fun cls hcls e he => hall cls (by simpa using hcls) e he.1 he.2.2
  have hshape : ∃ e ∈ discInput.entries, (e.isVirtual = true ∧ e.className? = some "shape") ∧
      e.slot = 0 ∧ e.address = 100 := by decide +kernel
  obtain ⟨e, he, hcls, hslot, haddress⟩ := hshape
  have hdisc : discInput.parentClass "disc" = some "circle" := by decide +kernel
  have hcircle : discInput.parentClass "circle" = some "shape" := by decide +kernel
  refine .inherited (by decide +kernel) (hown "disc" (.inl rfl)) hdisc ?_
  refine .inherited (by decide +kernel) (hown "circle" (.inr rfl)) hcircle ?_
  rw [← haddress]
  exact .own ⟨he, hcls⟩ hslot

/-- `circle` has no table, and the table of `disc` lacks the method of `shape` -/
theorem vtables_break_chain : ∃ s, vtableRun [.enter 0, .emit discInput] = some s ∧
    (s.log.map fun entry => (entry.className, entry.addrs)) =
      [("shape", [100]), ("disc", [0, 200])] ∧
    discInput.NearestMethod "disc" 0 100 ∧ ¬ VTablesInherit s := by
  refine ⟨_, emittedRun_eq discInput_tables, rfl, discInput_nearest, fun h => ?_⟩
  have hmem : (⟨0, discInput, "disc", [0, 200]⟩ : EmittedVTable) ∈
      emittedOf 0 discInput [("shape", [100]), ("disc", [0, 200])] :=
    List.mem_cons_of_mem _ List.mem_cons_self
  have hget := h.nearest _ hmem 0 100 discInput_nearest
  cases hget

end Pscal
