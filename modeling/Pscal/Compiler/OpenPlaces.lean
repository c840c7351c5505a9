import Pscal.Compiler.Backpatching

/-!
# Loops and labels

The rules for the places that outlive a statement: those of the open loops, and the labels.

* `Sim.openLoop`, `Sim.endLoop`  a loop begins and ends;
* `Sim.addBreakJump`, `Sim.addContinueJump`  the jumps out of its body;
* `Sim.patchContinues`  the place of `continue`;
* `Sim.initLabelTable`, `Sim.finalizeLabelTable`  the labels of a routine;
* `Sim.compileGoto`, `Sim.defineLabel`  their use.
-/

namespace Pscal.Statements

open Assembly Coder List Option Function Ghost

section
variable {st st' : Coder} {g g' : Ghost}

variable {loop : Loop} {t n : Nat} {table : List LabelInfo} {a : Aim}
  {loops : List (Nat × ContinuePhase)} {phase : ContinuePhase} {o : OpCode}

theorem LoopSim.same {x : Nat × ContinuePhase} (h : LoopSim g loop x) (hitems : g'.items = g.items)
    (hdefs : g'.defs = g.defs) : LoopSim g' loop x := by
  have hholes : ∀ a, g'.holes a = g.holes a := fun a => by rw [Ghost.holes, hitems]
  refine h.congr ⟨hholes _, by rw [hdefs]⟩ ⟨hholes _, by rw [hdefs]⟩ fun m hm => ?_
  rwa [Ghost.marks, hitems]

theorem TableSim.same (h : TableSim g table t) (hitems : g'.items = g.items)
    (hdefs : g'.defs = g.defs) : TableSim g' table t := by
  refine h.congr (fun name => ⟨by rw [Ghost.holes, hitems], by rw [hdefs]⟩) (fun m hm => ?_)
    fun site hsite => .inl ?_
  · rwa [Ghost.marks, hitems]
  · rwa [Ghost.sites, hitems] at hsite

theorem Sim.loopsSame (h : Sim st g) (hitems : g'.items = g.items) (hdefs : g'.defs = g.defs) :
    Forall₂ (LoopSim g') st.loops g.loops :=
  h.loops.imp fun _ _ hsim => hsim.same hitems hdefs

theorem Sim.tablesSame (h : Sim st g) (hitems : g'.items = g.items) (hdefs : g'.defs = g.defs) :
    Forall₂ (TableSim g') st.labels g.tables :=
  h.tables.imp fun _ _ hsim => hsim.same hitems hdefs

/-! ## loops -/

theorem Sim.openLoop (h : Sim st g) {p : ContinuePhase} {l : Loop}
    (hbreak : g.locals (.point n) = some ([], [])) (hid : n + 1 < g.next)
    (hnot : ¬ g.Open (.point (n + 1))) (hsim : LoopSim g l (n, p)) :
    Sim { st with loops := l :: st.loops }
      { g with
        loops := (n, p) :: g.loops
        locals := update (update g.locals (.point n) none) (.point (n + 1)) none }
    := by
  have hlocal := h.locals _ _ hbreak
  refine ⟨h.tracks, .cons (hsim.same rfl rfl) (h.loopsSame rfl rfl), h.tablesSame rfl rfl, ?_,
    h.fresh, ?_, ?_, h.tableIds, h.tablesApart, ?_, h.inRoutine, h.small⟩
  · intro a x hx
    change update (update g.locals _ _) _ _ a = some x at hx
    by_cases ha : a = .point (n + 1)
    · rw [ha, update_self] at hx
      cases hx
    · by_cases ha' : a = .point n
      · rw [ha', update_of_ne (fun he => by cases he), update_self] at hx
        cases hx
      · rw [update_of_ne ha, update_of_ne ha'] at hx
        obtain ⟨hh, hd, hi, hl, ho, hu, hlate⟩ := h.locals a x hx
        refine ⟨hh, hd, hi, hl, ?_, hu, hlate⟩
        rintro (⟨y, hy, hay⟩ | hlabel)
        · rcases mem_cons.mp hy with rfl | hy
          · exact hay.elim ha' ha
          · exact ho (.inl ⟨y, hy, hay⟩)
        · exact ho (.inr hlabel)
  · intro m hm
    rcases mem_cons.mp hm with rfl | hm
    · exact hid
    · exact h.loopIds m hm
  · refine pairwise_cons.mpr ⟨fun m hm => ?_, h.loopsApart⟩
    obtain ⟨y, hy, rfl⟩ := List.mem_map.mp hm
    refine ⟨?_, ?_, ?_⟩
    · rintro rfl
      exact hlocal.closed (.inl ⟨y, hy, .inl rfl⟩)
    · intro he
      exact hlocal.closed (.inl ⟨y, hy, .inr (congrArg _ he)⟩)
    · intro he
      exact hnot (.inl ⟨y, hy, .inl (congrArg _ he)⟩)
  · intro site hsite
    rcases h.closed site hsite with hm | ho | hlo
    · exact .inl hm
    · refine .inr (.inl ?_)
      rcases ho with ⟨y, hy, hay⟩ | hlabel
      · exact .inl ⟨y, mem_cons_of_mem _ hy, hay⟩
      · exact .inr hlabel
    · by_cases ha : site.aim = .point (n + 1)
      · exact .inr (.inl (.inl ⟨_, mem_cons_self, .inr ha⟩))
      · by_cases ha' : site.aim = .point n
        · exact .inr (.inl (.inl ⟨_, mem_cons_self, .inl ha'⟩))
        · refine .inr (.inr ?_)
          show update (update g.locals _ _) _ _ site.aim ≠ none
          rwa [update_of_ne ha, update_of_ne ha']

theorem Sim.notOpen (h : Sim st g) (hl : g.loops = (n, phase) :: loops)
    (ha : a = .point n ∨ a = .point (n + 1)) : ¬ { g with loops := loops }.Open a := by
  have hapart := h.loopsApart
  rw [hl, map_cons] at hapart
  rintro (⟨y, hy, hay⟩ | ⟨t, ht, name, hlabel⟩)
  · have hne := (pairwise_cons.mp hapart).1 y.1 (List.mem_map_of_mem hy)
    dsimp only at hne
    rcases ha with rfl | rfl <;> rcases hay with hay | hay <;> injection hay <;> omega
  · rcases ha with rfl | rfl <;> cases hlabel

theorem Sim.endLoop (h : Sim st g) {rest : List Loop} (hl : g.loops = (n, phase) :: loops)
    (hphase : phase ≠ .unknown) (hst : st.loops = loop :: rest) : Sim { st with loops := rest }
      { g with
        loops := loops
        locals := update g.locals (.point n) (some (loop.breakJumps, [])) } := by
  have hall := h.loops
  rw [hl, hst] at hall
  obtain ⟨hsim, hrest⟩ := forall₂_cons.mp hall
  have hids := h.loopIds
  rw [hl] at hids
  have hapart := h.loopsApart
  rw [hl, map_cons] at hapart
  have hmono : ∀ a, { g with loops := loops }.Open a → g.Open a := by
    rintro a (⟨y, hy, hay⟩ | hlabel)
    · exact .inl ⟨y, hl ▸ mem_cons_of_mem _ hy, hay⟩
    · exact .inr hlabel
  have hmarked : ∃ t, (.point (n + 1), t) ∈ g.marks := by
    cases phase with
    | unknown => exact absurd rfl hphase
    | known => exact (hsim.known rfl).imp fun t ht => ht.2.2
    | passed => exact hsim.passed rfl
  refine ⟨h.tracks, hrest.imp fun _ _ hs => hs.same rfl rfl, h.tablesSame rfl rfl, ?_, h.fresh,
    fun m hm => hids m (mem_cons_of_mem _ hm), (pairwise_cons.mp hapart).2, h.tableIds,
    h.tablesApart, ?_, h.inRoutine, h.small⟩
  · intro a x hx
    change update g.locals _ _ a = some x at hx
    by_cases ha : a = .point n
    · rw [ha, update_self] at hx
      cases hx
      subst ha
      refine ⟨hsim.breaks.symm, hsim.pending, ?_, fun _ _ he => (by cases he),
        h.notOpen hl (.inl rfl), ?_, ?_⟩
      · have := hids n mem_cons_self
        show n < g.next
        omega
      · intro m hm hm'
        have hknown := (h.tracks.marked m hm).1
        rw [hm', Assembly.known, hsim.pending] at hknown
        cases hknown
      · intro site hsite ha
        by_contra hlate
        refine h.tracks.direct site hsite (by simpa using hlate) ?_
        rw [ha]
        exact hsim.pending
    · rw [update_of_ne ha] at hx
      obtain ⟨hh, hd, hi, hla, ho, hu, hlate⟩ := h.locals a x hx
      exact ⟨hh, hd, hi, hla, fun ho' => ho (hmono a ho'), hu, hlate⟩
  · intro site hsite
    rcases h.closed site hsite with hm | ho | hlo
    · exact .inl hm
    · rcases ho with ⟨y, hy, hay⟩ | hlabel
      · rw [hl] at hy
        rcases mem_cons.mp hy with rfl | hy
        · rcases hay with hay | hay
          · refine .inr (.inr ?_)
            show update g.locals _ _ site.aim ≠ none
            rw [hay, update_self]
            exact some_ne_none _
          · obtain ⟨t, ht⟩ := hmarked
            exact .inl ⟨_, ht, hay.symm⟩
        · exact .inr (.inl (.inl ⟨y, hy, hay⟩))
      · exact .inr (.inl (.inr hlabel))
    · refine .inr (.inr ?_)
      show update g.locals _ _ site.aim ≠ none
      by_cases ha : site.aim = .point n
      · rw [ha, update_self]
        exact some_ne_none _
      · rwa [update_of_ne ha]

theorem Sim.pushOpen (h : Sim st g)
    (htracks : Tracks format Aim.passes st'.code st'.patched (g.items ++ [.jump [o.byte] a true])
      g.defs) (hloops : Forall₂ (LoopSim (g.add [jumpTo o a])) st'.loops g.loops)
    (htables : Forall₂ (TableSim (g.add [jumpTo o a])) st'.labels g.tables) (hopen : g.Open a)
    (hin : st'.inRoutine = st.inRoutine) (hsmall : st.count + 5 < 2 ^ 31) :
    Sim st' (g.add [jumpTo o a]) := by
  have hid : a.id < g.next := by
    rcases hopen with ⟨x, hx, rfl | rfl⟩ | ⟨t, ht, name, rfl⟩
    · have := h.loopIds x.1 (List.mem_map_of_mem hx)
      show x.1 < g.next
      omega
    · exact h.loopIds x.1 (List.mem_map_of_mem hx)
    · exact h.tableIds t ht
  have hmem : ∀ site ∈ (g.add [jumpTo o a]).sites, site ∈ g.sites ∨ site.aim = a := by
    intro site hsite
    rcases mem_append.mp (sites_add h _ ▸ hsite) with hold | hnew
    · exact .inl hold
    · exact .inr (by rw [mem_singleton.mp hnew])
  refine h.change (T := fun _ => False) htracks hloops htables ⟨rfl, rfl⟩ (Nat.le_refl _)
    (fun _ hf => hf.elim) (fun _ _ => rfl) (fun site hsite => (hmem site hsite).imp_right ?_)
    (fun b x hb => ?_) (fun site hsite => ?_) (hin.trans h.inRoutine)
    (by rw [htracks.length, size_append, ← h.tracks.length]; exact hsmall)
  · rintro rfl
    exact hid
  · have hlocal := h.locals b x hb
    show LocalSim { g.add [jumpTo o a] with locals := g.locals } b x
    refine hlocal.push h ?_ fun _ hm => by cases hm
    rintro site hsite rfl
    obtain rfl := mem_singleton.mp hsite
    exact hlocal.closed hopen
  · rcases hmem site hsite with hold | rfl
    · rcases h.closed site hold with ⟨m, hm, ha⟩ | ho | hlo
      · exact .inl ⟨m, (marks_add h _).symm ▸ mem_append_left _ hm, ha⟩
      · exact .inr (.inl ho)
      · exact .inr (.inr hlo)
    · exact .inr (.inl hopen)

theorem Ghost.holes_jump (h : Sim st g) {b : Aim} (hne : b ≠ a) :
    (g.add [jumpTo o a]).holes b = g.holes b := by
  rw [holes_add h, filter_eq_nil_iff.mpr, map_nil, append_nil]
  rintro site hsite hsat
  obtain rfl := mem_singleton.mp hsite
  exact hne (of_decide_eq_true hsat).2.symm

theorem Ghost.holes_jump_self (h : Sim st g) :
    (g.add [jumpTo o a]).holes a = g.holes a ++ [st.count + 1] := by
  rw [holes_add h]
  refine congrArg _ ?_
  show (([⟨st.count + 1, a, true⟩] : List (Site Aim)).filter _).map Site.pos = _
  rw [filter_cons_of_pos (by simp), filter_nil]
  rfl

theorem Ghost.marks_jump (h : Sim st g) :
    ∀ m ∈ g.marks, m ∈ (g.add [jumpTo o a]).marks := fun _ hm =>
  (Ghost.marks_add h _).symm ▸ mem_append_left _ hm

theorem emitJump_eq {p : Nat} (hst : st.emitJump o = some (p, st')) :
    p = st.count + 1 ∧ st.count + 5 < 2 ^ 31 ∧
      st' = { st with code := st.code ++ o.byte :: placeholder } := by
  obtain ⟨st₁, hwrite, hpair⟩ := map_eq_some_iff.mp hst
  cases hpair
  unfold Coder.write at hwrite
  split at hwrite
  case isFalse => cases hwrite
  rename_i hsmall
  cases hwrite
  exact ⟨rfl, hsmall, rfl⟩

theorem Sim.loopsJump (h : Sim st g) {loops : List Loop} {xs : List (Nat × ContinuePhase)}
    (hsim : Forall₂ (LoopSim g) loops xs) (hne : ∀ x ∈ xs, .point x.1 ≠ a ∧ .point (x.1 + 1) ≠ a) :
    Forall₂ (LoopSim (g.add [jumpTo o a])) loops xs :=
  forall₂_imp_of_mem hsim fun _ x hx hs =>
    hs.congr ⟨holes_jump h (hne x hx).1, rfl⟩ ⟨holes_jump h (hne x hx).2, rfl⟩
      (marks_jump h)

theorem Sim.tablesJump (h : Sim st g) {tables : List (List LabelInfo)} {ts : List Nat}
    (hsim : Forall₂ (TableSim g) tables ts) (hne : ∀ t ∈ ts, ∀ name, Aim.label t name ≠ a) :
    Forall₂ (TableSim (g.add [jumpTo o a])) tables ts := by
  refine forall₂_imp_of_mem hsim fun _ t ht hs =>
    hs.congr (fun name => ⟨holes_jump h (hne t ht name), rfl⟩) (marks_jump h) ?_
  intro site hsite
  rcases mem_append.mp (sites_add h _ ▸ hsite) with hold | hnew
  · exact .inl hold
  · obtain rfl := mem_singleton.mp hnew
    exact .inr fun name he => hne t ht name he.symm

theorem Sim.addBreakJump (h : Sim st g) (hl : g.loops = (n, phase) :: loops)
    (hst : st.addBreakJump = some st') : Sim st' (g.add [jumpTo .jump (.point n)]) := by
  have hall := h.loops
  rw [hl] at hall
  obtain ⟨loop, rest, hsim, hrest, hloops⟩ := forall₂_cons_right_iff.mp hall
  unfold Coder.addBreakJump at hst
  rw [if_neg (by rw [hloops]; exact cons_ne_nil _ _)] at hst
  obtain ⟨⟨p, st₁⟩, hjump, hst⟩ := bind_eq_some_iff.mp hst
  cases hst
  obtain ⟨rfl, hsmall, rfl⟩ := emitJump_eq hjump
  refine h.pushOpen ?_ ?_ ?_ (.inl ⟨_, hl ▸ mem_cons_self, .inl rfl⟩) ?_ hsmall
  all_goals
    unfold Coder.modifyLoop
    dsimp only
    rw [hloops]
  · exact h.tracks.jump [OpCode.jump.byte] hsim.pending
  · rw [hl]
    have hother : Aim.point (n + 1) ≠ .point n := fun he => by
      have := Aim.point.inj he
      omega
    refine .cons ⟨?_, hsim.pending, fun hx => ?_, fun hx => ?_, fun hx => ?_⟩
      (h.loopsJump hrest fun x hx => ?_)
    · show loop.breakJumps ++ [st.count + 1] = _
      rw [holes_jump_self h, hsim.breaks]
    · obtain ⟨ht, hj, hd⟩ := hsim.unknown hx
      exact ⟨ht, hj.trans (holes_jump h hother).symm, hd⟩
    · exact (hsim.known hx).imp fun t ht => ⟨ht.1, ht.2.1, marks_jump h _ ht.2.2⟩
    · exact (hsim.passed hx).imp fun t ht => marks_jump h _ ht
    · have hnot := h.notOpen hl (.inl rfl)
      exact ⟨fun he => hnot (.inl ⟨x, hx, .inl he.symm⟩), fun he => hnot (.inl ⟨x, hx, .inr he.symm⟩)⟩
  · exact h.tablesJump h.tables fun _ _ _ he => by cases he

theorem Sim.addContinueJump (h : Sim st g) (hl : g.loops = (n, .unknown) :: loops)
    (hst : st.addContinueJump = some st') : Sim st' (g.add [jumpTo .jump (.point (n + 1))]) := by
  have hall := h.loops
  rw [hl] at hall
  obtain ⟨loop, rest, hsim, hrest, hloops⟩ := forall₂_cons_right_iff.mp hall
  obtain ⟨htarget, hjumps, hdefs⟩ := hsim.unknown rfl
  unfold Coder.addContinueJump at hst
  rw [hloops] at hst
  dsimp only at hst
  rw [htarget] at hst
  obtain ⟨⟨p, st₁⟩, hjump, hst⟩ := bind_eq_some_iff.mp hst
  cases hst
  obtain ⟨rfl, hsmall, rfl⟩ := emitJump_eq hjump
  refine h.pushOpen ?_ ?_ ?_ (.inl ⟨_, hl ▸ mem_cons_self, .inr rfl⟩) ?_ hsmall
  all_goals
    unfold Coder.modifyLoop
    dsimp only
    rw [hloops]
  · exact h.tracks.jump [OpCode.jump.byte] hdefs
  · rw [hl]
    have hother : Aim.point n ≠ .point (n + 1) := fun he => by
      have := Aim.point.inj he
      omega
    refine .cons ⟨?_, hsim.pending, fun _ => ⟨htarget, ?_, hdefs⟩, fun hx => (by cases hx),
      fun hx => (by cases hx)⟩ (h.loopsJump hrest fun x hx => ?_)
    · exact hsim.breaks.trans (holes_jump h hother).symm
    · show loop.continueJumps ++ [st.count + 1] = _
      rw [holes_jump_self h, hjumps]
    · have hnot := h.notOpen hl (.inr rfl)
      exact ⟨fun he => hnot (.inl ⟨x, hx, .inl he.symm⟩), fun he => hnot (.inl ⟨x, hx, .inr he.symm⟩)⟩
  · exact h.tablesJump h.tables fun _ _ _ he => by cases he

theorem Sim.addContinueJumpBack (h : Sim st g) (hl : g.loops = (n, .known) :: loops)
    (hst : st.addContinueJump = some st') : Sim st' (g.add [jumpBack .jump (.point (n + 1))]) := by
  have hall := h.loops
  rw [hl] at hall
  obtain ⟨loop, rest, hsim, hrest, hloops⟩ := forall₂_cons_right_iff.mp hall
  obtain ⟨t, htarget, _, hmem⟩ := hsim.known rfl
  unfold Coder.addContinueJump at hst
  rw [hloops] at hst
  dsimp only at hst
  rw [htarget] at hst
  exact h.emitJumpTo hmem (fun _ _ he => by cases he) hst

theorem Sim.patchContinues_known (h : Sim st g) (hl : g.loops = (n, .known) :: loops) (t : Nat) :
    st.patchContinuesTo t = st := by
  have hall := h.loops
  rw [hl] at hall
  obtain ⟨loop, rest, hsim, _, hloops⟩ := forall₂_cons_right_iff.mp hall
  obtain ⟨_, _, hjumps, _⟩ := hsim.known rfl
  unfold Coder.patchContinuesTo
  rw [hloops]
  dsimp only
  rw [hjumps]
  show st.modifyLoop _ = st
  rw [Coder.modifyLoop, hloops]
  dsimp only
  rw [← hjumps, ← hloops]

theorem Ghost.holes_mark (h : Sim st g) (a b : Aim) : (g.add [.mark a]).holes b = g.holes b :=
  (holes_add h (.mark a) b).trans (append_nil _)

theorem Sim.patchContinues (h : Sim st g) (hl : g.loops = (n, .unknown) :: loops) {rest : List Loop}
    (hst : st.loops = loop :: rest) (target : Option Nat) :
    Sim { (st.patchAll loop.continueJumps st.count) with
        loops := { loop with continueTarget := target, continueJumps := [] } :: rest }
      { g.add [.mark (.point (n + 1))] with
        defs := update g.defs (.point (n + 1)) [st.count]
        loops := (n, .passed) :: loops } := by
  have hall := h.loops
  rw [hl, hst] at hall
  obtain ⟨hsim, hrest⟩ := forall₂_cons.mp hall
  obtain ⟨_, hjumps, hdefs⟩ := hsim.unknown rfl
  have hin : ∀ p ∈ loop.continueJumps, p + 4 ≤ st.count := by
    intro p hp
    rw [hjumps] at hp
    obtain ⟨site, hsite, _, _, rfl⟩ := mem_holes.mp hp
    have hb := site_bounds hsite
    have hlen := h.tracks.length
    show site.pos + format.width ≤ st.code.length
    omega
  have hunmarked : ∀ m ∈ g.marks, m.1 ≠ .point (n + 1) := by
    intro m hm he
    have hknown := (h.tracks.marked m hm).1
    rw [he, Assembly.known, hdefs] at hknown
    cases hknown
  have hdefine := h.tracks.define st.count (z := .point (n + 1)) (fun site hsite ha => by
    by_contra hlate
    refine h.tracks.direct site hsite (by simpa using hlate) ?_
    rw [ha]
    exact hdefs) hunmarked
  rw [hdefs, nil_append, show Assembly.holes format (.point (n + 1)) 0 g.items =
    loop.continueJumps from hjumps.symm] at hdefine
  have hcount : (Patch.writeAll st.code (fills format st.count loop.continueJumps)).length =
      st.code.length := by
    rw [hdefine.length, h.tracks.length]
  have htracks := hdefine.mark (z := .point (n + 1))
    (by rw [hcount, Assembly.known, update_self]; rfl)
    (by rw [update_self]; rfl)
  have hnot := h.notOpen hl (.inr rfl)
  have hmarks : ∀ m ∈ g.marks, m ∈ (g.add [.mark (.point (n + 1))]).marks := fun m hm =>
    (marks_add h _).symm ▸ mem_append_left _ hm
  have hmark : (.point (n + 1), st.count) ∈ (g.add [.mark (.point (n + 1))]).marks :=
    (marks_add h _).symm ▸ mem_append_right _ mem_cons_self
  have hsites : (g.add [.mark (.point (n + 1))]).sites = g.sites :=
    (sites_add h _).trans (append_nil _)
  have hother : ∀ a : Aim, a ≠ .point (n + 1) →
      update g.defs (.point (n + 1)) [st.count] a = g.defs a :=
    fun a ha => update_of_ne ha _ _
  have hopened : g.Open (.point (n + 1)) := .inl ⟨_, hl ▸ mem_cons_self, .inr rfl⟩
  rw [patchAll_eq _ _ _ hin]
  refine h.change (T := (· = .point (n + 1))) htracks ?_ ?_ ⟨by rw [hl]; rfl, rfl⟩ (Nat.le_refl _)
    ?_ (fun a ha => hother a ha) (fun site hsite => .inl (hsites ▸ hsite)) ?_ ?_ h.inRoutine
    (by show List.length _ < _; rw [hcount]; exact h.small)
  · refine .cons ⟨?_, ?_, fun hx => (by cases hx), fun hx => (by cases hx), fun _ => ⟨_, hmark⟩⟩
      (forall₂_imp_of_mem hrest fun l x hx hs => hs.congr ?_ ?_ hmarks)
    · exact hsim.breaks.trans (holes_mark h _ _).symm
    · refine (hother _ fun he => ?_).trans hsim.pending
      have := Aim.point.inj he
      omega
    · exact ⟨holes_mark h _ _, hother _ fun he => hnot (.inl ⟨x, hx, .inl he.symm⟩)⟩
    · exact ⟨holes_mark h _ _, hother _ fun he => hnot (.inl ⟨x, hx, .inr he.symm⟩)⟩
  · refine forall₂_imp_of_mem h.tables fun table t _ hs => hs.congr
      (fun name => ⟨holes_mark h _ _, hother (.label t name) fun he => by cases he⟩) hmarks
      fun site hsite => .inl (hsites ▸ hsite)
  · rintro a rfl
    exact h.loopIds n (hl ▸ mem_cons_self)
  · intro a x hx
    have hne : a ≠ .point (n + 1) := by
      rintro rfl
      exact (h.locals _ x hx).closed hopened
    obtain ⟨hh, hd, hi, hla, ho, hu, hlate⟩ := h.locals a x hx
    refine ⟨(holes_mark h _ _).trans hh, (hother a hne).trans hd, hi, hla, ?_, ?_,
      fun site hsite => hlate site (hsites ▸ hsite)⟩
    · rintro (⟨y, hy, hay⟩ | hlabel)
      · rcases mem_cons.mp hy with rfl | hy
        · exact ho (.inl ⟨(n, .unknown), hl ▸ mem_cons_self, hay⟩)
        · exact ho (.inl ⟨y, hl ▸ mem_cons_of_mem _ hy, hay⟩)
      · exact ho (.inr hlabel)
    · intro m hm
      rcases mem_append.mp (marks_add h _ ▸ hm) with hold | hnew
      · exact hu m hold
      · obtain rfl := mem_singleton.mp hnew
        exact hne.symm
  · intro site hsite
    rcases h.closed site (hsites ▸ hsite) with ⟨m, hm, ha⟩ | ho | hlo
    · exact .inl ⟨m, hmarks m hm, ha⟩
    · refine .inr (.inl ?_)
      rcases ho with ⟨y, hy, hay⟩ | hlabel
      · rw [hl] at hy
        rcases mem_cons.mp hy with rfl | hy
        · exact .inl ⟨_, mem_cons_self, hay⟩
        · exact .inl ⟨y, mem_cons_of_mem _ hy, hay⟩
      · exact .inr hlabel
    · exact .inr (.inr hlo)

/-! ## labels -/

theorem labelAim_eq {a b : String} :
    labelAim t a = labelAim t b ↔ toLowerString a = toLowerString b := by
  unfold labelAim
  rw [Aim.label.injEq, eq_self, true_and]

theorem declareLabels_spec {names : List String} {table' : List LabelInfo}
    (hst : declareLabels table names = some table')
    (hfresh : ∀ info ∈ table, info.bytecodeOffset = none ∧ info.patches = [])
    (hapart : table.Pairwise fun a b => toLowerString a.name ≠ toLowerString b.name) :
    (∀ info ∈ table', info.bytecodeOffset = none ∧ info.patches = []) ∧
      table'.Pairwise fun a b => toLowerString a.name ≠ toLowerString b.name := by
  induction names generalizing table with
  | nil =>
    cases hst
    exact ⟨hfresh, hapart⟩
  | cons name names ih =>
    unfold declareLabels at hst
    split at hst
    · cases hst
    · next hnone =>
      refine ih hst ?_ ?_
      · intro info hinfo
        rcases mem_append.mp hinfo with hold | hnew
        · exact hfresh info hold
        · obtain rfl := mem_singleton.mp hnew
          exact ⟨rfl, rfl⟩
      · refine pairwise_append.mpr ⟨hapart, pairwise_singleton _ _, ?_⟩
        intro info hinfo info' hinfo' he
        obtain rfl := mem_singleton.mp hinfo'
        have := find?_eq_none.mp hnone info hinfo
        exact this (beq_iff_eq.mpr he)

theorem Sim.initLabelTable (h : Sim st g) {names : List String} (ht : g.next ≤ t)
    (hst : st.initLabelTable names = some st') :
    Sim st' { g with next := t + 1, tables := t :: g.tables } := by
  obtain ⟨table, htable, hst⟩ := map_eq_some_iff.mp hst
  cases hst
  obtain ⟨hinfos, hapart⟩ := declareLabels_spec htable (fun _ hi => by cases hi) .nil
  have hfresh : ∀ name, g.defs (.label t name) = [] ∧ ∀ site ∈ g.sites, site.aim ≠ .label t name :=
    fun name => h.fresh _ ht
  have hholes : ∀ name, g.holes (.label t name) = [] := by
    intro name
    refine map_eq_nil_iff.mpr (filter_eq_nil_iff.mpr fun site hsite hsat => ?_)
    exact (hfresh name).2 site hsite (of_decide_eq_true hsat).2
  refine ⟨h.tracks, h.loopsSame rfl rfl, .cons ⟨?_, hapart, ?_⟩ (h.tablesSame rfl rfl), ?_, ?_, ?_,
    h.loopsApart, ?_, ?_, ?_, h.inRoutine, h.small⟩
  · intro info hinfo
    obtain ⟨hoffset, hpatches⟩ := hinfos info hinfo
    refine ⟨fun _ => ⟨hpatches.trans (hholes _).symm, (hfresh _).1⟩, fun offset he => ?_⟩
    rw [hoffset] at he
    cases he
  · exact fun site hsite name he => absurd he ((hfresh name).2 site hsite)
  · intro a x hx
    obtain ⟨hh, hd, hi, hla, ho, hu, hlate⟩ := h.locals a x hx
    refine ⟨hh, hd, ?_, hla, ?_, hu, hlate⟩
    · show a.id < t + 1
      omega
    · rintro (hloop | ⟨t', ht', name, rfl⟩)
      · exact ho (.inl hloop)
      · exact hla t' name rfl
  · exact fun a ha => h.fresh a (by change t + 1 ≤ a.id at ha; omega)
  · intro n hn
    have := h.loopIds n hn
    show n + 1 < t + 1
    omega
  · intro t' ht'
    show t' < t + 1
    rcases mem_cons.mp ht' with rfl | ht'
    · exact Nat.lt_succ_self _
    · have := h.tableIds t' ht'
      omega
  · refine nodup_cons.mpr ⟨fun hmem => ?_, h.tablesApart⟩
    have := h.tableIds t hmem
    omega
  · intro site hsite
    rcases h.closed site hsite with hm | ho | hlo
    · exact .inl hm
    · rcases ho with hloop | ⟨t', ht', hlabel⟩
      · exact .inr (.inl (.inl hloop))
      · exact .inr (.inl (.inr ⟨t', mem_cons_of_mem _ ht', hlabel⟩))
    · exact .inr (.inr hlo)

variable {tables : List Nat} {name : String}

theorem Sim.finalizeLabelTable (h : Sim st g) (hl : g.tables = t :: tables)
    (hst : st.finalizeLabelTable = some st') : Sim st' { g with tables := tables } := by
  have hall := h.tables
  rw [hl] at hall
  obtain ⟨table, rest, hsim, hrest, hlabels⟩ := forall₂_cons_right_iff.mp hall
  unfold Coder.finalizeLabelTable at hst
  rw [hlabels] at hst
  dsimp only at hst
  split at hst
  case isFalse => cases hst
  next hdefined =>
    cases hst
    have hids := h.tableIds
    have hapart := h.tablesApart
    rw [hl] at hids hapart
    refine ⟨h.tracks, h.loopsSame rfl rfl, hrest.imp fun _ _ hs => hs.same rfl rfl, ?_, h.fresh,
      h.loopIds, h.loopsApart, fun t' ht' => hids t' (mem_cons_of_mem _ ht'),
      (nodup_cons.mp hapart).2, ?_, h.inRoutine, h.small⟩
    · intro a x hx
      obtain ⟨hh, hd, hi, hla, ho, hu, hlate⟩ := h.locals a x hx
      refine ⟨hh, hd, hi, hla, ?_, hu, hlate⟩
      rintro (hloop | ⟨t', ht', hlabel⟩)
      · exact ho (.inl hloop)
      · exact ho (.inr ⟨t', hl ▸ mem_cons_of_mem _ ht', hlabel⟩)
    · intro site hsite
      rcases h.closed site hsite with hm | ho | hlo
      · exact .inl hm
      · rcases ho with hloop | ⟨t', ht', name, hlabel⟩
        · exact .inr (.inl (.inl hloop))
        · rw [hl] at ht'
          rcases mem_cons.mp ht' with rfl | ht'
          · obtain ⟨info, hinfo, hname⟩ := hsim.known site hsite name hlabel
            cases hoffset : info.bytecodeOffset with
            | none => exact absurd hoffset (hdefined info hinfo)
            | some offset =>
              have hmark := ((hsim.infos info hinfo).defined offset hoffset).2
              rw [labelAim, hname] at hmark
              exact .inl ⟨_, hmark, hlabel.symm⟩
          · exact .inr (.inl (.inr ⟨t', ht', name, hlabel⟩))
      · exact .inr (.inr hlo)

theorem findLabelInfo_spec {info : LabelInfo} (h : findLabelInfo name table = some info) :
    info ∈ table ∧ labelAim t info.name = labelAim t name := by
  have hname : strcasecmpEq info.name name = true :=
    find?_some (p := fun info : LabelInfo => strcasecmpEq info.name name) h
  exact ⟨mem_of_find?_eq_some h, labelAim_eq.mpr (beq_iff_eq.mp hname)⟩

theorem TableSim.modify {s : String} {f : LabelInfo → LabelInfo} (h : TableSim g table t)
    (hname : ∀ info, (f info).name = info.name)
    (hf : ∀ info ∈ table, labelAim t info.name = labelAim t s → InfoSim g' t (f info))
    (hother : ∀ info ∈ table, labelAim t info.name ≠ labelAim t s → InfoSim g' t info)
    (hsites : ∀ site ∈ g'.sites, site ∈ g.sites ∨ site.aim = labelAim t s)
    (hmem : ∃ info ∈ table, labelAim t info.name = labelAim t s) :
    TableSim g' (table.map fun info =>
      if strcasecmpEq info.name s = true then f info else info) t where
  infos info' hinfo' := by
    obtain ⟨info, hinfo, rfl⟩ := List.mem_map.mp hinfo'
    split
    · next heq => exact hf info hinfo (labelAim_eq.mpr (beq_iff_eq.mp heq))
    · next hne => exact hother info hinfo fun he => hne (beq_iff_eq.mpr (labelAim_eq.mp he))
  apart := by
    refine pairwise_map.mpr (h.apart.imp fun {a b} hab => ?_)
    have hsame : ∀ info : LabelInfo,
        (if strcasecmpEq info.name s = true then f info else info).name = info.name := by
      intro info
      split
      · exact hname info
      · rfl
    rwa [hsame, hsame]
  known site hsite key hkey := by
    have hold : ∃ info ∈ table, toLowerString info.name = key := by
      rcases hsites site hsite with hin | haim
      · exact h.known site hin key hkey
      · obtain ⟨info, hinfo, hsame⟩ := hmem
        refine ⟨info, hinfo, ?_⟩
        rw [haim, ← hsame] at hkey
        exact (Aim.label.inj hkey).2
    obtain ⟨info, hinfo, hlower⟩ := hold
    refine ⟨_, List.mem_map_of_mem hinfo, ?_⟩
    split
    · rw [hname]
      exact hlower
    · exact hlower

theorem Sim.compileGoto (h : Sim st g) (hl : g.tables = t :: tables)
    (hst : st.compileGoto name = some st') : Sim st' (g.add [jumpTo .jump (labelAim t name)]) := by
  have hall := h.tables
  rw [hl] at hall
  obtain ⟨table, rest, hsim, hrest, hlabels⟩ := forall₂_cons_right_iff.mp hall
  unfold Coder.compileGoto at hst
  rw [hlabels] at hst
  obtain ⟨info, hfind, hst⟩ := bind_eq_some_iff.mp hst
  obtain ⟨⟨p, st₁⟩, hjump, hst⟩ := bind_eq_some_iff.mp hst
  obtain ⟨rfl, hsmall, rfl⟩ := emitJump_eq hjump
  obtain ⟨hinfo, haim⟩ := findLabelInfo_spec (t := t) hfind
  have hinfoSim := hsim.infos info hinfo
  have hopen : g.Open (labelAim t name) := .inr ⟨t, hl ▸ mem_cons_self, _, rfl⟩
  have hloops := h.loopsJump (o := .jump) (a := labelAim t name) h.loops fun x _ =>
    ⟨fun he => (by cases he), fun he => (by cases he)⟩
  have hrest' := h.tablesJump (o := .jump) (a := labelAim t name) hrest fun t' ht' key he => by
    have hapart := h.tablesApart
    rw [hl] at hapart
    rw [(Aim.label.inj he).1] at ht'
    exact (nodup_cons.mp hapart).1 ht'
  have hsites : ∀ site ∈ (g.add [jumpTo .jump (labelAim t name)]).sites,
      site ∈ g.sites ∨ site.aim = labelAim t name := by
    intro site hsite
    rcases mem_append.mp (sites_add h _ ▸ hsite) with hold | hnew
    · exact .inl hold
    · exact .inr (by rw [mem_singleton.mp hnew])
  have hother : ∀ info' ∈ table, labelAim t info'.name ≠ labelAim t name →
      InfoSim (g.add [jumpTo .jump (labelAim t name)]) t info' := fun info' hinfo' hne =>
    (hsim.infos info' hinfo').congr ⟨holes_jump h hne, rfl⟩ (marks_jump h)
  cases hoffset : info.bytecodeOffset with
  | some target =>
    rw [hoffset] at hst
    cases hst
    obtain ⟨hdefs, _⟩ := hinfoSim.defined target hoffset
    rw [haim] at hdefs
    have hpatch := patchAll_eq [st.count + 1] target
      { st with code := st.code ++ OpCode.jump.byte :: placeholder } fun p hp => by
        obtain rfl := mem_singleton.mp hp
        show st.count + 1 + 4 ≤ (st.code ++ OpCode.jump.byte :: placeholder).length
        rw [length_append]
        exact Nat.le_refl _
    have hdefined : ∀ info' ∈ table, labelAim t info'.name = labelAim t name →
        InfoSim (g.add [jumpTo .jump (labelAim t name)]) t info' := by
      intro info' hinfo' hsame
      have hs := hsim.infos info' hinfo'
      refine ⟨fun hnone => ?_, fun offset hsome => ⟨(hs.defined offset hsome).1,
        marks_jump h _ (hs.defined offset hsome).2⟩⟩
      have := (hs.undefined hnone).2
      rw [hsame, hdefs] at this
      cases this
    have htable : TableSim (g.add [jumpTo .jump (labelAim t name)]) table t := by
      have := hsim.modify (s := name) (f := id) (fun _ => rfl) hdefined hother hsites
        ⟨info, hinfo, haim⟩
      simpa using this
    have hshow : ({ st with code := st.code ++ OpCode.jump.byte :: placeholder } : Coder).patchTo
        (st.count + 1) target = ({ st with code := st.code ++ OpCode.jump.byte :: placeholder } :
          Coder).patchAll [st.count + 1] target := rfl
    show Sim (({ st with code := st.code ++ OpCode.jump.byte :: placeholder } : Coder).patchTo
      (st.count + 1) target) _
    rw [hshow, hpatch]
    refine h.pushOpen (h.tracks.jumpFilled [OpCode.jump.byte] hdefs) hloops ?_ hopen rfl hsmall
    show Forall₂ _ st.labels g.tables
    rw [hlabels, hl]
    exact .cons htable hrest'
  | none =>
    rw [hoffset] at hst
    cases hst
    obtain ⟨_, hdefs⟩ := hinfoSim.undefined hoffset
    rw [haim] at hdefs
    show Sim (Coder.modifyLabel name _ _) _
    refine h.pushOpen ?_ ?_ ?_ hopen ?_ hsmall
    all_goals
      unfold Coder.modifyLabel
      dsimp only
      rw [hlabels]
    · exact h.tracks.jump [OpCode.jump.byte] hdefs
    · exact hloops
    · rw [hl]
      refine .cons (hsim.modify (fun _ => rfl) (fun info' hinfo' hsame => ?_) hother hsites
        ⟨info, hinfo, haim⟩) hrest'
      have hs := hsim.infos info' hinfo'
      have hnone : info'.bytecodeOffset = none := by
        cases ho : info'.bytecodeOffset with
        | none => rfl
        | some offset =>
          have := (hs.defined offset ho).1
          rw [hsame, hdefs] at this
          cases this
      refine ⟨fun _ => ⟨?_, ?_⟩, fun offset hsome => ?_⟩
      · show info'.patches ++ [st.count + 1] = Ghost.holes _ (labelAim t info'.name)
        rw [hsame, holes_jump_self h, (hs.undefined hnone).1, hsame]
      · show g.defs (labelAim t info'.name) = []
        rw [hsame]
        exact hdefs
      · exact absurd (hnone.symm.trans hsome) (by simp)

theorem Sim.defineLabel (h : Sim st g) (hl : g.tables = t :: tables)
    (hst : st.defineLabel name = some st') :
    ∃ defs, Sim st' { g.add [.mark (labelAim t name)] with defs := defs } := by
  have hall := h.tables
  rw [hl] at hall
  obtain ⟨table, rest, hsim, hrest, hlabels⟩ := forall₂_cons_right_iff.mp hall
  unfold Coder.defineLabel at hst
  rw [hlabels] at hst
  obtain ⟨info, hfind, hst⟩ := bind_eq_some_iff.mp hst
  obtain ⟨hinfo, haim⟩ := findLabelInfo_spec (t := t) hfind
  cases hoffset : info.bytecodeOffset with
  | some target =>
    rw [hoffset] at hst
    cases hst
  | none =>
    rw [hoffset] at hst
    cases hst
    obtain ⟨hpatches, hdefs⟩ := (hsim.infos info hinfo).undefined hoffset
    rw [haim] at hpatches hdefs
    have hin : ∀ p ∈ info.patches, p + 4 ≤ st.count := by
      intro p hp
      rw [hpatches] at hp
      obtain ⟨site, hsite, _, _, rfl⟩ := mem_holes.mp hp
      have hb := site_bounds hsite
      have hlen := h.tracks.length
      show site.pos + format.width ≤ st.code.length
      omega
    have hunmarked : ∀ m ∈ g.marks, m.1 ≠ labelAim t name := by
      intro m hm he
      have hknown := (h.tracks.marked m hm).1
      rw [he, Assembly.known, hdefs] at hknown
      cases hknown
    have hdefine := h.tracks.define st.count (z := labelAim t name) (fun site hsite ha => by
      by_contra hlate
      refine h.tracks.direct site hsite (by simpa using hlate) ?_
      rw [ha]
      exact hdefs) hunmarked
    rw [hdefs, nil_append, show Assembly.holes format (labelAim t name) 0 g.items =
      info.patches from hpatches.symm] at hdefine
    have hcount : (Patch.writeAll st.code (fills format st.count info.patches)).length =
        st.code.length := by
      rw [hdefine.length, h.tracks.length]
    have htracks := hdefine.mark (z := labelAim t name)
      (by rw [hcount, Assembly.known, update_self]; rfl)
      (by rw [update_self]; rfl)
    have hmarks : ∀ m ∈ g.marks, m ∈ (g.add [.mark (labelAim t name)]).marks := fun m hm =>
      (marks_add h _).symm ▸ mem_append_left _ hm
    have hmark : (labelAim t name, st.count) ∈ (g.add [.mark (labelAim t name)]).marks :=
      (marks_add h _).symm ▸ mem_append_right _ mem_cons_self
    have hsites : (g.add [.mark (labelAim t name)]).sites = g.sites :=
      (sites_add h _).trans (append_nil _)
    have hother : ∀ a : Aim, a ≠ labelAim t name →
        update g.defs (labelAim t name) [st.count] a = g.defs a :=
      fun a ha => update_of_ne ha _ _
    have hopened : g.Open (labelAim t name) := .inr ⟨t, hl ▸ mem_cons_self, _, rfl⟩
    refine ⟨update g.defs (labelAim t name) [st.count], ?_⟩
    rw [patchAll_eq _ _ _ hin]
    show Sim (Coder.modifyLabel name _ _) _
    refine h.change (T := (· = labelAim t name)) ?_ ?_ ?_
      ⟨rfl, rfl⟩ (Nat.le_refl _) ?_ (fun a ha => hother a ha)
      (fun site hsite => .inl (hsites ▸ hsite)) ?_ ?_ ?_ ?_
    case refine_4 =>
      rintro a rfl
      exact h.tableIds t (hl ▸ mem_cons_self)
    case refine_5 =>
      intro a x hx
      have hne : a ≠ labelAim t name := by
        rintro rfl
        exact (h.locals _ x hx).closed hopened
      obtain ⟨hh, hd, hi, hla, ho, hu, hlate⟩ := h.locals a x hx
      refine ⟨(holes_mark h _ _).trans hh, (hother a hne).trans hd, hi, hla, ho, ?_,
        fun site hsite => hlate site (hsites ▸ hsite)⟩
      intro m hm
      rcases mem_append.mp (marks_add h _ ▸ hm) with hold | hnew
      · exact hu m hold
      · obtain rfl := mem_singleton.mp hnew
        exact hne.symm
    case refine_6 =>
      intro site hsite
      rcases h.closed site (hsites ▸ hsite) with ⟨m, hm, ha⟩ | ho | hlo
      · exact .inl ⟨m, hmarks m hm, ha⟩
      · exact .inr (.inl ho)
      · exact .inr (.inr hlo)
    all_goals
      unfold Coder.modifyLabel
      dsimp only
      rw [hlabels]
    · exact htracks
    · exact forall₂_imp_of_mem h.loops fun l x _ hs => hs.congr
        ⟨holes_mark h _ _, hother (.point x.1) fun he => by cases he⟩
        ⟨holes_mark h _ _, hother (.point (x.1 + 1)) fun he => by cases he⟩ hmarks
    · show Forall₂ _ (_ :: rest) g.tables
      rw [hl]
      refine .cons (hsim.modify (fun _ => rfl) (fun info' hinfo' hsame => ?_)
        (fun info' hinfo' hne => ?_) (fun site hsite => .inl (hsites ▸ hsite))
        ⟨info, hinfo, haim⟩) (forall₂_imp_of_mem hrest fun table' t' ht' hs => ?_)
      · refine ⟨fun hnone => (by cases hnone), fun offset hsome => ?_⟩
        cases hsome
        show update g.defs _ _ (labelAim t info'.name) = _ ∧ (labelAim t info'.name, _) ∈ _
        rw [hsame, update_self]
        exact ⟨rfl, hmark⟩
      · exact (hsim.infos info' hinfo').congr ⟨holes_mark h _ _, hother _ hne⟩ hmarks
      · refine hs.congr (fun key => ⟨holes_mark h _ _, hother _ fun he => ?_⟩) hmarks
          fun site hsite => .inl (hsites ▸ hsite)
        have hapart := h.tablesApart
        rw [hl] at hapart
        rw [(Aim.label.inj he).1] at ht'
        exact (nodup_cons.mp hapart).1 ht'
    · exact h.inRoutine
    · show List.length _ < _
      rw [hcount]
      exact h.small

end

end Pscal.Statements
