import Pscal.Compiler.Listings

/-!
# What the compiler keeps while it patches

The state of the compiler against the listing it has written so far.

* `Ghost`  the listing, the places known so far, and the places still to come: those of the open
  loops, the labels of the open routines, and the places `locals` that belong to statements not yet
  finished;
* `Sim st g`  the state holds the bytes of the listing, and every list of offsets is the list of the
  holes for its place;
* `Sim.write`, `Sim.jump`, `Sim.patch`, …  what each operation does to the listing.
-/

namespace Pscal.Statements

open Assembly Coder List Option Function

/-- what is known of the place of a `continue`; `passed`: the body has been compiled -/
inductive ContinuePhase where
  | unknown | known | passed
deriving DecidableEq

structure Ghost where
  items : Code
  defs : Aim → List Nat
  next : Nat
  loops : List (Nat × ContinuePhase)
  tables : List Nat
  /-- the places to come inside open statements: the holes, and the places given so far -/
  locals : Aim → Option (List Nat × List Nat)
  inRoutine : Bool

namespace Ghost

abbrev sites (g : Ghost) : List (Site Aim) := Assembly.sites format 0 g.items

abbrev marks (g : Ghost) : List (Aim × Nat) := Assembly.marks format 0 g.items

abbrev holes (g : Ghost) (a : Aim) : List Nat := Assembly.holes format a 0 g.items

def add (g : Ghost) (items : Code) : Ghost := { g with items := g.items ++ items }

def Open (g : Ghost) (a : Aim) : Prop :=
  (∃ x ∈ g.loops, a = .point x.1 ∨ a = .point (x.1 + 1)) ∨ ∃ t ∈ g.tables, ∃ name, a = .label t name

def Closed (g : Ghost) (a : Aim) : Prop :=
  (∃ m ∈ g.marks, m.1 = a) ∨ g.Open a ∨ g.locals a ≠ none

end Ghost

/-- the entry of `loop_stack` for the loop with the number `x.1` -/
structure LoopSim (g : Ghost) (loop : Loop) (x : Nat × ContinuePhase) : Prop where
  breaks : loop.breakJumps = g.holes (.point x.1)
  pending : g.defs (.point x.1) = []
  unknown : x.2 = .unknown → loop.continueTarget = none ∧
    loop.continueJumps = g.holes (.point (x.1 + 1)) ∧ g.defs (.point (x.1 + 1)) = []
  known : x.2 = .known → ∃ t, loop.continueTarget = some t ∧ loop.continueJumps = [] ∧
    (.point (x.1 + 1), t) ∈ g.marks
  passed : x.2 = .passed → ∃ t, (.point (x.1 + 1), t) ∈ g.marks

structure InfoSim (g : Ghost) (t : Nat) (info : LabelInfo) : Prop where
  undefined : info.bytecodeOffset = none →
    info.patches = g.holes (labelAim t info.name) ∧ g.defs (labelAim t info.name) = []
  defined : ∀ offset, info.bytecodeOffset = some offset →
    g.defs (labelAim t info.name) = [offset] ∧ (labelAim t info.name, offset) ∈ g.marks

structure TableSim (g : Ghost) (table : List LabelInfo) (t : Nat) : Prop where
  infos : ∀ info ∈ table, InfoSim g t info
  apart : table.Pairwise fun a b => toLowerString a.name ≠ toLowerString b.name
  known : ∀ site ∈ g.sites, ∀ name, site.aim = .label t name →
    ∃ info ∈ table, toLowerString info.name = name

/-- a place inside a statement, with its holes and the places it was given -/
structure LocalSim (g : Ghost) (a : Aim) (x : List Nat × List Nat) : Prop where
  holes : g.holes a = x.1
  defs : g.defs a = x.2
  id : a.id < g.next
  label : ∀ t name, a ≠ .label t name
  closed : ¬ g.Open a
  unmarked : ∀ m ∈ g.marks, m.1 ≠ a
  late : ∀ site ∈ g.sites, site.aim = a → site.late = true

structure Sim (st : Coder) (g : Ghost) : Prop where
  tracks : Tracks format Aim.passes st.code st.patched g.items g.defs
  loops : List.Forall₂ (LoopSim g) st.loops g.loops
  tables : List.Forall₂ (TableSim g) st.labels g.tables
  locals : ∀ a x, g.locals a = some x → LocalSim g a x
  fresh : ∀ a : Aim, g.next ≤ a.id → g.defs a = [] ∧ ∀ site ∈ g.sites, site.aim ≠ a
  loopIds : ∀ n ∈ g.loops.map Prod.fst, n + 1 < g.next
  loopsApart : (g.loops.map Prod.fst).Pairwise fun n m => n ≠ m ∧ n ≠ m + 1 ∧ n + 1 ≠ m
  tableIds : ∀ t ∈ g.tables, t < g.next
  tablesApart : g.tables.Nodup
  closed : ∀ site ∈ g.sites, g.Closed site.aim
  inRoutine : st.inRoutine = g.inRoutine
  small : st.code.length < 2 ^ 31

/-! ## a change that leaves the open places alone -/

section
variable {st st' : Coder} {g g' : Ghost}

theorem LoopSim.congr {loop : Loop} {x : Nat × ContinuePhase} (h : LoopSim g loop x)
    (hbreak : g'.holes (.point x.1) = g.holes (.point x.1) ∧ g'.defs (.point x.1) = g.defs (.point x.1))
    (hcontinue : g'.holes (.point (x.1 + 1)) = g.holes (.point (x.1 + 1)) ∧
      g'.defs (.point (x.1 + 1)) = g.defs (.point (x.1 + 1)))
    (hmarks : ∀ m ∈ g.marks, m ∈ g'.marks) : LoopSim g' loop x where
  breaks := h.breaks.trans hbreak.1.symm
  pending := hbreak.2.trans h.pending
  known hx := by
    obtain ⟨t, htarget, hjumps, hmem⟩ := h.known hx
    exact ⟨t, htarget, hjumps, hmarks _ hmem⟩
  unknown hx := by
    obtain ⟨htarget, hjumps, hdefs⟩ := h.unknown hx
    exact ⟨htarget, hjumps.trans hcontinue.1.symm, hcontinue.2.trans hdefs⟩
  passed hx := (h.passed hx).imp fun t hmem => hmarks _ hmem

theorem InfoSim.congr {t : Nat} {info : LabelInfo} (h : InfoSim g t info)
    (hsame : g'.holes (labelAim t info.name) = g.holes (labelAim t info.name) ∧
      g'.defs (labelAim t info.name) = g.defs (labelAim t info.name))
    (hmarks : ∀ m ∈ g.marks, m ∈ g'.marks) : InfoSim g' t info where
  undefined hinfo :=
    ⟨(h.undefined hinfo).1.trans hsame.1.symm, hsame.2.trans (h.undefined hinfo).2⟩
  defined offset hinfo :=
    ⟨hsame.2.trans (h.defined offset hinfo).1, hmarks _ (h.defined offset hinfo).2⟩

theorem TableSim.congr {table : List LabelInfo} {t : Nat} (h : TableSim g table t)
    (hsame : ∀ name, g'.holes (.label t name) = g.holes (.label t name) ∧
      g'.defs (.label t name) = g.defs (.label t name))
    (hmarks : ∀ m ∈ g.marks, m ∈ g'.marks)
    (hsites : ∀ site ∈ g'.sites, site ∈ g.sites ∨ ∀ name, site.aim ≠ .label t name) :
    TableSim g' table t where
  infos info hinfo := (h.infos info hinfo).congr (hsame _) hmarks
  apart := h.apart
  known site hsite name haim := by
    rcases hsites site hsite with hold | hnot
    · exact h.known site hold name haim
    · exact absurd haim (hnot name)

theorem forall₂_imp_of_mem {γ δ : Type} {R S : γ → δ → Prop} {xs : List γ} {ys : List δ}
    (h : Forall₂ R xs ys) (himp : ∀ x, ∀ y ∈ ys, R x y → S x y) : Forall₂ S xs ys := by
  induction h with
  | nil => exact .nil
  | cons hxy _ ih =>
    exact .cons (himp _ _ mem_cons_self hxy) (ih fun x y hy => himp x y (mem_cons_of_mem _ hy))

/-- the places of `T` are changed -/
theorem Sim.change (h : Sim st g) {T : Aim → Prop}
    (htracks : Tracks format Aim.passes st'.code st'.patched g'.items g'.defs)
    (hloops : Forall₂ (LoopSim g') st'.loops g'.loops)
    (htables : Forall₂ (TableSim g') st'.labels g'.tables)
    (hopen : g'.loops.map Prod.fst = g.loops.map Prod.fst ∧ g'.tables = g.tables)
    (hnext : g.next ≤ g'.next) (hT : ∀ a, T a → a.id < g'.next)
    (hsame : ∀ a, ¬ T a → g'.defs a = g.defs a)
    (hsites : ∀ site ∈ g'.sites, site ∈ g.sites ∨ site.aim.id < g'.next)
    (hlocals : ∀ a x, g'.locals a = some x → LocalSim g' a x)
    (hclosed : ∀ site ∈ g'.sites, g'.Closed site.aim) (hin : st'.inRoutine = g'.inRoutine)
    (hsmall : st'.code.length < 2 ^ 31) : Sim st' g' where
  tracks := htracks
  loops := hloops
  tables := htables
  locals := hlocals
  fresh a ha := by
    have hnot : ¬ T a := fun ht => by
      have := hT a ht
      omega
    have hold := h.fresh a (Nat.le_trans hnext ha)
    refine ⟨(hsame a hnot).trans hold.1, fun site hsite => ?_⟩
    rcases hsites site hsite with hin | hnew
    · exact hold.2 site hin
    · rintro rfl
      omega
  loopIds n hn := Nat.lt_of_lt_of_le (h.loopIds n (hopen.1 ▸ hn)) hnext
  loopsApart := hopen.1 ▸ h.loopsApart
  tableIds t ht := Nat.lt_of_lt_of_le (h.tableIds t (hopen.2 ▸ ht)) hnext
  tablesApart := hopen.2 ▸ h.tablesApart
  closed := hclosed
  inRoutine := hin
  small := hsmall

/-- the places of `T` are changed, and they belong to no loop and no label -/
theorem Sim.touch (h : Sim st g) {T : Aim → Prop}
    (htracks : Tracks format Aim.passes st'.code st'.patched g'.items g'.defs)
    (hstate : st'.loops = st.loops ∧ st'.labels = st.labels ∧ st'.inRoutine = st.inRoutine)
    (hopen : g'.loops = g.loops ∧ g'.tables = g.tables ∧ g'.inRoutine = g.inRoutine) (hnext : g.next ≤ g'.next)
    (hT : ∀ a, T a → ¬ g.Open a ∧ a.id < g'.next)
    (hsame : ∀ a, ¬ T a → g'.holes a = g.holes a ∧ g'.defs a = g.defs a)
    (hmarks : ∀ m ∈ g.marks, m ∈ g'.marks) (hsites : ∀ site ∈ g'.sites, site ∈ g.sites ∨
      site.aim.id < g'.next ∧ ∀ t name, site.aim ≠ .label t name)
    (hlocals : ∀ a x, g'.locals a = some x → LocalSim g' a x)
    (hclosed : ∀ site ∈ g'.sites, g'.Closed site.aim) (hsmall : st'.code.length < 2 ^ 31) :
    Sim st' g' := by
  refine h.change htracks ?_ ?_ ⟨by rw [hopen.1], hopen.2.1⟩ hnext (fun a ha => (hT a ha).2)
    (fun a ha => (hsame a ha).2) (fun site hsite => (hsites site hsite).imp_right And.left) hlocals
    hclosed (by rw [hstate.2.2, hopen.2.2, h.inRoutine]) hsmall
  · rw [hstate.1, hopen.1]
    refine forall₂_imp_of_mem h.loops fun loop x hx hsim => ?_
    exact hsim.congr (hsame _ fun ht => (hT _ ht).1 (.inl ⟨x, hx, .inl rfl⟩))
      (hsame _ fun ht => (hT _ ht).1 (.inl ⟨x, hx, .inr rfl⟩)) hmarks
  · rw [hstate.2.1, hopen.2.1]
    refine forall₂_imp_of_mem h.tables fun table t ht hsim => ?_
    refine hsim.congr (fun name => hsame _ fun hT' => (hT _ hT').1 (.inr ⟨t, ht, name, rfl⟩)) hmarks ?_
    exact fun site hsite => (hsites site hsite).imp_right fun hnew name => hnew.2 t name

end

/-! ## the operations -/

section
variable {st st' : Coder} {g : Ghost}

theorem Ghost.sites_add (h : Sim st g) (item : Item UInt8 Aim) :
    (g.add [item]).sites = g.sites ++ item.sites st.count := by
  rw [Ghost.sites, Ghost.add, sites_append, Nat.zero_add, ← h.tracks.length]
  exact congrArg _ (append_nil _)

theorem Ghost.marks_add (h : Sim st g) (item : Item UInt8 Aim) :
    (g.add [item]).marks = g.marks ++ item.marks st.count := by
  rw [Ghost.marks, Ghost.add, marks_append, Nat.zero_add, ← h.tracks.length]
  exact congrArg _ (append_nil _)

theorem Ghost.holes_add (h : Sim st g) (item : Item UInt8 Aim) (a : Aim) :
    (g.add [item]).holes a = g.holes a ++
      ((item.sites st.count).filter fun site => site.late = true ∧ site.aim = a).map Site.pos := by
  rw [Ghost.holes, Assembly.holes, show Assembly.sites format 0 (g.add [item]).items = _ from
    Ghost.sites_add h item, filter_append, map_append]
  rfl

theorem Sim.push (h : Sim st g) {item : Item UInt8 Aim}
    {locals : Aim → Option (List Nat × List Nat)}
    (htracks : Tracks format Aim.passes st'.code st'.patched (g.items ++ [item]) g.defs)
    (hstate : st'.loops = st.loops ∧ st'.labels = st.labels ∧ st'.inRoutine = st.inRoutine)
    (hsites : ∀ site ∈ item.sites st.count, (site.late = true → ¬ g.Open site.aim) ∧
      site.aim.id < g.next ∧ (∀ t name, site.aim ≠ .label t name) ∧
      { g.add [item] with locals := locals }.Closed site.aim)
    (hlocals : ∀ a x, locals a = some x → LocalSim { g.add [item] with locals := locals } a x)
    (hclosed : ∀ a, g.locals a ≠ none → { g.add [item] with locals := locals }.Closed a)
    (hsmall : st.count + item.size format < 2 ^ 31) :
    Sim st' { g.add [item] with locals := locals } := by
  have hmem : ∀ site ∈ (g.add [item]).sites, site ∈ g.sites ∨ site ∈ item.sites st.count :=
    fun site hsite => mem_append.mp (Ghost.sites_add h item ▸ hsite)
  have hmarks : ∀ m ∈ g.marks, m ∈ (g.add [item]).marks := fun m hm =>
    (Ghost.marks_add h item).symm ▸ mem_append_left _ hm
  refine h.touch (T := fun a => ∃ site ∈ item.sites st.count, site.late = true ∧ site.aim = a)
    htracks hstate ⟨rfl, rfl, rfl⟩ (Nat.le_refl _) ?_ (fun a ha => ⟨?_, rfl⟩) hmarks ?_ hlocals
    (fun site hsite => ?_) ?_
  · rintro a ⟨site, hsite, hlate, rfl⟩
    exact ⟨(hsites site hsite).1 hlate, (hsites site hsite).2.1⟩
  · show (g.add [item]).holes a = g.holes a
    rw [Ghost.holes_add h item a, filter_eq_nil_iff.mpr, map_nil, append_nil]
    intro site hsite hsat
    exact ha ⟨site, hsite, of_decide_eq_true hsat⟩
  · intro site hsite
    rcases hmem site hsite with hold | hnew
    · exact .inl hold
    · exact .inr ⟨(hsites site hnew).2.1, (hsites site hnew).2.2.1⟩
  · rcases hmem site hsite with hold | hnew
    · rcases h.closed site hold with ⟨m, hm, ha⟩ | hopen | hlocal
      · exact .inl ⟨m, hmarks m hm, ha⟩
      · exact .inr (.inl hopen)
      · exact hclosed _ hlocal
    · exact (hsites site hnew).2.2.2
  · rw [htracks.length, size_append, ← h.tracks.length]
    exact hsmall

theorem LocalSim.push (h : Sim st g) {item : Item UInt8 Aim}
    {locals : Aim → Option (List Nat × List Nat)} {a : Aim} {x : List Nat × List Nat}
    (hx : LocalSim g a x) (hsites : ∀ site ∈ item.sites st.count, site.aim ≠ a)
    (hmarks : ∀ m ∈ item.marks st.count, m.1 ≠ a) :
    LocalSim { g.add [item] with locals := locals } a x where
  holes := by
    show (g.add [item]).holes a = _
    rw [Ghost.holes_add h item a, filter_eq_nil_iff.mpr, map_nil, append_nil, hx.holes]
    exact fun site hsite hsat => hsites site hsite (of_decide_eq_true hsat).2
  defs := hx.defs
  id := hx.id
  label := hx.label
  closed := hx.closed
  unmarked m hm := by
    rcases mem_append.mp (Ghost.marks_add h item ▸ hm) with hold | hnew
    · exact hx.unmarked m hold
    · exact hmarks m hnew
  late site hsite ha := by
    rcases mem_append.mp (Ghost.sites_add h item ▸ hsite) with hold | hnew
    · exact hx.late site hold ha
    · exact absurd ha (hsites site hnew)

theorem Sim.write (h : Sim st g) {bytes : List UInt8} (hst : st.write bytes = some st') :
    Sim st' (g.add [.code bytes]) := by
  unfold Coder.write at hst
  split at hst
  case isFalse => cases hst
  next hsmall =>
    cases hst
    show Sim _ { g.add [.code bytes] with locals := g.locals }
    exact h.push (h.tracks.emit bytes) ⟨rfl, rfl, rfl⟩ (fun _ hs => by cases hs)
      (fun a x hx => (h.locals a x hx).push h (fun _ hs => by cases hs) fun _ hm => by cases hm)
      (fun a ha => .inr (.inr ha)) hsmall

theorem Sim.jump (h : Sim st g) {o : OpCode} {p : Nat} {a : Aim} {l : List Nat}
    (ha : g.locals a = some (l, [])) (hst : st.emitJump o = some (p, st')) :
    Sim st' { g.add [jumpTo o a] with locals := update g.locals a (some (l ++ [p], [])) } := by
  obtain ⟨st₁, hwrite, hpair⟩ := map_eq_some_iff.mp hst
  cases hpair
  unfold Coder.write at hwrite
  split at hwrite
  case isFalse => cases hwrite
  rename_i hsmall
  cases hwrite
  have hlocal := h.locals a _ ha
  refine h.push (h.tracks.jump [o.byte] hlocal.defs) ⟨rfl, rfl, rfl⟩ ?_ ?_ ?_ hsmall
  · intro site hsite
    obtain rfl := mem_singleton.mp hsite
    refine ⟨fun _ => hlocal.closed, hlocal.id, hlocal.label, .inr (.inr ?_)⟩
    show update g.locals a _ a ≠ none
    rw [update_self]
    exact some_ne_none _
  · intro b x hb
    by_cases hba : b = a
    · subst hba
      rw [update_self] at hb
      cases hb
      refine ⟨?_, hlocal.defs, hlocal.id, hlocal.label, hlocal.closed, ?_, ?_⟩
      · show (g.add [jumpTo o b]).holes b = _
        rw [Ghost.holes_add h (jumpTo o b) b, hlocal.holes]
        refine congrArg _ ?_
        show (([⟨st.count + 1, b, true⟩] : List (Site Aim)).filter _).map Site.pos = _
        rw [filter_cons_of_pos (by simp), filter_nil]
        rfl
      · intro m hm
        rcases mem_append.mp (Ghost.marks_add h (jumpTo o b) ▸ hm) with hold | hnew
        · exact hlocal.unmarked m hold
        · cases hnew
      · intro site hsite hsb
        rcases mem_append.mp (Ghost.sites_add h (jumpTo o b) ▸ hsite) with hold | hnew
        · exact hlocal.late site hold hsb
        · obtain rfl := mem_singleton.mp hnew
          rfl
    · rw [update_of_ne hba] at hb
      refine (h.locals b x hb).push h ?_ fun _ hm => by cases hm
      rintro site hsite rfl
      obtain rfl := mem_singleton.mp hsite
      exact hba rfl
  · intro b hb
    refine .inr (.inr ?_)
    show update g.locals a _ b ≠ none
    by_cases hba : b = a
    · rw [hba, update_self]
      exact some_ne_none _
    · rwa [update_of_ne hba]

theorem Sim.emitJumpTo (h : Sim st g) {o : OpCode} {a : Aim} {t : Nat} (hmem : (a, t) ∈ g.marks)
    (hlabel : ∀ t name, a ≠ .label t name) (hst : st.emitJumpTo o t = some st') :
    Sim st' (g.add [jumpBack o a]) := by
  unfold Coder.emitJumpTo Coder.write at hst
  split at hst
  case isFalse => cases hst
  rename_i hsmall
  cases hst
  have hknown := (h.tracks.marked _ hmem).1
  have hid : a.id < g.next := by
    by_contra hge
    have hdefs := (h.fresh a (Nat.le_of_not_lt hge)).1
    rw [known, hdefs] at hknown
    cases hknown
  have hmarked : (a, t) ∈ (g.add [jumpBack o a]).marks :=
    (Ghost.marks_add h _).symm ▸ mem_append_left _ hmem
  show Sim _ { g.add [jumpBack o a] with locals := g.locals }
  refine h.push (h.tracks.jumpBack [o.byte] hknown) ⟨rfl, rfl, rfl⟩ ?_ ?_ ?_ hsmall
  · intro site hsite
    obtain rfl := mem_singleton.mp hsite
    exact ⟨fun hlate => (by cases hlate), hid, hlabel, .inl ⟨_, hmarked, rfl⟩⟩
  · intro b x hb
    refine (h.locals b x hb).push h ?_ fun _ hm => by cases hm
    rintro site hsite rfl
    obtain rfl := mem_singleton.mp hsite
    exact (h.locals _ x hb).unmarked _ hmem rfl
  · exact fun b hb => .inr (.inr hb)

theorem Sim.mark (h : Sim st g) {a : Aim} {hs ds : List Nat} (ha : g.locals a = some (hs, ds))
    (hlast : ds.getLast? = some st.count) (hpasses : ds.length = a.passes) :
    Sim st { g.add [.mark a] with locals := update g.locals a none } := by
  have hlocal := h.locals a _ ha
  have hknown : known g.defs a = some st.count := by
    rw [known, hlocal.defs]
    exact hlast
  have hlen : (g.defs a).length = a.passes := by
    rw [hlocal.defs]
    exact hpasses
  have hmarked : (a, st.count) ∈ (g.add [.mark a]).marks :=
    (Ghost.marks_add h _).symm ▸ mem_append_right _ mem_cons_self
  refine h.push (h.tracks.mark hknown hlen) ⟨rfl, rfl, rfl⟩ (fun _ hs => by cases hs) ?_ ?_ h.small
  · intro b x hb
    by_cases hba : b = a
    · rw [hba, update_self] at hb
      cases hb
    · rw [update_of_ne hba] at hb
      refine (h.locals b x hb).push h (fun _ hs => by cases hs) fun m hm => ?_
      obtain rfl := mem_singleton.mp hm
      exact fun hab => hba hab.symm
  · intro b hb
    by_cases hba : b = a
    · exact .inl ⟨_, hmarked, hba.symm⟩
    · refine .inr (.inr ?_)
      show update g.locals a none b ≠ none
      rwa [update_of_ne hba]

theorem Sim.own (h : Sim st g) {a : Aim} (hid : g.next ≤ a.id) (hlabel : ∀ t name, a ≠ .label t name) :
    Sim st { g with
      next := a.id + 1
      locals := update g.locals a (some ([], [])) } := by
  obtain ⟨hdefs, hnosite⟩ := h.fresh a hid
  have hopen : ¬ g.Open a := by
    rintro (⟨x, hx, rfl | rfl⟩ | ⟨t, ht, name, rfl⟩)
    · have := h.loopIds x.1 (List.mem_map_of_mem hx)
      have : g.next ≤ x.1 := hid
      omega
    · have := h.loopIds x.1 (List.mem_map_of_mem hx)
      have : g.next ≤ x.1 + 1 := hid
      omega
    · exact hlabel t name rfl
  have hne : ∀ b x, g.locals b = some x → b ≠ a := by
    rintro b x hb rfl
    have := (h.locals b x hb).id
    omega
  refine h.touch (T := fun _ => False) h.tracks ⟨rfl, rfl, rfl⟩ ⟨rfl, rfl, rfl⟩
    (by dsimp only; omega)
    (fun _ hf => hf.elim) (fun _ _ => ⟨rfl, rfl⟩) (fun _ hm => hm) (fun _ hs => .inl hs) ?_ ?_
    h.small
  · intro b x hb
    by_cases hba : b = a
    · subst hba
      change update g.locals b _ b = some x at hb
      rw [update_self] at hb
      cases hb
      refine ⟨?_, hdefs, Nat.lt_succ_self _, hlabel, hopen, ?_, ?_⟩
      · refine map_eq_nil_iff.mpr (filter_eq_nil_iff.mpr fun site hsite hsat => ?_)
        exact hnosite site hsite (of_decide_eq_true hsat).2
      · rintro m hm rfl
        have hknown := (h.tracks.marked m hm).1
        rw [known, hdefs] at hknown
        cases hknown
      · exact fun site hsite hsb => absurd hsb (hnosite site hsite)
    · change update g.locals a _ b = some x at hb
      rw [update_of_ne hba] at hb
      obtain ⟨hh, hd, hid', hl, ho, hu, hlate⟩ := h.locals b x hb
      exact ⟨hh, hd, by dsimp only; omega, hl, ho, hu, hlate⟩
  · intro site hsite
    rcases h.closed site hsite with hm | ho | hlocal
    · exact .inl hm
    · exact .inr (.inl ho)
    · refine .inr (.inr ?_)
      show update g.locals a _ site.aim ≠ none
      rwa [update_of_ne (hnosite site hsite)]

/-! ## patching -/

theorem patchAll_eq (operands : List Nat) (t : Nat) (st : Coder)
    (hin : ∀ p ∈ operands, p + 4 ≤ st.count) : st.patchAll operands t =
      { st with
        code := Patch.writeAll st.code (fills format t operands)
        patched := st.patched ++ operands } := by
  induction operands generalizing st with
  | nil =>
    rw [append_nil]
    rfl
  | cons p operands ih =>
    have hp := hin p mem_cons_self
    have hpatch : st.patchTo p t =
        { st with
          code := Patch.write st.code p (int32Bytes ((t : Int) - ((p + 4 : Nat) : Int)))
          patched := st.patched ++ [p] } := by
      rw [Coder.patchTo, if_pos (by omega)]
      rfl
    have hcount : (st.patchTo p t).count = st.count := by
      rw [hpatch]
      exact Patch.length_write hp
    show (st.patchTo p t).patchAll operands t = _
    rw [ih _ fun q hq => hcount ▸ hin q (mem_cons_of_mem _ hq), hpatch]
    dsimp only
    rw [append_assoc]
    rfl

theorem Sim.patch (h : Sim st g) {a : Aim} {l m : List Nat} (ha : g.locals a = some (l, m))
    (t : Nat) : Sim (st.patchAll l t)
      { g with
        defs := update g.defs a (m ++ [t])
        locals := update g.locals a (some (l, m ++ [t])) } := by
  have hlocal := h.locals a _ ha
  have hin : ∀ p ∈ l, p + 4 ≤ st.count := by
    intro p hp
    have hholes : g.holes a = l := hlocal.holes
    rw [← hholes] at hp
    obtain ⟨site, hsite, _, _, rfl⟩ := mem_holes.mp hp
    have hb := site_bounds hsite
    have hlen := h.tracks.length
    show site.pos + format.width ≤ st.code.length
    omega
  have htracks := h.tracks.define t hlocal.late hlocal.unmarked
  rw [hlocal.defs, show Assembly.holes format a 0 g.items = l from hlocal.holes] at htracks
  rw [patchAll_eq l t st hin]
  refine h.touch (T := (· = a)) htracks ⟨rfl, rfl, rfl⟩ ⟨rfl, rfl, rfl⟩
    (Nat.le_refl _) ?_ ?_ (fun _ hm => hm)
    (fun _ l => .inl l) ?_ ?_
    (by rw [htracks.length, ← h.tracks.length]; exact h.small)
  · rintro b rfl
    exact ⟨hlocal.closed, hlocal.id⟩
  · exact fun b hb => ⟨rfl, update_of_ne hb _ _⟩
  · intro b x hb
    by_cases hba : b = a
    · subst hba
      change update g.locals b _ b = some x at hb
      rw [update_self] at hb
      cases hb
      exact ⟨hlocal.holes, update_self _ _ _, hlocal.id, hlocal.label, hlocal.closed,
        hlocal.unmarked, hlocal.late⟩
    · change update g.locals a _ b = some x at hb
      rw [update_of_ne hba] at hb
      obtain ⟨hh, hd, hid, hl, ho, hu, hlate⟩ := h.locals b x hb
      exact ⟨hh, (update_of_ne hba _ _).trans hd, hid, hl, ho, hu, hlate⟩
  · intro site hsite
    rcases h.closed site hsite with hm | ho | hlo
    · exact .inl hm
    · exact .inr (.inl ho)
    · refine .inr (.inr ?_)
      show update g.locals a _ site.aim ≠ none
      by_cases hsa : site.aim = a
      · rw [hsa, update_self]
        exact some_ne_none _
      · rwa [update_of_ne hsa]

end

end Pscal.Statements
