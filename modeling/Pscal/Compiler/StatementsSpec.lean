import Pscal.Compiler.JumpValidation

/-!
# Compiling writes the listing

* `Expr.compile_sim`, `Stmt.compile_sim`  a part of the program appends its listing;
-/

set_option linter.unusedSimpArgs false

namespace Pscal.Statements

open Assembly Coder List Option Function Ghost

section
variable {st st' : Coder} {g : Ghost}

theorem Sim.cast (h : Sim st g) {g' : Ghost} (hitems : g.items = g'.items) (hdefs : g.defs = g'.defs)
    (hnext : g.next = g'.next) (hlocals : g.locals = g'.locals)
    (hopen : g.loops = g'.loops ∧ g.tables = g'.tables ∧ g.inRoutine = g'.inRoutine) :
    Sim st g' := by
  obtain ⟨hl, ht, hr⟩ := hopen
  cases g
  cases g'
  cases hitems
  cases hdefs
  cases hnext
  cases hlocals
  cases hl
  cases ht
  cases hr
  exact h

variable {a : Aim} {s body : Stmt} {loops : List (Nat × ContinuePhase)} {n p : Nat}

theorem Sim.unowned (h : Sim st g) (ha : g.next ≤ a.id) : g.locals a = none := by
  cases hx : g.locals a with
  | none => rfl
  | some x =>
    have := (h.locals a x hx).id
    omega

/-- a place of its own for what is compiled next -/
theorem Sim.point (h : Sim st g) : g.locals (.point g.next) = none ∧ Sim st { g with
    next := g.next + 1
    locals := update g.locals (.point g.next) (some ([], [])) } :=
  ⟨h.unowned (a := .point g.next) (Nat.le_refl _),
    h.own (a := .point g.next) (Nat.le_refl _) fun _ _ he => by cases he⟩

theorem Sim.twoPoints (h : Sim st g) :
    g.locals (.point g.next) = none ∧ g.locals (.point (g.next + 1)) = none ∧ Sim st { g with
      next := g.next + 1 + 1
      locals := update (update g.locals (.point g.next) (some ([], [])))
        (.point (g.next + 1)) (some ([], [])) } :=
  ⟨h.point.1, h.unowned (a := .point (g.next + 1)) (Nat.le_succ _), h.point.2.point.2⟩

theorem Sim.threePoints (h : Sim st g) :
    g.locals (.point g.next) = none ∧ g.locals (.point (g.next + 1)) = none ∧
      g.locals (.point (g.next + 2)) = none ∧ Sim st { g with
        next := g.next + 1 + 1 + 1
        locals := update (update (update g.locals (.point g.next)
          (some ([], []))) (.point (g.next + 1)) (some ([], []))) (.point (g.next + 2))
          (some ([], [])) } :=
  ⟨h.point.1, h.twoPoints.2.1, h.unowned (a := .point (g.next + 2)) (Nat.le_add_right _ 2),
    h.twoPoints.2.2.point.2⟩

/-- a map that had nothing at `a` -/
theorem update_none {f f' : Aim → Option (List Nat × List Nat)} (ha : f a = none)
    (hf : ∀ c, c ≠ a → f' c = f c) : update f' a none = f := by
  funext c
  by_cases hc : c = a
  · rw [hc, update_self, ha]
  · rw [update_of_ne hc, hf c hc]

theorem Sim.land (h : Sim st g) {l : List Nat} (ha : g.locals a = some (l, []))
    (hpasses : a.passes = 1) :
    ∃ defs, Sim (st.patchAll l st.count)
      { g.add [.mark a] with defs := defs, locals := update g.locals a none } := by
  have hpatch := h.patch ha st.count
  have hcount : (st.patchAll l st.count).count = st.count :=
    hpatch.tracks.length.trans h.tracks.length.symm
  have hmark := hpatch.mark (a := a) (update_self _ _ _) (by rw [hcount]; rfl)
    (by rw [hpasses]; rfl)
  refine ⟨_, hmark.cast rfl rfl rfl ?_ ⟨rfl, rfl, rfl⟩⟩
  exact update_idem _ _ _

theorem instructions_sim (instructions : List Instruction) (h : Sim st g)
    (hst : instructions.foldlM (fun st i => st.write i.bytes) st = some st') :
    Sim st' (g.add (instructions.map fun i => .code i.bytes)) := by
  induction instructions generalizing st g with
  | nil =>
    cases hst
    exact h.cast (append_nil _).symm rfl rfl rfl ⟨rfl, rfl, rfl⟩
  | cons i instructions ih =>
    rw [foldlM_cons] at hst
    obtain ⟨st₁, hwrite, hst⟩ := bind_eq_some_iff.mp hst
    exact (ih (h.write hwrite) hst).cast (append_assoc _ _ _) rfl rfl rfl ⟨rfl, rfl, rfl⟩

theorem Expr.compile_sim (e : Expr) (h : Sim st g) (hst : e.compile st = some st') :
    ∃ defs, Sim st' { g with
      items := g.items ++ e.listing g.next
      next := g.next + e.names
      defs := defs } := by
  induction e generalizing st st' g with
  | code instructions => exact ⟨_, instructions_sim instructions h hst⟩
  | seq e f ihe ihf =>
    obtain ⟨st₁, he, hf⟩ := bind_eq_some_iff.mp hst
    obtain ⟨_, h₁⟩ := ihe h he
    obtain ⟨defs, h₂⟩ := ihf h₁ hf
    exact ⟨defs, h₂.cast (append_assoc _ _ _) rfl (Nat.add_assoc _ _ _) rfl ⟨rfl, rfl, rfl⟩⟩
  | andThen a b iha ihb =>
    obtain ⟨st₁, ha, hst⟩ := bind_eq_some_iff.mp hst
    obtain ⟨⟨p, st₂⟩, hp, hst⟩ := bind_eq_some_iff.mp hst
    obtain ⟨st₃, hb, hst⟩ := bind_eq_some_iff.mp hst
    obtain ⟨st₄, hw, hst⟩ := bind_eq_some_iff.mp hst
    obtain ⟨⟨q, st₅⟩, hq, hst⟩ := bind_eq_some_iff.mp hst
    obtain ⟨st₆, hw', hst⟩ := bind_eq_some_iff.mp hst
    cases hst
    obtain ⟨hn, hn', h⟩ := h.twoPoints
    obtain ⟨_, h⟩ := iha h ha
    have h := h.jump (a := .point g.next) (l := []) (by simp) hp
    obtain ⟨_, h⟩ := ihb h hb
    have h := h.write hw
    have h := h.jump (a := .point (g.next + 1)) (l := []) (by simp [add]) hq
    obtain ⟨_, h⟩ := h.land (a := .point g.next) (l := [p]) (by simp [add]) rfl
    have h := h.write hw'
    obtain ⟨_, h⟩ := h.land (a := .point (g.next + 1)) (l := [q]) (by simp [add]) rfl
    refine ⟨_, h.cast ?_ rfl ?_ ?_ ⟨rfl, rfl, rfl⟩⟩
    · simp only [Expr.listing, add, Aim.id, append_assoc]
      rfl
    · show g.next + 1 + 1 + a.names + b.names = g.next + (2 + a.names + b.names)
      omega
    · refine update_none hn' fun c hc' => ?_
      by_cases hc : c = .point g.next
      · rw [hc, hn]
        simp [add]
      · simp [add, update_apply, hc, hc']
  | orElse a b iha ihb =>
    obtain ⟨st₁, ha, hst⟩ := bind_eq_some_iff.mp hst
    obtain ⟨⟨p, st₂⟩, hp, hst⟩ := bind_eq_some_iff.mp hst
    obtain ⟨st₃, hw, hst⟩ := bind_eq_some_iff.mp hst
    obtain ⟨⟨q, st₄⟩, hq, hst⟩ := bind_eq_some_iff.mp hst
    obtain ⟨st₅, hb, hst⟩ := bind_eq_some_iff.mp hst
    obtain ⟨st₆, hw', hst⟩ := bind_eq_some_iff.mp hst
    cases hst
    obtain ⟨hn, hn', h⟩ := h.twoPoints
    obtain ⟨_, h⟩ := iha h ha
    have h := h.jump (a := .point g.next) (l := []) (by simp) hp
    have h := h.write hw
    have h := h.jump (a := .point (g.next + 1)) (l := []) (by simp [add]) hq
    obtain ⟨_, h⟩ := h.land (a := .point g.next) (l := [p]) (by simp [add]) rfl
    obtain ⟨_, h⟩ := ihb h hb
    have h := h.write hw'
    obtain ⟨_, h⟩ := h.land (a := .point (g.next + 1)) (l := [q]) (by simp [add]) rfl
    refine ⟨_, h.cast ?_ rfl ?_ ?_ ⟨rfl, rfl, rfl⟩⟩
    · simp only [Expr.listing, add, Aim.id, append_assoc]
      rfl
    · show g.next + 1 + 1 + a.names + b.names = g.next + (2 + a.names + b.names)
      omega
    · refine update_none hn' fun c hc' => ?_
      by_cases hc : c = .point g.next
      · rw [hc, hn]
        simp [add]
      · simp [add, update_apply, hc, hc']
  | ternary c a b ihc iha ihb =>
    obtain ⟨st₁, hc, hst⟩ := bind_eq_some_iff.mp hst
    obtain ⟨⟨p, st₂⟩, hp, hst⟩ := bind_eq_some_iff.mp hst
    obtain ⟨st₃, ha, hst⟩ := bind_eq_some_iff.mp hst
    obtain ⟨⟨q, st₄⟩, hq, hst⟩ := bind_eq_some_iff.mp hst
    obtain ⟨st₅, hb, hst⟩ := bind_eq_some_iff.mp hst
    cases hst
    obtain ⟨hn, hn', h⟩ := h.twoPoints
    obtain ⟨_, h⟩ := ihc h hc
    have h := h.jump (a := .point g.next) (l := []) (by simp) hp
    obtain ⟨_, h⟩ := iha h ha
    have h := h.jump (a := .point (g.next + 1)) (l := []) (by simp [add]) hq
    obtain ⟨_, h⟩ := h.land (a := .point g.next) (l := [p]) (by simp [add]) rfl
    obtain ⟨_, h⟩ := ihb h hb
    obtain ⟨_, h⟩ := h.land (a := .point (g.next + 1)) (l := [q]) (by simp [add]) rfl
    refine ⟨_, h.cast ?_ rfl ?_ ?_ ⟨rfl, rfl, rfl⟩⟩
    · simp only [Expr.listing, add, Aim.id, append_assoc]
      rfl
    · show g.next + 1 + 1 + c.names + a.names + b.names =
        g.next + (2 + c.names + a.names + b.names)
      omega
    · refine update_none hn' fun x hc' => ?_
      by_cases hc : x = .point g.next
      · rw [hc, hn]
        simp [add]
      · simp [add, update_apply, hc, hc']

/-! ## the parts of `for` and `case` -/

theorem CaseLabel.compile_sim (label : CaseLabel) (h : Sim st g)
    (hst : label.compile st = some st') :
    ∃ defs, Sim st' { g with
      items := g.items ++ label.listing g.next
      next := g.next + label.names
      defs := defs } := by
  cases label with
  | value e =>
    obtain ⟨st₁, hdup, hst⟩ := bind_eq_some_iff.mp hst
    obtain ⟨st₂, he, hst⟩ := bind_eq_some_iff.mp hst
    have h := h.write hdup
    obtain ⟨_, h⟩ := e.compile_sim h he
    have h := h.write hst
    refine ⟨_, h.cast ?_ rfl rfl rfl ⟨rfl, rfl, rfl⟩⟩
    simp only [CaseLabel.listing, add, append_assoc]
    rfl
  | range lower upper =>
    obtain ⟨st₁, hdup, hst⟩ := bind_eq_some_iff.mp hst
    obtain ⟨st₂, hdup', hst⟩ := bind_eq_some_iff.mp hst
    obtain ⟨st₃, hlower, hst⟩ := bind_eq_some_iff.mp hst
    obtain ⟨st₄, hge, hst⟩ := bind_eq_some_iff.mp hst
    obtain ⟨st₅, hswap, hst⟩ := bind_eq_some_iff.mp hst
    obtain ⟨st₆, hupper, hst⟩ := bind_eq_some_iff.mp hst
    obtain ⟨st₇, hle, hst⟩ := bind_eq_some_iff.mp hst
    have h := (h.write hdup).write hdup'
    obtain ⟨_, h⟩ := lower.compile_sim h hlower
    have h := (h.write hge).write hswap
    obtain ⟨_, h⟩ := upper.compile_sim h hupper
    have h := (h.write hle).write hst
    refine ⟨_, h.cast ?_ rfl (Nat.add_assoc _ _ _) rfl ⟨rfl, rfl, rfl⟩⟩
    simp only [CaseLabel.listing, add, append_assoc]
    rfl

theorem ForLoop.compileStep_sim (loop : ForLoop) (h : Sim st g)
    (hst : loop.compileStep st = some st') :
    ∃ defs, Sim st' { g with
      items := g.items ++ loop.stepListing g.next
      next := g.next + loop.stepNames
      defs := defs } := by
  obtain ⟨st₁, hvar, hst⟩ := bind_eq_some_iff.mp hst
  obtain ⟨st₂, hone, hst⟩ := bind_eq_some_iff.mp hst
  obtain ⟨st₃, hop, hstore⟩ := bind_eq_some_iff.mp hst
  obtain ⟨_, h⟩ := loop.var.compile_sim h hvar
  obtain ⟨_, h⟩ := loop.one.compile_sim h hone
  have h := h.write hop
  obtain ⟨_, h⟩ := loop.store.compile_sim h hstore
  refine ⟨_, h.cast ?_ rfl ?_ rfl ⟨rfl, rfl, rfl⟩⟩
  · simp only [ForLoop.stepListing, add, append_assoc]
    cases loop.down <;> rfl
  · show g.next + loop.var.names + loop.one.names + loop.store.names =
      g.next + (loop.var.names + loop.one.names + loop.store.names)
    omega

theorem ForLoop.compileLastStep_sim (loop : ForLoop) (h : Sim st g)
    (hst : loop.compileLastStep st = some st') :
    ∃ defs, Sim st' { g with
      items := g.items ++ loop.lastStepListing g.next
      next := g.next + loop.lastStepNames
      defs := defs } := by
  unfold ForLoop.compileLastStep at hst
  unfold ForLoop.lastStepListing ForLoop.lastStepNames
  cases hlimit : loop.limit with
  | none =>
    rw [hlimit] at hst
    exact loop.compileStep_sim h hst
  | some limit =>
    rw [hlimit] at hst
    obtain ⟨st₁, hvar, hst⟩ := bind_eq_some_iff.mp hst
    obtain ⟨st₂, hlim, hst⟩ := bind_eq_some_iff.mp hst
    obtain ⟨st₃, hop, hst⟩ := bind_eq_some_iff.mp hst
    obtain ⟨⟨p, st₄⟩, hp, hst⟩ := bind_eq_some_iff.mp hst
    obtain ⟨st₅, hstep, hst⟩ := bind_eq_some_iff.mp hst
    cases hst
    obtain ⟨hn, h⟩ := h.point
    obtain ⟨_, h⟩ := loop.var.compile_sim h hvar
    obtain ⟨_, h⟩ := limit.compile_sim h hlim
    have h := h.write hop
    have h := h.jump (a := .point g.next) (l := []) (by simp [add]) hp
    obtain ⟨_, h⟩ := loop.compileStep_sim h hstep
    obtain ⟨_, h⟩ := h.land (a := .point g.next) (l := [p]) (by simp) rfl
    refine ⟨_, h.cast ?_ rfl ?_ ?_ ⟨rfl, rfl, rfl⟩⟩
    · simp only [add, Aim.id, append_assoc]
      rfl
    · show g.next + 1 + loop.var.names + limit.names + loop.stepNames =
        g.next + (1 + loop.var.names + limit.names + loop.stepNames)
      omega
    · exact update_none hn fun x hx => by simp [add, hx]

theorem compileSharedLabels_sim {x : Aim} {label : CaseLabel} {labels : List CaseLabel}
    {ms ms' : List Nat} {fallthrough fallthrough' : Option Nat} (h : Sim st g)
    (hstart : g.locals x = some (ms, []))
    (hst : compileSharedLabels (label :: labels) st ms fallthrough =
      some (st', ms', fallthrough')) :
    ∃ p k t defs, fallthrough' = some p ∧
      lastAim (label :: labels) g.next = some (.again k) ∧ g.next ≤ k ∧
      Sim st' { g with
        items := g.items ++ sharedListing x (label :: labels) g.next
        next := g.next + sharedNames (label :: labels)
        defs := defs
        locals := update (update g.locals x (some (ms', [])))
          (.again k) (some ([p], [t])) } := by
  induction labels generalizing label st g ms fallthrough with
  | nil =>
    obtain ⟨st₁, hlabel, hst⟩ := bind_eq_some_iff.mp hst
    obtain ⟨⟨p, st₂⟩, hp, hst⟩ := bind_eq_some_iff.mp hst
    obtain ⟨st₃, hpop, hst⟩ := bind_eq_some_iff.mp hst
    obtain ⟨⟨m, st₄⟩, hm, hst⟩ := bind_eq_some_iff.mp hst
    cases hst
    have hne : x ≠ .again g.next := by
      rintro rfl
      have := (h.locals _ _ hstart).id
      exact absurd this (Nat.lt_irrefl _)
    have h := h.own (a := .again g.next) (Nat.le_refl _) fun _ _ he => by cases he
    obtain ⟨_, h⟩ := label.compile_sim h hlabel
    have h := h.jump (a := .again g.next) (l := []) (by simp) hp
    have h := h.write hpop
    have h := h.jump (a := x) (l := ms)
      (by simp [add, update_of_ne hne, hstart]) hm
    have h := h.patch (a := .again g.next) (l := [p]) (m := [])
      (by simp [add, update_of_ne hne.symm]) st₄.count
    refine ⟨p, g.next, st₄.count, _, rfl, rfl, Nat.le_refl _,
      h.cast ?_ rfl ?_ ?_ ⟨rfl, rfl, rfl⟩⟩
    · simp only [sharedListing, add, Aim.id, append_assoc]
      rfl
    · show g.next + 1 + label.names = g.next + (1 + label.names + 0)
      omega
    · funext c
      clear * - hne
      simp only [add, update_apply]
      split_ifs <;> rfl
  | cons label' labels ih =>
    obtain ⟨st₁, hlabel, hst⟩ := bind_eq_some_iff.mp hst
    obtain ⟨⟨p, st₂⟩, hp, hst⟩ := bind_eq_some_iff.mp hst
    obtain ⟨st₃, hpop, hst⟩ := bind_eq_some_iff.mp hst
    obtain ⟨⟨m, st₄⟩, hm, hst⟩ := bind_eq_some_iff.mp hst
    have hne : x ≠ .point g.next := by
      rintro rfl
      have := (h.locals _ _ hstart).id
      exact absurd this (Nat.lt_irrefl _)
    obtain ⟨hn, h⟩ := h.point
    obtain ⟨_, h⟩ := label.compile_sim h hlabel
    have h := h.jump (a := .point g.next) (l := []) (by simp) hp
    have h := h.write hpop
    have h := h.jump (a := x) (l := ms)
      (by simp [add, update_of_ne hne, hstart]) hm
    obtain ⟨_, h⟩ := h.land (a := .point g.next) (l := [p])
      (by simp [add, update_of_ne hne.symm]) rfl
    obtain ⟨q, k, t, defs, hq, hk, hle, h⟩ := ih h
      (by simp [add, update_of_ne hne]) hst
    have hnext : g.next + 1 + label.names = g.next + 1 + label.names := rfl
    refine ⟨q, k, t, defs, hq, hk, Nat.le_trans (by simp only [add, Aim.id]; omega) hle,
      h.cast ?_ rfl ?_ ?_ ⟨rfl, rfl, rfl⟩⟩
    · simp only [sharedListing, add, Aim.id, append_assoc]
      rfl
    · show g.next + 1 + label.names + sharedNames (label' :: labels) =
        g.next + (1 + label.names + sharedNames (label' :: labels))
      omega
    · funext c
      clear * - hne hn
      simp only [add, update_apply]
      split_ifs with hc hc' hc''
      · rfl
      · rfl
      · rw [hc'', hn]
      · rfl

/-! ## statements -/

def Ghost.Ready (g : Ghost) : Prop := ∀ x, g.loops.head? = some x → x.2 ≠ .passed

def Ghost.env (g : Ghost) : Env where
  loop := g.loops.head?.map fun x => (x.1, x.2 = .known)
  table := g.tables.headD 0
  inRoutine := g.inRoutine

def Stmt.Appends (s : Stmt) : Prop :=
  ∀ ⦃st st' : Coder⦄ ⦃g : Ghost⦄, Sim st g → g.Ready → s.compile st = some st' →
    ∃ defs, Sim st' { g with
      items := g.items ++ s.listing g.env g.next
      next := g.next + s.names
      defs := defs }

/-- the false jump that is pending between two branches -/
structure PendingSim (g : Ghost) (fallthrough : Option Nat) (pending : Option Aim) : Prop where
  absent : fallthrough = none → pending = none
  present : ∀ p, fallthrough = some p →
    ∃ k t, pending = some (.again k) ∧ g.locals (.again k) = some ([p], [t])

def clearLocal (pending : Option Aim) (locals : Aim → Option (List Nat × List Nat)) :
    Aim → Option (List Nat × List Nat) :=
  match pending with
  | none => locals
  | some a => Function.update locals a none

theorem patchFallthrough_sim {cs : CaseCoder} {pending : Option Aim} (h : Sim cs.coder g)
    (hpending : PendingSim g cs.fallthrough pending) :
    ∃ defs, Sim cs.patchFallthrough.coder { g.add (pendingMark pending) with
        defs := defs
        locals := clearLocal pending g.locals } ∧
      cs.patchFallthrough.endJumps = cs.endJumps ∧ cs.patchFallthrough.fallthrough = none := by
  unfold CaseCoder.patchFallthrough
  cases hft : cs.fallthrough with
  | none =>
    cases hpending.absent hft
    exact ⟨_, h.cast (append_nil _).symm rfl rfl rfl ⟨rfl, rfl, rfl⟩, rfl, hft⟩
  | some p =>
    obtain ⟨k, t, rfl, hk⟩ := hpending.present p hft
    have hpatch := h.patch hk cs.coder.count
    have hcount : (cs.coder.patchAll [p] cs.coder.count).count = cs.coder.count :=
      hpatch.tracks.length.trans h.tracks.length.symm
    have hmark := hpatch.mark (a := .again k) (update_self _ _ _)
      (by rw [hcount]; rfl) rfl
    exact ⟨_, hmark.cast rfl rfl rfl (update_idem _ _ _) ⟨rfl, rfl, rfl⟩, rfl, rfl⟩

/-- the branches append their listing; `fin` collects the jumps to the end -/
def Branches.Appends (bs : Branches) : Prop :=
  ∀ ⦃cs cs' : CaseCoder⦄ ⦃g : Ghost⦄ ⦃n : Nat⦄ ⦃pending : Option Aim⦄, Sim cs.coder g → g.Ready →
    g.locals (.point n) = some (cs.endJumps, []) → PendingSim g cs.fallthrough pending →
    bs.compile cs = some cs' →
    ∃ defs, Sim cs'.patchFallthrough.coder { g with
      items := g.items ++ bs.listing g.env (.point n) g.next pending
      next := g.next + bs.names
      defs := defs
      locals := Function.update (clearLocal pending g.locals) (.point n)
        (some (cs'.endJumps, [])) }

theorem Ghost.mem_marks_append {items : Code} {m : Aim × Nat} (hm : m ∈ g.marks) :
    m ∈ Assembly.marks format 0 (g.items ++ items) := by
  rw [marks_append]
  exact mem_append_left _ hm

theorem Sim.mem_marks_here (h : Sim st g) (a : Aim) :
    (a, st.count) ∈ Assembly.marks format 0 (g.items ++ [.mark a]) := by
  rw [marks_append, Nat.zero_add, ← h.tracks.length]
  exact mem_append_right _ mem_cons_self

theorem Stmt.appends_seq {t : Stmt} (hs : s.Appends) (ht : t.Appends) : (Stmt.seq s t).Appends := by
  intro st st' g h hready hst
  obtain ⟨st₁, h₁, h₂⟩ := bind_eq_some_iff.mp hst
  obtain ⟨_, h⟩ := hs h hready h₁
  obtain ⟨_, h⟩ := ht h hready h₂
  exact ⟨_, h.cast (append_assoc _ _ _) rfl (Nat.add_assoc _ _ _) rfl ⟨rfl, rfl, rfl⟩⟩

theorem Stmt.appends_ifThen (c : Expr) (hs : s.Appends) : (Stmt.ifThen c s).Appends := by
  intro st st' g h hready hst
  obtain ⟨st₁, hc, hst⟩ := bind_eq_some_iff.mp hst
  obtain ⟨⟨p, st₂⟩, hp, hst⟩ := bind_eq_some_iff.mp hst
  obtain ⟨st₃, hbody, hst⟩ := bind_eq_some_iff.mp hst
  cases hst
  obtain ⟨hn, h⟩ := h.point
  obtain ⟨_, h⟩ := c.compile_sim h hc
  have h := h.jump (a := .point g.next) (l := []) (by simp) hp
  obtain ⟨_, h⟩ := hs h hready hbody
  obtain ⟨_, h⟩ := h.land (a := .point g.next) (l := [p]) (by simp [add]) rfl
  refine ⟨_, h.cast ?_ rfl ?_ ?_ ⟨rfl, rfl, rfl⟩⟩
  · simp only [Stmt.listing, add, Aim.id, append_assoc]
    rfl
  · show g.next + 1 + c.names + s.names = g.next + (1 + c.names + s.names)
    omega
  · exact update_none hn fun x hx => by simp [add, hx]

theorem Stmt.appends_ifElse (c : Expr) {t : Stmt} (hs : s.Appends) (ht : t.Appends) :
    (Stmt.ifElse c s t).Appends := by
  intro st st' g h hready hst
  obtain ⟨st₁, hc, hst⟩ := bind_eq_some_iff.mp hst
  obtain ⟨⟨p, st₂⟩, hp, hst⟩ := bind_eq_some_iff.mp hst
  obtain ⟨st₃, hthen, hst⟩ := bind_eq_some_iff.mp hst
  obtain ⟨⟨q, st₄⟩, hq, hst⟩ := bind_eq_some_iff.mp hst
  obtain ⟨st₅, helse, hst⟩ := bind_eq_some_iff.mp hst
  cases hst
  obtain ⟨hn, hn', h⟩ := h.twoPoints
  obtain ⟨_, h⟩ := c.compile_sim h hc
  have h := h.jump (a := .point g.next) (l := []) (by simp) hp
  obtain ⟨_, h⟩ := hs h hready hthen
  have h := h.jump (a := .point (g.next + 1)) (l := []) (by simp [add]) hq
  obtain ⟨_, h⟩ := h.land (a := .point g.next) (l := [p]) (by simp [add]) rfl
  obtain ⟨_, h⟩ := ht h hready helse
  obtain ⟨_, h⟩ := h.land (a := .point (g.next + 1)) (l := [q]) (by simp [add]) rfl
  refine ⟨_, h.cast ?_ rfl ?_ ?_ ⟨rfl, rfl, rfl⟩⟩
  · simp only [Stmt.listing, add, Aim.id, append_assoc]
    rfl
  · show g.next + 1 + 1 + c.names + s.names + t.names =
      g.next + (2 + c.names + s.names + t.names)
    omega
  · refine update_none hn' fun x hc' => ?_
    by_cases hc : x = .point g.next
    · rw [hc, hn]
      simp [add]
    · simp [add, update_apply, hc, hc']

/-! ### loops -/

theorem patchAll_loops (operands : List Nat) (t : Nat) (st : Coder) (loops : List Loop) :
    { st with loops := loops }.patchAll operands t = { st.patchAll operands t with loops := loops } ∧
      (st.patchAll operands t).loops = st.loops := by
  induction operands generalizing st with
  | nil => exact ⟨rfl, rfl⟩
  | cons p operands ih =>
    have hstep : { st with loops := loops }.patchTo p t = { st.patchTo p t with loops := loops } ∧
        (st.patchTo p t).loops = st.loops := by
      unfold Coder.patchTo
      show (if p + 3 < st.count then _ else _) = _ ∧ _
      split
      · exact ⟨rfl, rfl⟩
      · exact ⟨rfl, rfl⟩
    show ({ st with loops := loops }.patchTo p t).patchAll operands t =
      { (st.patchTo p t).patchAll operands t with loops := loops } ∧
      ((st.patchTo p t).patchAll operands t).loops = st.loops
    rw [hstep.1]
    exact ⟨(ih _).1, (ih _).2.trans hstep.2⟩

theorem Sim.finishLoop (h : Sim st g) {phase : ContinuePhase} (hl : g.loops = (n, phase) :: loops)
    (hphase : phase ≠ .unknown) :
    ∃ defs, Sim st.patchBreaks.endLoop
      { g.add [.mark (.point n)] with defs := defs, loops := loops } := by
  have hall := h.loops
  rw [hl] at hall
  obtain ⟨loop, rest, hsim, hrest, hst⟩ := forall₂_cons_right_iff.mp hall
  have hnone : g.locals (.point n) = none := by
    cases hx : g.locals (.point n) with
    | none => rfl
    | some x => exact absurd (.inl ⟨_, hl ▸ mem_cons_self, .inl rfl⟩) (h.locals _ x hx).closed
  have hend := h.endLoop hl hphase hst
  obtain ⟨defs, hland⟩ := hend.land (a := .point n) (update_self _ _ _) rfl
  have heq : st.patchBreaks.endLoop =
      { st with loops := rest }.patchAll loop.breakJumps st.count := by
    rw [(patchAll_loops loop.breakJumps st.count st rest).1]
    unfold Coder.patchBreaks Coder.modifyLoop Coder.endLoop
    rw [hst]
    dsimp only
    rw [(patchAll_loops loop.breakJumps st.count st rest).2, hst]
    rfl
  refine ⟨defs, heq ▸ hland.cast rfl rfl rfl ?_ ⟨rfl, rfl, rfl⟩⟩
  show update (update g.locals (.point n) _) (.point n) none = g.locals
  rw [update_idem, ← hnone, update_eq_self]

theorem Stmt.appends_whileDo (c : Expr) (hs : s.Appends) : (Stmt.whileDo c s).Appends := by
  intro st st' g h hready hst
  obtain ⟨st₁, hstart, hst⟩ := bind_eq_some_iff.mp hst
  obtain ⟨st₂, hc, hst⟩ := bind_eq_some_iff.mp hst
  obtain ⟨⟨p, st₃⟩, hp, hst⟩ := bind_eq_some_iff.mp hst
  obtain ⟨st₄, hbody, hst⟩ := bind_eq_some_iff.mp hst
  obtain ⟨st₅, hback, hst⟩ := bind_eq_some_iff.mp hst
  cases hst
  unfold Coder.startLoop at hstart
  split at hstart
  case isFalse => cases hstart
  cases hstart
  obtain ⟨hn, hn', hn'', h⟩ := h.threePoints
  -- `continue` is known from the start
  have hlocal := h.locals (.point (g.next + 1)) ([], []) (by simp)
  have hmark := h.mem_marks_here (.point (g.next + 1))
  obtain ⟨_, h⟩ := h.land (a := .point (g.next + 1)) (l := []) (by simp) rfl
  have hbreak := h.locals (.point g.next) ([], []) (by simp [add])
  have h := h.openLoop (n := g.next) (p := .known)
    (l := { continueTarget := some st.count }) (by simp [add])
    (by simp only [add, Aim.id]; omega) hlocal.closed
    ⟨hbreak.holes.symm, hbreak.defs, fun he => (by cases he),
      fun _ => ⟨st.count, rfl, rfl, hmark⟩, fun he => (by cases he)⟩
  obtain ⟨_, h⟩ := c.compile_sim h hc
  have h := h.jump (a := .point (g.next + 2)) (l := []) (by simp [add]) hp
  obtain ⟨_, h⟩ := hs h (fun x hx => by cases hx; exact fun he => by cases he) hbody
  rw [h.patchContinues_known rfl] at hback
  have h := h.emitJumpTo (a := .point (g.next + 1)) (t := st.count)
    (by
      simp only [Ghost.add, Ghost.marks, append_assoc] at hmark ⊢
      rw [← append_assoc, marks_append]
      exact mem_append_left _ hmark) (fun _ _ he => by cases he) hback
  obtain ⟨_, h⟩ := h.land (a := .point (g.next + 2)) (l := [p]) (by simp [Ghost.add]) rfl
  obtain ⟨_, h⟩ := h.finishLoop rfl (fun he => by cases he)
  refine ⟨_, h.cast ?_ rfl ?_ ?_ ⟨rfl, rfl, rfl⟩⟩
  · simp only [Stmt.listing, add, Aim.id, append_assoc]
    rfl
  · show g.next + 2 + 1 + c.names + s.names = g.next + (3 + c.names + s.names)
    omega
  · funext x
    clear * - hn hn' hn''
    simp only [add, update_apply]
    split_ifs with hx hx' hx''
    · rw [hx, hn'']
    · rw [hx', hn']
    · rw [hx'', hn]
    · rfl

theorem count_setContinueTarget (t : Nat) (st : Coder) :
    (st.setContinueTarget t).count = st.count := by
  unfold Coder.setContinueTarget Coder.modifyLoop
  split <;> rfl

theorem Sim.finishBody (h : Sim st g) (hl : g.loops = (n, .unknown) :: loops) :
    ∃ defs, Sim (st.patchContinuesTo st.count)
      { g.add [.mark (.point (n + 1))] with defs := defs, loops := (n, .passed) :: loops } := by
  have hall := h.loops
  rw [hl] at hall
  obtain ⟨loop, rest, hsim, hrest, hst⟩ := forall₂_cons_right_iff.mp hall
  have heq : st.patchContinuesTo st.count =
      { st.patchAll loop.continueJumps st.count with
        loops := { loop with
          continueTarget := loop.continueTarget
          continueJumps := [] } :: rest } := by
    unfold Coder.patchContinuesTo Coder.modifyLoop
    rw [hst]
    dsimp only
    rw [(patchAll_loops loop.continueJumps st.count st rest).2, hst]
  rw [heq]
  exact ⟨_, h.patchContinues hl hst loop.continueTarget⟩

theorem Sim.finishForBody (h : Sim st g) (hl : g.loops = (n, .unknown) :: loops) :
    ∃ defs, Sim ((st.setContinueTarget st.count).patchContinuesTo st.count)
      { g.add [.mark (.point (n + 1))] with defs := defs, loops := (n, .passed) :: loops } := by
  have hall := h.loops
  rw [hl] at hall
  obtain ⟨loop, rest, hsim, hrest, hst⟩ := forall₂_cons_right_iff.mp hall
  have heq : (st.setContinueTarget st.count).patchContinuesTo st.count =
      { st.patchAll loop.continueJumps st.count with
        loops := { loop with
          continueTarget := some st.count
          continueJumps := [] } :: rest } := by
    unfold Coder.setContinueTarget Coder.patchContinuesTo Coder.modifyLoop
    rw [hst]
    dsimp only
    rw [(patchAll_loops loop.continueJumps st.count st _).1]
  rw [heq]
  exact ⟨_, h.patchContinues hl hst (some st.count)⟩

theorem Stmt.appends_repeatUntil (hs : s.Appends) (c : Expr) : (Stmt.repeatUntil s c).Appends := by
  intro st st' g h hready hst
  obtain ⟨st₁, hstart, hst⟩ := bind_eq_some_iff.mp hst
  obtain ⟨st₂, hbody, hst⟩ := bind_eq_some_iff.mp hst
  obtain ⟨st₃, hc, hst⟩ := bind_eq_some_iff.mp hst
  obtain ⟨st₄, hback, hst⟩ := bind_eq_some_iff.mp hst
  cases hst
  unfold Coder.startLoop at hstart
  split at hstart
  case isFalse => cases hstart
  cases hstart
  obtain ⟨hn, hn', hn'', h⟩ := h.threePoints
  have hmark := h.mem_marks_here (.point (g.next + 2))
  obtain ⟨_, h⟩ := h.land (a := .point (g.next + 2)) (l := []) (by simp) rfl
  have hbreak := h.locals (.point g.next) ([], []) (by simp [add])
  have hcontinue := h.locals (.point (g.next + 1)) ([], []) (by simp [add])
  have h := h.openLoop (n := g.next) (p := .unknown) (l := {}) (by simp [add])
    (by simp only [add, Aim.id]; omega) hcontinue.closed
    ⟨hbreak.holes.symm, hbreak.defs, fun _ => ⟨rfl, hcontinue.holes.symm, hcontinue.defs⟩,
      fun he => (by cases he), fun he => (by cases he)⟩
  obtain ⟨_, h⟩ := hs h (fun x hx => by cases hx; exact fun he => by cases he) hbody
  obtain ⟨_, h⟩ := h.finishBody rfl
  obtain ⟨_, h⟩ := c.compile_sim h hc
  have h := h.emitJumpTo (a := .point (g.next + 2)) (t := st.count)
    (by
      simp only [Ghost.add, Ghost.marks, append_assoc] at hmark ⊢
      rw [← append_assoc, marks_append]
      exact mem_append_left _ hmark) (fun _ _ he => by cases he) hback
  obtain ⟨_, h⟩ := h.finishLoop rfl (fun he => by cases he)
  refine ⟨_, h.cast ?_ rfl ?_ ?_ ⟨rfl, rfl, rfl⟩⟩
  · simp only [Stmt.listing, add, Aim.id, append_assoc]
    rfl
  · show g.next + 2 + 1 + s.names + c.names = g.next + (3 + s.names + c.names)
    omega
  · funext x
    clear * - hn hn' hn''
    simp only [add, update_apply]
    split_ifs with hx hx' hx''
    · rw [hx, hn']
    · rw [hx', hn]
    · rw [hx'', hn'']
    · rfl

/-- what the `for` statement `n` still has to patch in its body -/
def forLocals (n p : Nat) (locals : Aim → Option (List Nat × List Nat)) :
    Aim → Option (List Nat × List Nat) :=
  Function.update (Function.update locals (.point (n + 3)) (some ([p], [])))
    (.point (n + 4)) (some ([], []))

/-- the listing before the body of a `for` -/
def forEntryListing (loop : ForLoop) (n : Nat) : Code :=
  loop.start.listing (n + 5) ++ loop.store.listing (n + 5 + loop.start.names) ++
    loop.var.listing (n + 5 + loop.start.names + loop.store.names) ++
    loop.entryBound.listing (n + 5 + loop.start.names + loop.store.names + loop.var.names) ++
    [op loop.entryTest, jumpTo .jumpIfFalse (.point (n + 3)), .mark (.point (n + 2))]

theorem forEntry_sim (loop : ForLoop) (h : Sim st g) {st₁ st₂ st₃ st₄ st₅ st₆ : Coder}
    (hinit : loop.start.compile st = some st₁) (hstore : loop.store.compile st₁ = some st₂)
    (hstart : st₂.startLoop = some st₃) (hvar : loop.var.compile st₃ = some st₄)
    (hbound : loop.entryBound.compile st₄ = some st₅)
    (htest : st₅.write [loop.entryTest.byte] = some st₆)
    (hp : st₆.emitJump .jumpIfFalse = some (p, st')) :
    ∃ defs, (.point (g.next + 2), st'.count) ∈
        Assembly.marks format 0 (g.items ++ forEntryListing loop g.next) ∧ Sim st' { g with
      items := g.items ++ forEntryListing loop g.next
      next := g.next + 5 + loop.start.names + loop.store.names + loop.var.names +
        loop.entryBound.names
      loops := (g.next, .unknown) :: g.loops
      defs := defs
      locals := forLocals g.next p g.locals } := by
  unfold Coder.startLoop at hstart
  split at hstart
  case isFalse => cases hstart
  cases hstart
  obtain ⟨hn₀, hn₁, hn₂, h⟩ := h.threePoints
  have h := h.own (a := .point (g.next + 3)) (Nat.le_refl _) fun _ _ he => by cases he
  have h := h.own (a := .point (g.next + 4)) (Nat.le_refl _) fun _ _ he => by cases he
  obtain ⟨_, h⟩ := loop.start.compile_sim h hinit
  obtain ⟨_, h⟩ := loop.store.compile_sim h hstore
  have hbreak := h.locals (.point g.next) ([], []) (by simp)
  have hcontinue := h.locals (.point (g.next + 1)) ([], []) (by simp)
  have h := h.openLoop (n := g.next) (p := .unknown) (l := {}) (by simp)
    (by simp only [Aim.id]; omega) hcontinue.closed
    ⟨hbreak.holes.symm, hbreak.defs, fun _ => ⟨rfl, hcontinue.holes.symm, hcontinue.defs⟩,
      fun he => (by cases he), fun he => (by cases he)⟩
  obtain ⟨_, h⟩ := loop.var.compile_sim h hvar
  obtain ⟨_, h⟩ := loop.entryBound.compile_sim h hbound
  have h := h.write htest
  have h := h.jump (a := .point (g.next + 3)) (l := []) (by simp [add]) hp
  have hmark := h.mem_marks_here (.point (g.next + 2))
  obtain ⟨_, h⟩ := h.land (a := .point (g.next + 2)) (l := []) (by simp [add]) rfl
  have hitems : g.items ++ loop.start.listing (g.next + 5) ++
      loop.store.listing (g.next + 5 + loop.start.names) ++
      loop.var.listing (g.next + 5 + loop.start.names + loop.store.names) ++
      loop.entryBound.listing
        (g.next + 5 + loop.start.names + loop.store.names + loop.var.names) ++
      [op loop.entryTest] ++ [jumpTo .jumpIfFalse (.point (g.next + 3))] ++
      [.mark (.point (g.next + 2))] = g.items ++ forEntryListing loop g.next := by
    simp only [forEntryListing, append_assoc]
    rfl
  refine ⟨_, hitems ▸ hmark, h.cast hitems rfl rfl ?_ ⟨rfl, rfl, rfl⟩⟩
  · funext x
    clear * - hn₀ hn₁ hn₂
    simp only [forLocals, add, update_apply]
    split_ifs with h₂ h₃ h₄ h₁ h₀ <;> simp_all

/-- the code behind the body of a `for` -/
theorem forExit_sim (loop : ForLoop) (h : Sim st g) {q t : Nat} {st₁ st₂ st₃ st₄ st₅ st₆ : Coder}
    {locals : Aim → Option (List Nat × List Nat)} (hl : g.loops = (n, .passed) :: loops)
    (hlocals : g.locals = forLocals n p locals) (hn₃ : locals (.point (n + 3)) = none)
    (hn₄ : locals (.point (n + 4)) = none) (ht : (.point (n + 2), t) ∈ g.marks)
    (hvar : loop.var.compile st = some st₁) (hbound : loop.stepBound.compile st₁ = some st₂)
    (htest : st₂.write [loop.stepTest.byte] = some st₃)
    (hq : st₃.emitJump .jumpIfFalse = some (q, st₄)) (hstep : loop.compileStep st₄ = some st₅)
    (hback : st₅.emitJumpTo .jump t = some st₆)
    (hlast : loop.compileLastStep (st₆.patchTo q st₆.count) = some st') :
    ∃ defs, Sim (st'.patchTo p st'.count).patchBreaks.endLoop { g with
      items := g.items ++ (loop.var.listing g.next ++
        loop.stepBound.listing (g.next + loop.var.names) ++
        [op loop.stepTest, jumpTo .jumpIfFalse (.point (n + 4))] ++
        loop.stepListing (g.next + loop.var.names + loop.stepBound.names) ++
        [jumpBack .jump (.point (n + 2)), .mark (.point (n + 4))] ++
        loop.lastStepListing
          (g.next + loop.var.names + loop.stepBound.names + loop.stepNames) ++
        [.mark (.point (n + 3)), .mark (.point n)])
      next := g.next + loop.var.names + loop.stepBound.names + loop.stepNames +
        loop.lastStepNames
      loops := loops
      defs := defs
      locals := locals } := by
  obtain ⟨_, h⟩ := loop.var.compile_sim h hvar
  obtain ⟨_, h⟩ := loop.stepBound.compile_sim h hbound
  have h := h.write htest
  have h := h.jump (a := .point (n + 4)) (l := [])
    (by simp [add, hlocals, forLocals]) hq
  obtain ⟨_, h⟩ := loop.compileStep_sim h hstep
  have h := h.emitJumpTo (a := .point (n + 2)) (t := t)
    (by
      simp only [Ghost.add, Ghost.marks, append_assoc]
      exact mem_marks_append ht) (fun _ _ he => by cases he) hback
  obtain ⟨_, h⟩ := h.land (a := .point (n + 4)) (l := [q]) (by simp [add]) rfl
  obtain ⟨_, h⟩ := loop.compileLastStep_sim h hlast
  obtain ⟨_, h⟩ := h.land (a := .point (n + 3)) (l := [p])
    (by simp [add, hlocals, forLocals]) rfl
  obtain ⟨_, h⟩ := h.finishLoop hl (fun he => by cases he)
  refine ⟨_, h.cast ?_ rfl rfl ?_ ⟨rfl, rfl, rfl⟩⟩
  · simp only [add, append_assoc]
    rfl
  · funext x
    clear * - hn₃ hn₄ hlocals
    simp only [hlocals, forLocals, add, update_apply]
    split_ifs with h₃ h₄
    · rw [h₃, hn₃]
    · rw [h₄, hn₄]
    · rfl

theorem Stmt.appends_forTo (loop : ForLoop) (hs : s.Appends) : (Stmt.forTo loop s).Appends := by
  intro st st' g h hready hst
  obtain ⟨st₁, hinit, hst⟩ := bind_eq_some_iff.mp hst
  obtain ⟨st₂, hstore, hst⟩ := bind_eq_some_iff.mp hst
  obtain ⟨st₃, hstart, hst⟩ := bind_eq_some_iff.mp hst
  obtain ⟨st₄, hvar, hst⟩ := bind_eq_some_iff.mp hst
  obtain ⟨st₅, hbound, hst⟩ := bind_eq_some_iff.mp hst
  obtain ⟨st₆, htest, hst⟩ := bind_eq_some_iff.mp hst
  obtain ⟨⟨p, st₇⟩, hp, hst⟩ := bind_eq_some_iff.mp hst
  obtain ⟨st₈, hbody, hst⟩ := bind_eq_some_iff.mp hst
  obtain ⟨st₉, hvar', hst⟩ := bind_eq_some_iff.mp hst
  obtain ⟨st₁₀, hbound', hst⟩ := bind_eq_some_iff.mp hst
  obtain ⟨st₁₁, htest', hst⟩ := bind_eq_some_iff.mp hst
  obtain ⟨⟨q, st₁₂⟩, hq, hst⟩ := bind_eq_some_iff.mp hst
  obtain ⟨st₁₃, hstep, hst⟩ := bind_eq_some_iff.mp hst
  obtain ⟨st₁₄, hback, hst⟩ := bind_eq_some_iff.mp hst
  obtain ⟨st₁₅, hlast, hst⟩ := bind_eq_some_iff.mp hst
  cases hst
  rw [count_setContinueTarget] at hvar'
  have hn₃ := h.unowned (a := .point (g.next + 3)) (Nat.le_add_right _ _)
  have hn₄ := h.unowned (a := .point (g.next + 4)) (Nat.le_add_right _ _)
  obtain ⟨_, hmark, h⟩ := forEntry_sim loop h hinit hstore hstart hvar hbound htest hp
  obtain ⟨_, h⟩ := hs h (fun x hx => by cases hx; exact fun he => by cases he) hbody
  obtain ⟨_, h⟩ := h.finishForBody rfl
  have hmark : ∀ more more', (.point (g.next + 2), st₇.count) ∈ Assembly.marks format 0
      (g.items ++ forEntryListing loop g.next ++ more ++ more') := by
    intro more more'
    rw [append_assoc, marks_append]
    exact mem_append_left _ hmark
  obtain ⟨_, h⟩ := forExit_sim loop h rfl rfl hn₃ hn₄ (hmark _ _) hvar' hbound' htest' hq hstep hback
    hlast
  refine ⟨_, h.cast ?_ rfl ?_ ?_ ⟨rfl, rfl, rfl⟩⟩
  · simp only [Stmt.listing, forEntryListing, add, append_assoc]
    rfl
  · show _ = g.next + (5 + loop.start.names + loop.store.names + loop.var.names +
      loop.entryBound.names + s.names + loop.var.names + loop.stepBound.names + loop.stepNames +
      loop.lastStepNames)
    simp only [add]
    omega
  · rfl

/-! ### jumps and labels -/

theorem Sim.noLoops (h : Sim st g) (hl : g.loops = []) : st.loops = [] := by
  have hall := h.loops
  rw [hl] at hall
  exact forall₂_nil_right_iff.mp hall

theorem Sim.noTables (h : Sim st g) (hl : g.tables = []) : st.labels = [] := by
  have hall := h.tables
  rw [hl] at hall
  exact forall₂_nil_right_iff.mp hall

theorem Stmt.appends_breakLoop : Stmt.breakLoop.Appends := by
  intro st st' g h hready hst
  change st.addBreakJump = some st' at hst
  cases hl : g.loops with
  | nil =>
    unfold Coder.addBreakJump at hst
    rw [if_pos (h.noLoops hl)] at hst
    cases hst
  | cons x loops =>
    refine ⟨_, (h.addBreakJump hl hst).cast ?_ rfl rfl rfl ⟨hl, rfl, rfl⟩⟩
    show g.items ++ _ = g.items ++ Stmt.listing g.env .breakLoop g.next
    rw [Stmt.listing, env, hl]
    rfl

theorem Stmt.appends_continueLoop : Stmt.continueLoop.Appends := by
  intro st st' g h hready hst
  change st.addContinueJump = some st' at hst
  cases hl : g.loops with
  | nil =>
    unfold Coder.addContinueJump at hst
    rw [h.noLoops hl] at hst
    cases hst
  | cons x loops =>
    obtain ⟨n, phase⟩ := x
    cases phase with
    | passed => exact absurd rfl (hready (n, .passed) (by rw [hl]; rfl))
    | unknown =>
      refine ⟨_, (h.addContinueJump hl hst).cast ?_ rfl rfl rfl ⟨hl, rfl, rfl⟩⟩
      show g.items ++ _ = g.items ++ Stmt.listing g.env .continueLoop g.next
      rw [Stmt.listing, env, hl]
      rfl
    | known =>
      refine ⟨_, (h.addContinueJumpBack hl hst).cast ?_ rfl rfl rfl ⟨hl, rfl, rfl⟩⟩
      show g.items ++ _ = g.items ++ Stmt.listing g.env .continueLoop g.next
      rw [Stmt.listing, env, hl]
      rfl

theorem Stmt.appends_goto (name : String) : (Stmt.goto name).Appends := by
  intro st st' g h hready hst
  change st.compileGoto name = some st' at hst
  cases hl : g.tables with
  | nil =>
    unfold Coder.compileGoto at hst
    rw [h.noTables hl] at hst
    cases hst
  | cons t tables =>
    refine ⟨_, (h.compileGoto hl hst).cast ?_ rfl rfl rfl ⟨rfl, hl, rfl⟩⟩
    show g.items ++ _ = g.items ++ Stmt.listing g.env (.goto name) g.next
    rw [Stmt.listing, env, hl]
    rfl

theorem Stmt.appends_label (name : String) (hs : s.Appends) : (Stmt.label name s).Appends := by
  intro st st' g h hready hst
  obtain ⟨st₁, hlabel, hst⟩ := bind_eq_some_iff.mp hst
  cases hl : g.tables with
  | nil =>
    unfold Coder.defineLabel at hlabel
    rw [h.noTables hl] at hlabel
    cases hlabel
  | cons t tables =>
    obtain ⟨_, h⟩ := h.defineLabel hl hlabel
    obtain ⟨_, h⟩ := hs h hready hst
    refine ⟨_, h.cast ?_ rfl rfl rfl ⟨rfl, hl, rfl⟩⟩
    show g.items ++ _ ++ s.listing _ _ = g.items ++ (_ ++ s.listing _ _)
    rw [append_assoc]
    show g.items ++ ([.mark (labelAim t name)] ++ _) =
      g.items ++ ([.mark (labelAim (g.tables.headD 0) name)] ++ _)
    rw [hl]
    rfl

/-! ### `case` -/

theorem Sim.emitEndJump {c cs' : CaseCoder} (h : Sim c.coder g)
    (hfin : g.locals (.point n) = some (c.endJumps, [])) (hst : c.emitEndJump = some cs') :
    Sim cs'.coder { g.add [jumpTo .jump (.point n)] with
        locals := update g.locals (.point n) (some (cs'.endJumps, [])) } ∧
      cs'.fallthrough = c.fallthrough := by
  obtain ⟨⟨p, st₁⟩, hp, rfl⟩ := map_eq_some_iff.mp hst
  exact ⟨h.jump hfin hp, rfl⟩

theorem PendingSim.clear_point {fallthrough : Option Nat} {pending : Option Aim}
    (h : PendingSim g fallthrough pending) :
    clearLocal pending g.locals (.point n) = g.locals (.point n) := by
  cases hft : fallthrough with
  | none =>
    rw [h.absent hft]
    rfl
  | some p =>
    obtain ⟨k, t, rfl, _⟩ := h.present p hft
    show update g.locals (.again k) none (.point n) = _
    rw [update_of_ne (by simp)]

theorem Branches.appends_done : Branches.done.Appends := by
  intro cs cs' g n pending h hready hfin hpending hst
  cases hst
  obtain ⟨_, h, _, _⟩ := patchFallthrough_sim h hpending
  refine ⟨_, h.cast rfl rfl rfl ?_ ⟨rfl, rfl, rfl⟩⟩
  show clearLocal pending g.locals = update (clearLocal pending g.locals) (.point n) _
  rw [← hfin, ← hpending.clear_point, update_eq_self]

theorem Branches.appends_empty {rest : Branches} (hrest : rest.Appends) :
    (Branches.branch [] body rest).Appends := by
  intro cs cs' g n pending h hready hfin hpending hst
  change rest.compile cs.patchFallthrough = some cs' at hst
  obtain ⟨_, h, hends, hft⟩ := patchFallthrough_sim h hpending
  have hfin' : clearLocal pending g.locals (.point n) =
      some (cs.patchFallthrough.endJumps, []) := by
    rw [hends, hpending.clear_point, hfin]
  obtain ⟨_, h⟩ := @hrest _ _ _ n none h hready hfin'
    ⟨fun _ => rfl, fun p hp => by rw [hft] at hp; cases hp⟩ hst
  exact ⟨_, h.cast (append_assoc _ _ _) rfl rfl rfl ⟨rfl, rfl, rfl⟩⟩

theorem clearLocal_some (a : Aim) (locals : Aim → Option (List Nat × List Nat)) :
    clearLocal (some a) locals = update locals a none := rfl

theorem clearLocal_none {locals : Aim → Option (List Nat × List Nat)} (pending : Option Aim)
    (ha : locals a = none) : clearLocal pending locals a = none := by
  cases pending with
  | none => exact ha
  | some b =>
    show update locals b none a = none
    by_cases hab : a = b
    · rw [hab, update_self]
    · rw [update_of_ne hab, ha]

theorem Branches.appends_single (label : CaseLabel) {rest : Branches} (hbody : body.Appends)
    (hrest : rest.Appends) : (Branches.branch [label] body rest).Appends := by
  intro cs cs' g n pending h hready hfin hpending hst
  obtain ⟨st₁, hlabel, hst⟩ := bind_eq_some_iff.mp hst
  obtain ⟨⟨p, st₂⟩, hp, hst⟩ := bind_eq_some_iff.mp hst
  obtain ⟨st₃, hpop, hst⟩ := bind_eq_some_iff.mp hst
  obtain ⟨st₄, hb, hst⟩ := bind_eq_some_iff.mp hst
  obtain ⟨cs₁, hend, hrun⟩ := bind_eq_some_iff.mp hst
  have hn := h.unowned (a := .again g.next) (Nat.le_refl _)
  have hclear := clearLocal_none pending hn
  have hfin' : clearLocal pending g.locals (.point n) = some (cs.endJumps, []) := by
    rw [hpending.clear_point, hfin]
  obtain ⟨_, h, hends, _⟩ := patchFallthrough_sim h hpending
  have h := h.own (a := .again g.next) (Nat.le_refl _) fun _ _ he => by cases he
  obtain ⟨_, h⟩ := label.compile_sim h hlabel
  have h := h.jump (a := .again g.next) (l := []) (by simp [add]) hp
  have h := h.write hpop
  obtain ⟨_, h⟩ := hbody h hready hb
  obtain ⟨h, _⟩ := h.emitEndJump (c := { cs.patchFallthrough with coder := st₄ }) (n := n)
    (by simp [add, hfin', hends]) hend
  have h := h.patch (a := .again g.next) (l := [p]) (m := []) (by simp [add])
    cs₁.coder.count
  obtain ⟨_, h⟩ := @hrest { cs₁ with
      coder := cs₁.coder.patchTo p cs₁.coder.count
      fallthrough := some p } _ _ n (some (.again g.next)) h hready
    (by simp [add])
    ⟨fun he => (by cases he), fun q hq => ⟨g.next, cs₁.coder.count, rfl, by
      cases hq
      simp⟩⟩ hrun
  refine ⟨_, h.cast ?_ rfl ?_ ?_ ⟨rfl, rfl, rfl⟩⟩
  · simp only [Branches.listing, add, Aim.id, append_assoc]
    rfl
  · show g.next + 1 + label.names + body.names + rest.names =
      g.next + (1 + label.names + body.names + rest.names)
    omega
  · funext c
    clear * - hclear
    simp only [add, clearLocal_some, update_apply]
    split_ifs with hc hc'
    · rfl
    · rw [hc', hclear]
    · rfl

theorem Branches.appends_shared (label label' : CaseLabel) (labels : List CaseLabel)
    {rest : Branches} (hbody : body.Appends) (hrest : rest.Appends) :
    (Branches.branch (label :: label' :: labels) body rest).Appends := by
  intro cs cs' g n pending h hready hfin hpending hst
  obtain ⟨⟨st₁, ms, ft⟩, hshared, hst⟩ := bind_eq_some_iff.mp hst
  obtain ⟨st₂, hb, hst⟩ := bind_eq_some_iff.mp hst
  obtain ⟨cs₁, hend, hrun⟩ := bind_eq_some_iff.mp hst
  have hn := h.unowned (a := .point g.next) (Nat.le_refl _)
  have hlt := (h.locals _ _ hfin).id
  have hne : n ≠ g.next := Nat.ne_of_lt hlt
  have hclear := clearLocal_none pending hn
  have hclear' : ∀ k, g.next ≤ k → clearLocal pending g.locals (.again k) = none := fun k hk =>
    clearLocal_none pending (h.unowned (a := .again k) hk)
  have hfin' : clearLocal pending g.locals (.point n) = some (cs.endJumps, []) := by
    rw [hpending.clear_point, hfin]
  obtain ⟨_, h, hends, _⟩ := patchFallthrough_sim h hpending
  have h := h.own (a := .point g.next) (Nat.le_refl _) fun _ _ he => by cases he
  obtain ⟨p, k, t, _, rfl, hlast, hk, h⟩ := compileSharedLabels_sim (x := .point g.next) h
    (by simp) hshared
  obtain ⟨_, h⟩ := h.land (a := .point g.next) (l := ms) (by simp [add]) rfl
  obtain ⟨_, h⟩ := hbody h hready hb
  obtain ⟨h, hft⟩ := h.emitEndJump
    (c := { cs.patchFallthrough with coder := st₂, fallthrough := some p }) (n := n)
    (by simp [add, hfin', hends, hne]) hend
  have hkn : g.next ≤ k := by
    simp only [add, Aim.id] at hk
    omega
  obtain ⟨_, h⟩ := @hrest cs₁ _ _ n (some (.again k)) h hready
    (by simp [add])
    ⟨fun he => (by rw [hft] at he; cases he), fun q hq => ⟨k, t, rfl, by
      rw [hft] at hq
      cases hq
      simp [add]⟩⟩ hrun
  refine ⟨_, h.cast ?_ rfl ?_ ?_ ⟨rfl, rfl, rfl⟩⟩
  · simp only [add, Aim.id] at hlast
    simp only [Branches.listing, hlast, add, Aim.id, append_assoc]
    rfl
  · show g.next + 1 + sharedNames (label :: label' :: labels) + body.names + rest.names =
      g.next + (1 + sharedNames (label :: label' :: labels) + body.names + rest.names)
    omega
  · funext c
    have hck := hclear' k hkn
    clear * - hclear hck
    simp only [add, clearLocal_some, update_apply]
    split_ifs with hc hc' hc''
    · rfl
    · rw [hc', hck]
    · rw [hc'', hclear]
    · rfl

theorem Stmt.appends_caseOf (selector : Expr) {branches : Branches} {otherwise : Stmt}
    (hbranches : branches.Appends) (hotherwise : otherwise.Appends) :
    (Stmt.caseOf selector branches otherwise).Appends := by
  intro st st' g h hready hst
  obtain ⟨st₁, hselector, hst⟩ := bind_eq_some_iff.mp hst
  obtain ⟨cs, hcs, hst⟩ := bind_eq_some_iff.mp hst
  obtain ⟨st₂, hpop, hst⟩ := bind_eq_some_iff.mp hst
  obtain ⟨st₃, helse, hst⟩ := bind_eq_some_iff.mp hst
  cases hst
  obtain ⟨hn, h⟩ := h.point
  obtain ⟨_, h⟩ := selector.compile_sim h hselector
  obtain ⟨_, h⟩ := @hbranches { coder := st₁ } _ _ g.next none h hready
    (by simp) ⟨fun _ => rfl, fun p hp => by cases hp⟩ hcs
  have hends : cs.patchFallthrough.endJumps = cs.endJumps := by
    unfold CaseCoder.patchFallthrough
    split <;> rfl
  have h := h.write hpop
  obtain ⟨_, h⟩ := hotherwise h hready helse
  obtain ⟨_, h⟩ := h.land (a := .point g.next) (l := cs.endJumps) (by simp [add]) rfl
  rw [← hends] at h
  refine ⟨_, h.cast ?_ rfl ?_ ?_ ⟨rfl, rfl, rfl⟩⟩
  · simp only [Stmt.listing, add, Aim.id, append_assoc]
    rfl
  · show g.next + 1 + selector.names + branches.names + otherwise.names =
      g.next + (1 + selector.names + branches.names + otherwise.names)
    omega
  · funext c
    clear * - hn
    simp only [add, clearLocal, update_apply]
    split_ifs with hc
    · rw [hc, hn]
    · rfl

/-! ### routines -/

theorem Sim.skipTo (h : Sim st g) {m : Nat} (hm : g.next ≤ m) : Sim st { g with next := m } := by
  refine h.touch (T := fun _ => False) h.tracks ⟨rfl, rfl, rfl⟩ ⟨rfl, rfl, rfl⟩ hm
    (fun _ hf => hf.elim) (fun _ _ => ⟨rfl, rfl⟩) (fun _ hm => hm) (fun _ hs => .inl hs) ?_
    h.closed h.small
  intro a x hx
  obtain ⟨hh, hd, hi, hl, ho, hu, hlate⟩ := h.locals a x hx
  exact ⟨hh, hd, Nat.lt_of_lt_of_le hi hm, hl, ho, hu, hlate⟩

theorem Sim.setInRoutine (h : Sim st g) (b : Bool) :
    Sim { st with inRoutine := b } { g with inRoutine := b } :=
  ⟨h.tracks, h.loopsSame rfl rfl, h.tablesSame rfl rfl,
    fun a x hx =>
      let hs := h.locals a x hx
      ⟨hs.holes, hs.defs, hs.id, hs.label, hs.closed, hs.unmarked, hs.late⟩,
    h.fresh, h.loopIds, h.loopsApart, h.tableIds, h.tablesApart, h.closed, rfl, h.small⟩

theorem skipJump_sim (b : Bool) {id : Nat} (h : Sim st g) (hid : g.next ≤ id)
    (hst : st.emitJumpIf b .jump = some (p, st')) :
    Sim st' { g.add (if b then [jumpTo .jump (.point id)] else []) with
      next := id + 1
      locals := if b then update g.locals (.point id) (some ([p], [])) else g.locals } := by
  cases b with
  | false =>
    cases hst
    exact (h.skipTo (Nat.le_succ_of_le hid)).cast (append_nil _).symm rfl rfl rfl
      ⟨rfl, rfl, rfl⟩
  | true =>
    have h := h.own (a := .point id) hid fun _ _ he => by cases he
    have h := h.jump (a := .point id) (l := []) (by simp) hst
    exact h.cast rfl rfl rfl (update_idem _ _ _) ⟨rfl, rfl, rfl⟩

theorem skipLand_sim (b : Bool) (h : Sim st g)
    (hlocal : b = true → g.locals (.point n) = some ([p], [])) :
    ∃ defs, Sim (st.patchIf b p)
      { g.add (if b then [.mark (.point n)] else []) with
        defs := defs
        locals := if b then update g.locals (.point n) none else g.locals } := by
  cases b with
  | false => exact ⟨_, h.cast (append_nil _).symm rfl rfl rfl ⟨rfl, rfl, rfl⟩⟩
  | true => exact h.land (hlocal rfl) rfl

theorem Sim.ownLoops {st₀ : Coder} {g₀ : Ghost} (h₀ : Sim st₀ g₀) (h : Sim st g) (hready : g₀.Ready)
    (skip : Code) (entry : Expr) (body : Stmt) (table : Nat) {m n : Nat} (hl : g.loops = g₀.loops)
    (hitems : g.items = g₀.items ++ skip ++ (entry.listing m ++
      body.listing { loop := g₀.env.loop, table := table, inRoutine := true } n))
    (hskip : 0 < size format skip)
    (hvalid : validateJumps st.code (size format (g₀.items ++ skip)) st.code.length = true) :
    body.listing { loop := g₀.env.loop, table := table, inRoutine := true } n =
      body.listing { table := table, inRoutine := true } n := by
  cases hl₀ : g₀.loops with
  | nil =>
    rw [env, hl₀]
    rfl
  | cons x loops =>
    have hloop : g₀.env.loop = some (x.1, decide (x.2 = .known)) := by
      rw [env, hl₀]
      rfl
    have hwhole : Whole (entry.listing m ++
        body.listing { loop := g₀.env.loop, table := table, inRoutine := true } n) :=
      whole_append.mpr ⟨entry.listing_whole _, body.listing_whole _ _⟩
    refine Stmt.listing_loop (Bool.eq_false_iff.mpr fun hstrays => ?_)
      { table := table, inRoutine := true } g₀.env.loop n
    have hjump := Stmt.strays_jump hstrays
      (show Env.loop { loop := g₀.env.loop, table := table, inRoutine := true } = _ from hloop) n
    exact h₀.no_strays h hitems hskip hwhole (hl.trans hl₀) hl₀ (hready x (by rw [hl₀]; rfl)) hvalid
      (hjump.right _)

theorem Stmt.appends_routine (declared : Bool) (labels : List String) (entry : Expr) (exit : Expr)
    (hbody : body.Appends) : (Stmt.routine declared labels entry body exit).Appends := by
  intro st st' g h hready hst
  obtain ⟨⟨p, st₁⟩, hp, hst⟩ := bind_eq_some_iff.mp hst
  obtain ⟨⟨q, st₂⟩, hq, hst⟩ := bind_eq_some_iff.mp hst
  obtain ⟨st₃, hentry, hst⟩ := bind_eq_some_iff.mp hst
  obtain ⟨st₄, hlabels, hst⟩ := bind_eq_some_iff.mp hst
  obtain ⟨st₅, hb, hst⟩ := bind_eq_some_iff.mp hst
  obtain ⟨st₆, hfinal, hst⟩ := bind_eq_some_iff.mp hst
  dsimp only at hst
  split at hst
  case isFalse => cases hst
  rename_i hvalid
  obtain ⟨st₇, hexit, hst⟩ := bind_eq_some_iff.mp hst
  cases hst
  have hn := h.unowned (a := .point g.next) (Nat.le_refl _)
  have hn' := h.unowned (a := .point (g.next + 1)) (Nat.le_succ _)
  have h₀ := h
  rw [h.inRoutine] at hp hq ⊢
  have h := skipJump_sim _ h (Nat.le_refl _) hp
  have h := skipJump_sim _ h (Nat.le_refl _) hq
  have hstart : st₂.count = _ := h.tracks.length
  have h := h.setInRoutine true
  obtain ⟨_, h⟩ := entry.compile_sim h hentry
  have h := h.initLabelTable (Nat.le_refl _) hlabels
  obtain ⟨_, h⟩ := hbody h hready hb
  have h := h.finalizeLabelTable rfl hfinal
  have hown := h₀.ownLoops h hready
    ((if (declared || !g.inRoutine) = true then [jumpTo .jump (.point g.next)] else []) ++
      if g.inRoutine = true then [jumpTo .jump (.point (g.next + 1))] else []) entry body
    (g.next + 1 + 1 + entry.names) (m := g.next + 1 + 1) (n := g.next + 1 + 1 + entry.names + 1) rfl
    (by
      simp only [add, append_assoc]
      rfl)
    (by cases g.inRoutine <;> cases declared <;> simp [size, Item.size, jumpTo, format])
    (by
      simp only [add] at hstart
      rw [← append_assoc, ← hstart]
      exact hvalid)
  obtain ⟨_, h⟩ := exit.compile_sim h hexit
  obtain ⟨_, h⟩ := skipLand_sim g.inRoutine (p := q) (n := g.next + 1) h (by
    intro hr
    simp [add, hr])
  obtain ⟨_, h⟩ := skipLand_sim (declared || !g.inRoutine) (p := p) (n := g.next) h (by
    intro hr
    simp only [add, hr]
    cases g.inRoutine <;> simp)
  have h := h.setInRoutine g.inRoutine
  refine ⟨_, h.cast ?_ rfl ?_ ?_ ⟨rfl, rfl, rfl⟩⟩
  · have hbody : g.next + 1 + 1 + entry.names + 1 = g.next + 3 + entry.names := by omega
    rw [hbody] at hown
    simp only [Stmt.listing, add, append_assoc, hbody]
    rw [← show body.listing _ _ = body.listing _ _ from hown]
    rfl
  · show _ = g.next + (3 + entry.names + body.names + exit.names)
    simp only [add]
    omega
  · funext c
    clear * - hn hn'
    simp only [add]
    cases g.inRoutine <;> cases declared <;>
      simp only [update_apply, Bool.not_true, Bool.not_false, Bool.or_false, Bool.or_true,
        if_true, if_false, Bool.false_eq_true] <;> split_ifs <;> simp_all

theorem Stmt.appends_code (e : Expr) : (Stmt.code e).Appends :=
  fun _ _ _ h _ hst => e.compile_sim h hst

theorem Stmt.appends_nothing : Stmt.nothing.Appends := by
  intro st st' g h hready hst
  cases hst
  exact ⟨_, h.cast (append_nil _).symm rfl rfl rfl ⟨rfl, rfl, rfl⟩⟩

mutual

theorem Stmt.appends (s : Stmt) : s.Appends := by
  cases s with
  | code e => exact Stmt.appends_code e
  | nothing => exact Stmt.appends_nothing
  | seq s t => exact Stmt.appends_seq s.appends t.appends
  | ifThen c s => exact Stmt.appends_ifThen c s.appends
  | ifElse c s t => exact Stmt.appends_ifElse c s.appends t.appends
  | whileDo c s => exact Stmt.appends_whileDo c s.appends
  | repeatUntil s c => exact Stmt.appends_repeatUntil s.appends c
  | forTo loop s => exact Stmt.appends_forTo loop s.appends
  | caseOf selector branches otherwise =>
    exact Stmt.appends_caseOf selector branches.appends otherwise.appends
  | label name s => exact Stmt.appends_label name s.appends
  | goto name => exact Stmt.appends_goto name
  | breakLoop => exact Stmt.appends_breakLoop
  | continueLoop => exact Stmt.appends_continueLoop
  | routine declared labels entry body exit =>
    exact Stmt.appends_routine declared labels entry exit body.appends

theorem Branches.appends (bs : Branches) : bs.Appends := by
  match bs with
  | .done => exact Branches.appends_done
  | .branch [] body rest => exact Branches.appends_empty rest.appends
  | .branch [label] body rest => exact Branches.appends_single label body.appends rest.appends
  | .branch (label :: label' :: labels) body rest =>
    exact Branches.appends_shared label label' labels body.appends rest.appends

end

/-! ## programs -/

/-- the listing of a program behind the code `base` -/
def programListing (base : List UInt8) (s : Stmt) : Code :=
  [.code base] ++ s.listing {} 1 ++ [op .halt]

theorem Sim.start {base : List UInt8} (hbase : base.length < 2 ^ 31) :
    Sim { code := base }
      { items := [.code base]
        defs := fun _ => []
        next := 0
        loops := []
        tables := []
        locals := fun _ => none
        inRoutine := false } where
  tracks := Tracks.start base
  loops := .nil
  tables := .nil
  locals _ _ h := by cases h
  fresh _ _ := ⟨rfl, fun _ h => by cases h⟩
  loopIds _ h := by cases h
  loopsApart := .nil
  tableIds _ h := by cases h
  tablesApart := .nil
  closed _ h := by cases h
  inRoutine := rfl
  small := hbase

/-- A compiled program is its listing: the operand of every jump leads to the mark of its place, and
a placeholder was patched as often as its place is given. -/
theorem compileProgram_sim {labels : List String} {base : List UInt8} (hbase : base.length < 2 ^ 31)
    (hst : compileProgram labels s { code := base } = some st') :
    ∃ defs, Tracks format Aim.passes st'.code st'.patched (programListing base s) defs ∧
      (∀ site ∈ sites format 0 (programListing base s),
        ∃ m ∈ marks format 0 (programListing base s), m.1 = site.aim) ∧
      st'.code.length < 2 ^ 31 := by
  obtain ⟨st₁, hlabels, hst⟩ := bind_eq_some_iff.mp hst
  obtain ⟨st₂, hs, hst⟩ := bind_eq_some_iff.mp hst
  obtain ⟨st₃, hfinal, hst⟩ := bind_eq_some_iff.mp hst
  have h := (Sim.start hbase).initLabelTable (Nat.le_refl _) hlabels
  obtain ⟨_, h⟩ := s.appends h (fun x hx => by cases hx) hs
  have h := (h.finalizeLabelTable rfl hfinal).write hst
  refine ⟨_, h.tracks, fun site hsite => ?_, h.small⟩
  rcases h.closed site hsite with hmark | hopen | hlocal
  · exact hmark
  · rcases hopen with ⟨x, hx, _⟩ | ⟨t, ht, _⟩
    · cases hx
    · cases ht
  · exact absurd rfl hlocal

end

end Pscal.Statements
