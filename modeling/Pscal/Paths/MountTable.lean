import Pscal.Paths.StripSpec

/-!
# The table of mounts

* `MountTable`  longest target first, no target twice, all of them in normal form;
* `Covers`, `UsesLongest`  the mounts over a path, and the one to use;
* `OpFits`, `AllFit`  adds whose type and options fit the row;
* `AddSets`  what an add that succeeds does;
* `mountTable_run`  the tables of the runs whose adds fit.

A row is filled in place after it is counted, so an add that fails for its type or options leaves it.
-/

namespace Pscal.Paths

open List
open Wire (Bytes)
open LexicalPath

structure MountTable (mounts : List MountEntry) : Prop where
  normal : ∀ m ∈ mounts, NormalEntry m
  sorted : mounts.Pairwise fun a b => b.target.length ≤ a.target.length
  distinct : (mounts.map MountEntry.target).Nodup

theorem normal_ne_nil {t : Bytes} (h : Normal t) : t ≠ [] := by
  rintro rfl
  exact nomatch h.starts

/-! ## the mount to use -/

/-- the target is the path or whole segments at its start; all that is absolute is under the root -/
def Covers (target path : Bytes) : Prop :=
  ∃ rest, path = target ++ rest ∧ (target = [slash] ∨ AtBoundary rest)

/-- the longest of the targets over a path, or none where there is none -/
def UsesLongest (mounts : List MountEntry) (path : Bytes) : Option MountEntry → Prop
  | none => ∀ m ∈ mounts, ¬ Covers m.target path
  | some m => m ∈ mounts ∧ Covers m.target path ∧
      ∀ m' ∈ mounts, Covers m'.target path → m'.target.length ≤ m.target.length

/-- of all mounts the root is over the path, which is not the root itself -/
def RootAlone (mounts : List MountEntry) (path : Bytes) : Prop :=
  (∃ m ∈ mounts, m.target = [slash]) ∧ (∃ c rest, path = slash :: c :: rest ∧ c ≠ slash) ∧
    ∀ m ∈ mounts, Covers m.target path → m.target = [slash]

variable {path : Bytes} {mounts : List MountEntry} {pathMax : Nat}

theorem covers_of_prefixMatch {target : Bytes} (h : pathTruncatePrefixMatch path target = true) :
    Covers target path := by
  obtain ⟨-, rest, heq, hrest⟩ := prefixMatch_iff.mp h
  exact ⟨rest, heq, .inr hrest⟩

theorem prefixMatch_of_covers {target : Bytes} (hne : target ≠ []) (hroot : target ≠ [slash])
    (h : Covers target path) : pathTruncatePrefixMatch path target = true := by
  obtain ⟨rest, heq, h⟩ := h
  exact prefixMatch_iff.mpr ⟨hne, rest, heq, h.resolve_left hroot⟩

theorem mountOver_longest (h : MountTable mounts) {m m' : MountEntry}
    (hover : mountOver mounts path = some m) (hm' : m' ∈ mounts)
    (hmatch : pathTruncatePrefixMatch path m'.target = true) :
    m'.target.length ≤ m.target.length := by
  obtain ⟨-, before, after, rfl, hbefore⟩ := find?_eq_some_iff_append.mp hover
  rcases mem_append.mp hm' with hm' | hm'
  · have hno := hbefore m' hm'
    rw [hmatch] at hno
    exact nomatch hno
  · rcases mem_cons.mp hm' with rfl | hm'
    · exact Nat.le_refl _
    · exact rel_of_pairwise_cons (pairwise_append.mp h.sorted).2.1 hm'

theorem usesLongest_iff (h : MountTable mounts) (path : Bytes) :
    UsesLongest mounts path (mountOver mounts path) ↔ ¬ RootAlone mounts path := by
  have hne : ∀ m ∈ mounts, m.target ≠ [] := fun m hm =>
    normal_ne_nil (h.normal m hm).2
  constructor
  · rintro hlongest ⟨⟨root, hroot, htarget⟩, ⟨c, rest, rfl, hc⟩, halone⟩
    have hcovers : Covers root.target (slash :: c :: rest) :=
      ⟨c :: rest, by rw [htarget]; rfl, .inl htarget⟩
    cases hover : mountOver mounts (slash :: c :: rest) with
    | none =>
      rw [hover] at hlongest
      exact hlongest root hroot hcovers
    | some m =>
      -- what matches is not the root, for the path goes on
      obtain ⟨hm, hmatch⟩ := mountOver_some hover
      have hslash := halone m hm (covers_of_prefixMatch hmatch)
      obtain ⟨-, rest', heq, hrest'⟩ := prefixMatch_iff.mp hmatch
      rw [hslash] at heq
      obtain rfl := (cons.inj heq).2
      exact hc (hrest' c rfl)
  · intro hnot
    cases hover : mountOver mounts path with
    | some m =>
      obtain ⟨hm, hmatch⟩ := mountOver_some hover
      refine ⟨hm, covers_of_prefixMatch hmatch, fun m' hm' hcovers => ?_⟩
      by_cases hroot : m'.target = [slash]
      · rw [hroot]
        exact length_pos_of_ne_nil (hne m hm)
      · exact mountOver_longest h hover hm' (prefixMatch_of_covers (hne m' hm') hroot hcovers)
    | none =>
      intro root hroot hcovers
      have hno : ∀ m ∈ mounts, ¬ pathTruncatePrefixMatch path m.target = true :=
        find?_eq_none.mp hover
      have halone : ∀ m ∈ mounts, Covers m.target path → m.target = [slash] := fun m hm hm' =>
        not_not.mp fun hother => hno m hm (prefixMatch_of_covers (hne m hm) hother hm')
      have htarget := halone root hroot hcovers
      obtain ⟨rest, rfl, -⟩ := hcovers
      refine hnot ⟨⟨root, hroot, htarget⟩, ?_, halone⟩
      have hrest : ¬ AtBoundary rest := fun hrest =>
        hno root hroot (prefixMatch_iff.mpr ⟨hne root hroot, rest, rfl, hrest⟩)
      cases rest with
      | nil => exact absurd atBoundary_nil hrest
      | cons c rest =>
        rw [atBoundary_cons] at hrest
        exact ⟨c, rest, by rw [htarget]; rfl, hrest⟩

/-! ## adds -/

/-- a type and options that the row holds, wherever the add comes to fill it -/
def OpFits (pathMax : Nat) (mounts : List MountEntry) : MountOp → Prop
  | .add sourcePath targetPath type options _ =>
    ∀ source target, isAbsolute sourcePath = true → isAbsolute targetPath = true →
      pathTruncateNormalizeAbsolute pathMax sourcePath pathMax = .ok source →
      pathTruncateNormalizeAbsolute pathMax targetPath pathMax = .ok target →
      (mounts.any (·.target = target) = true ∨ mounts.length < maxMounts) →
      type.length < 32 ∧ options.length < 128
  | .remove _ => True
  | .clear => True

def AllFit (pathMax : Nat) : List MountEntry → List MountOp → Prop
  | _, [] => True
  | mounts, op :: ops => OpFits pathMax mounts op ∧ AllFit pathMax (op.run pathMax mounts) ops

def MountOp.result (pathMax : Nat) (mounts : List MountEntry) : MountOp → Except PathErrno Unit
  | .add sourcePath targetPath type options flags =>
    (pathTruncateMountAdd pathMax mounts sourcePath targetPath type options flags).1
  | .remove targetPath => (pathTruncateMountRemove pathMax mounts targetPath).1
  | .clear => .ok ()

def addedEntry (source target type options : Bytes) (flags : UInt64) : MountEntry :=
  ⟨source, target, if type = [] then ascii "auto" else type,
    if options = [] then ascii "rw" else options, flags⟩

/-- the row of the target is the one that was asked for, and all others are as they were -/
def AddSets (pathMax : Nat) (mounts mounts' : List MountEntry) : MountOp → Prop
  | .add sourcePath targetPath type options flags =>
    ∃ source target, pathTruncateNormalizeAbsolute pathMax sourcePath pathMax = .ok source ∧
      pathTruncateNormalizeAbsolute pathMax targetPath pathMax = .ok target ∧
      ∀ m, m ∈ mounts' ↔
        (m.target = target ∧ m = addedEntry source target type options flags) ∨
          (m.target ≠ target ∧ m ∈ mounts)
  | .remove _ => True
  | .clear => True

theorem setMount_cons (a : MountEntry) (mounts : List MountEntry) (target : Bytes)
    (f : MountEntry → MountEntry) : setMount (a :: mounts) target f =
      if a.target = target then f a :: mounts else a :: setMount mounts target f := by
  by_cases h : a.target = target
  · rw [setMount, findIdx?_cons, if_pos (decide_eq_true h), if_pos h]
    rfl
  · rw [setMount, findIdx?_cons, if_neg (by rw [decide_eq_false h]; exact Bool.false_ne_true),
      if_neg h, setMount]
    cases mounts.findIdx? (fun m => decide (m.target = target)) with
    | none => rfl
    | some i => rfl

section
variable {mounts : List MountEntry} {e : MountEntry}

theorem targets_setMount : (setMount mounts e.target fun _ => e).map MountEntry.target =
      if e.target ∈ mounts.map MountEntry.target then mounts.map MountEntry.target
      else mounts.map MountEntry.target ++ [e.target] := by
  induction mounts with
  | nil => rfl
  | cons a mounts ih =>
    rw [setMount_cons]
    by_cases h : a.target = e.target
    · rw [if_pos h, map_cons, map_cons, if_pos (by rw [h]; exact mem_cons_self), h]
    · rw [if_neg h, map_cons, ih, map_cons]
      have hmem : e.target ∈ a.target :: mounts.map MountEntry.target ↔
          e.target ∈ mounts.map MountEntry.target := by
        rw [mem_cons, or_iff_right fun heq => h heq.symm]
      by_cases hknown : e.target ∈ mounts.map MountEntry.target
      · rw [if_pos hknown, if_pos (hmem.mpr hknown)]
      · rw [if_neg hknown, if_neg fun h => hknown (hmem.mp h)]
        rfl

theorem mem_setMount (hdistinct : (mounts.map MountEntry.target).Nodup) (m : MountEntry) :
    m ∈ setMount mounts e.target (fun _ => e) ↔
      (m.target = e.target ∧ m = e) ∨ (m.target ≠ e.target ∧ m ∈ mounts) := by
  induction mounts with
  | nil =>
    show m ∈ [e] ↔ _
    rw [mem_singleton]
    constructor
    · rintro rfl
      exact .inl ⟨rfl, rfl⟩
    · rintro (⟨-, h⟩ | ⟨-, h⟩)
      · exact h
      · exact absurd h not_mem_nil
  | cons a mounts ih =>
    rw [map_cons, nodup_cons] at hdistinct
    rw [setMount_cons]
    by_cases h : a.target = e.target
    · rw [if_pos h, mem_cons, mem_cons]
      constructor
      · rintro (rfl | hm)
        · exact .inl ⟨rfl, rfl⟩
        · refine .inr ⟨fun heq => hdistinct.1 ?_, .inr hm⟩
          rw [h, ← heq]
          exact List.mem_map_of_mem hm
      · rintro (⟨-, rfl⟩ | ⟨hne, rfl | hm⟩)
        · exact .inl rfl
        · exact absurd h hne
        · exact .inr hm
    · rw [if_neg h, mem_cons, ih hdistinct.2, mem_cons]
      constructor
      · rintro (rfl | hm | ⟨hne, hm⟩)
        · exact .inr ⟨h, .inl rfl⟩
        · exact .inl hm
        · exact .inr ⟨hne, .inr hm⟩
      · rintro (hm | ⟨hne, rfl | hm⟩)
        · exact .inr (.inl hm)
        · exact .inl rfl
        · exact .inr (.inr ⟨hne, hm⟩)

end

/-! ## sorting -/

theorem mountBefore_total (a b : MountEntry) : (mountBefore a b || mountBefore b a) = true := by
  unfold mountBefore
  by_cases h : a.target.length = b.target.length
  · rw [if_pos h, if_pos h.symm, Bool.or_eq_true, decide_eq_true_iff, decide_eq_true_iff]
    exact List.le_total _ _
  · rw [if_neg h, if_neg (Ne.symm h), Bool.or_eq_true, decide_eq_true_iff, decide_eq_true_iff]
    omega

theorem mountBefore_trans (a b c : MountEntry) (hab : mountBefore a b = true)
    (hbc : mountBefore b c = true) : mountBefore a c = true := by
  unfold mountBefore at *
  split at hab
  · next hlen =>
    split at hbc
    · next hlen' =>
      rw [if_pos (hlen.trans hlen')]
      exact decide_eq_true (List.le_trans (of_decide_eq_true hab) (of_decide_eq_true hbc))
    · next hlen' =>
      rw [if_neg fun h => hlen' (hlen.symm.trans h), hlen]
      exact hbc
  · next hlen =>
    have hlt := of_decide_eq_true hab
    split at hbc
    · next hlen' =>
      rw [if_neg fun h => hlen (h.trans hlen'.symm), ← hlen']
      exact hab
    · next hlen' =>
      have hlt' := of_decide_eq_true hbc
      rw [if_neg (by omega)]
      exact decide_eq_true (by omega)

theorem length_le_of_mountBefore {a b : MountEntry} (h : mountBefore a b = true) :
    b.target.length ≤ a.target.length := by
  unfold mountBefore at h
  split at h
  · next hlen => exact Nat.le_of_eq hlen.symm
  · exact Nat.le_of_lt (of_decide_eq_true h)

theorem mountSort_perm (mounts : List MountEntry) : (pathTruncateMountSort mounts).Perm mounts := by
  unfold pathTruncateMountSort
  split
  · exact .refl _
  · exact mergeSort_perm _ _

theorem mountSort_sorted (mounts : List MountEntry) :
    (pathTruncateMountSort mounts).Pairwise fun a b => b.target.length ≤ a.target.length := by
  unfold pathTruncateMountSort
  split
  · next hle =>
    match mounts, hle with
    | [], _ => exact .nil
    | [a], _ => exact pairwise_singleton _ _
  · exact (pairwise_mergeSort mountBefore_trans mountBefore_total mounts).imp
      length_le_of_mountBefore

/-! ## runs -/

/-- the table behind a call whose add fits, what the call did, and that it did nothing if it failed -/
structure StepOk (pathMax : Nat) (mounts : List MountEntry) (op : MountOp) : Prop where
  failed : ∀ e, op.result pathMax mounts = .error e → op.run pathMax mounts = mounts
  added : op.result pathMax mounts = .ok () →
    AddSets pathMax mounts (op.run pathMax mounts) op

theorem targets_nodup (h : MountTable mounts) (e : MountEntry) :
    ((setMount mounts e.target fun _ => e).map MountEntry.target).Nodup := by
  rw [targets_setMount]
  split
  · exact h.distinct
  · next hnew =>
    refine nodup_append.mpr ⟨h.distinct, pairwise_singleton _ _, ?_⟩
    rintro a ha b hb rfl
    exact hnew (mem_singleton.mp hb ▸ ha)

/-- the add fails before it touches the table, or sorts the row of its target into it -/
theorem mountAdd_cases {sourcePath targetPath type options : Bytes} {flags : UInt64}
    (hfits : OpFits pathMax mounts (.add sourcePath targetPath type options flags)) :
    (∃ e, pathTruncateMountAdd pathMax mounts sourcePath targetPath type options flags =
      (.error e, mounts)) ∨
    ∃ source target, pathTruncateNormalizeAbsolute pathMax sourcePath pathMax = .ok source ∧
      pathTruncateNormalizeAbsolute pathMax targetPath pathMax = .ok target ∧
      pathTruncateMountAdd pathMax mounts sourcePath targetPath type options flags =
        (.ok (), pathTruncateMountSort
          (setMount mounts target fun _ => addedEntry source target type options flags)) := by
  unfold pathTruncateMountAdd
  split
  · exact .inl ⟨_, rfl⟩
  · next habs =>
    rw [not_or, not_not, not_not] at habs
    split
    · next source target hsource htarget =>
      dsimp only
      split
      · exact .inl ⟨_, rfl⟩
      · next hroom =>
        have hknown : mounts.any (·.target = target) = true ∨ mounts.length < maxMounts := by
          rw [not_and_or, not_not, Nat.not_le] at hroom
          exact hroom
        obtain ⟨htype, hoptions⟩ := hfits source target habs.1 habs.2 hsource htarget hknown
        have htype' : ¬ (if type = [] then ascii "auto" else type).length ≥ 32 := by
          split
          · decide
          · omega
        have hoptions' : ¬ (if options = [] then ascii "rw" else options).length ≥ 128 := by
          split
          · decide
          · omega
        rw [if_neg htype', if_neg hoptions']
        exact .inr ⟨source, target, hsource, htarget, rfl⟩
    · exact .inl ⟨_, rfl⟩
    · exact .inl ⟨_, rfl⟩

theorem mountRemove_cases (pathMax : Nat) (mounts : List MountEntry) (targetPath : Bytes) :
    (∃ e, pathTruncateMountRemove pathMax mounts targetPath = (.error e, mounts)) ∨
      ∃ i, pathTruncateMountRemove pathMax mounts targetPath = (.ok (), mounts.eraseIdx i) := by
  unfold pathTruncateMountRemove
  split
  · exact .inl ⟨_, rfl⟩
  · split
    · exact .inl ⟨_, rfl⟩
    · split
      · exact .inl ⟨_, rfl⟩
      · exact .inr ⟨_, rfl⟩

theorem mountTable_op (h : MountTable mounts) {op : MountOp} (hfits : OpFits pathMax mounts op) :
    MountTable (op.run pathMax mounts) ∧ StepOk pathMax mounts op := by
  cases op with
  | clear =>
    refine ⟨⟨fun m hm => absurd hm not_mem_nil, .nil, nodup_nil⟩, ⟨nofun, fun _ => ?_⟩⟩
    trivial
  | remove targetPath =>
    rcases mountRemove_cases pathMax mounts targetPath with ⟨e, heq⟩ | ⟨i, heq⟩
    · have hrun : (MountOp.remove targetPath).run pathMax mounts = mounts := congrArg Prod.snd heq
      rw [hrun]
      exact ⟨h, fun _ _ => hrun, fun _ => trivial⟩
    · have hrun : (MountOp.remove targetPath).run pathMax mounts = mounts.eraseIdx i :=
        congrArg Prod.snd heq
      have hres : (MountOp.remove targetPath).result pathMax mounts = .ok () :=
        congrArg Prod.fst heq
      rw [hrun]
      have hsub := eraseIdx_sublist mounts i
      refine ⟨⟨fun m hm => h.normal m (hsub.subset hm), h.sorted.sublist hsub,
        h.distinct.sublist (hsub.map _)⟩, fun e he => ?_, fun _ => trivial⟩
      rw [hres] at he
      exact nomatch he
  | add sourcePath targetPath type options flags =>
    rcases mountAdd_cases hfits with ⟨e, heq⟩ | ⟨source, target, hsource, htarget, heq⟩
    · have hrun : (MountOp.add sourcePath targetPath type options flags).run pathMax mounts =
          mounts := congrArg Prod.snd heq
      have hres : (MountOp.add sourcePath targetPath type options flags).result pathMax mounts =
          .error e := congrArg Prod.fst heq
      rw [hrun]
      refine ⟨h, fun _ _ => hrun, fun hok => ?_⟩
      rw [hres] at hok
      exact nomatch hok
    · have hrun : (MountOp.add sourcePath targetPath type options flags).run pathMax mounts = _ :=
        congrArg Prod.snd heq
      have hres : (MountOp.add sourcePath targetPath type options flags).result pathMax mounts =
          .ok () := congrArg Prod.fst heq
      have hnormal := @mountAdd_normal pathMax _ h.normal sourcePath targetPath type options flags
      have hperm := mountSort_perm
        (setMount mounts target fun _ => addedEntry source target type options flags)
      refine ⟨⟨hnormal, ?_, ?_⟩, fun e he => ?_,
        fun _ => ⟨source, target, hsource, htarget, fun m => ?_⟩⟩
      · rw [hrun]
        exact mountSort_sorted _
      · rw [hrun]
        exact (hperm.map MountEntry.target).nodup_iff.mpr
          (targets_nodup h (addedEntry source target type options flags))
      · rw [hres] at he
        exact nomatch he
      · rw [hrun, hperm.mem_iff]
        exact mem_setMount (e := addedEntry source target type options flags) h.distinct m

theorem mountTable_ops (h : MountTable mounts) {ops : List MountOp}
    (hfit : AllFit pathMax mounts ops) : MountTable (ops.foldl (MountOp.run pathMax) mounts) := by
  induction ops generalizing mounts with
  | nil => exact h
  | cons op ops ih => exact ih (mountTable_op h hfit.1).1 hfit.2

/-- In a run whose adds fit, the table is sorted, without a target twice; the next call, if its add
fits, leaves the table as it is if it fails, and sets its own row if it is an add; and a path is
resolved by the longest target over it, just where that is not the root alone. -/
theorem mountTable_run (pathMax : Nat) {ops : List MountOp} (hfit : AllFit pathMax [] ops) :
    MountTable (mountRun pathMax ops) ∧
      (∀ op, OpFits pathMax (mountRun pathMax ops) op →
        StepOk pathMax (mountRun pathMax ops) op) ∧
      ∀ path, UsesLongest (mountRun pathMax ops) path (mountOver (mountRun pathMax ops) path) ↔
        ¬ RootAlone (mountRun pathMax ops) path := by
  have hempty : MountTable [] :=
    ⟨fun m hm => absurd hm not_mem_nil, .nil, nodup_nil⟩
  have htable := mountTable_ops hempty hfit
  exact ⟨htable, fun op hop => (mountTable_op htable hop).2, usesLongest_iff htable⟩

/-- `/host` at `/a` and at the root -/
theorem mountTable_run_two :
    MountTable (mountRun 4096 [.add (ascii "/host") (ascii "/a") [] [] 0,
        .add (ascii "/host") (ascii "/") [] [] 0]) ∧
      (∀ op, OpFits 4096 (mountRun 4096 [.add (ascii "/host") (ascii "/a") [] [] 0,
          .add (ascii "/host") (ascii "/") [] [] 0]) op →
        StepOk 4096 (mountRun 4096 [.add (ascii "/host") (ascii "/a") [] [] 0,
          .add (ascii "/host") (ascii "/") [] [] 0]) op) ∧
      ∀ path, UsesLongest (mountRun 4096 [.add (ascii "/host") (ascii "/a") [] [] 0,
          .add (ascii "/host") (ascii "/") [] [] 0]) path
          (mountOver (mountRun 4096 [.add (ascii "/host") (ascii "/a") [] [] 0,
            .add (ascii "/host") (ascii "/") [] [] 0]) path) ↔
        ¬ RootAlone (mountRun 4096 [.add (ascii "/host") (ascii "/a") [] [] 0,
          .add (ascii "/host") (ascii "/") [] [] 0]) path :=
  mountTable_run 4096
    ⟨fun _ _ _ _ _ _ _ => by decide, fun _ _ _ _ _ _ _ => by decide, trivial⟩

/-- a type of 32 bytes fails and leaves a row, and a mount at the root is not used for `/a` -/
theorem mountTable_fails :
    (MountOp.add (ascii "/s") (ascii "/t") (List.replicate 32 120) [] 0).result 4096 [] =
        .error .ENAMETOOLONG ∧
      (MountOp.add (ascii "/s") (ascii "/t") (List.replicate 32 120) [] 0).run 4096 [] ≠ [] ∧
      ¬ UsesLongest (mountRun 4096 [.add (ascii "/s") (ascii "/") [] [] 0]) (ascii "/a")
        (mountOver (mountRun 4096 [.add (ascii "/s") (ascii "/") [] [] 0]) (ascii "/a")) := by
  have hmounts : mountRun 4096 [.add (ascii "/s") (ascii "/") [] [] 0] =
      [⟨ascii "/s", ascii "/", ascii "auto", ascii "rw", 0⟩] := by decide +kernel
  have hover : mountOver [⟨ascii "/s", ascii "/", ascii "auto", ascii "rw", 0⟩] (ascii "/a") =
      none := by decide +kernel
  refine ⟨by decide +kernel, by decide +kernel, ?_⟩
  rw [hmounts, hover]
  intro h
  exact h _ List.mem_cons_self ⟨ascii "a", rfl, .inl rfl⟩

end Pscal.Paths
