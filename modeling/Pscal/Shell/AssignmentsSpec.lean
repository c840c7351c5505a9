import Pscal.Lib.Undo
import Pscal.Shell.Assignments
import Pscal.Shell.ArraysSpec

/-!
# Temporary assignments are undone

* `VariableCell`, `VariableView`  what the shell keeps under a name, and what is seen of it;
* `Acts`  a setter changes one name;
* `Assigned.undoes`  a backup brings back what is seen of its name;
* `Restorable`  when one assignment can be taken back;
* `prefixAssignments_undone`  all of them can, if their names are distinct.
-/

namespace Pscal.Shell

open List Option Function
open Wire (Bytes)
open Paths (ascii)
open Undo (Touches Undoes Changes)

/-! ## what is kept under a name -/

structure VariableCell where
  text : Option Bytes
  unexported : Bool
  pending : Bool
  array : Option ShellArrayVariable
  scope : Option ScopedVariable
  innermost : Bool
  ifsUnset : Bool
  random : Option Nat
  seconds : Int

/-- the variable of a name: its value, its array, whether it is exported; and the global behind it -/
@[ext]
structure VariableView where
  value : Option Bytes
  array : Option ShellArrayVariable
  exported : Bool
  globalValue : Option Bytes
  globalExported : Bool
  ifsUnset : Bool
  random : Option Nat
  seconds : Int
deriving DecidableEq

namespace VariableCell

def globalExported (c : VariableCell) : Bool := if c.text.isSome then !c.unexported else c.pending

def view (c : VariableCell) : VariableView where
  value :=
    match c.scope with
    | some var => if var.noValue then none else some (var.value.getD [])
    | none => c.text
  array := c.array
  exported := c.scope.elim c.globalExported (·.exported)
  globalValue := c.text
  globalExported := c.globalExported
  ifsUnset := c.ifsUnset
  random := c.random
  seconds := c.seconds

end VariableCell

namespace ShellVariables

def cell (s : ShellVariables) (name : Bytes) : VariableCell where
  text := s.getenv name
  unexported := s.unexported name
  pending := s.pending name
  array := s.arrays name
  scope := s.shellLocalScopeFind name
  innermost := s.inCurrentFrame name
  ifsUnset := name = ascii "IFS" && s.ifsUnset
  random := if name = ascii "RANDOM" then s.randomSeed else none
  seconds := if name = ascii "SECONDS" then s.secondsBase else 0

def view (s : ShellVariables) (name : Bytes) : VariableView := (s.cell name).view

/-! ## setters change one name -/

structure Acts (n : Bytes) (s s' : ShellVariables) : Prop where
  touches : Touches cell n s s'
  privileged : s'.privileged = s.privileged
  readonly : s'.readonly = s.readonly
  localizing : s'.localizing = s.localizing
  frames : s'.frames = [] ↔ s.frames = []

/-- and leaves what is not kept in the tables and frames -/
structure Sets (n : Bytes) (s s' : ShellVariables) : Prop extends Acts n s s' where
  ifsUnset : s'.ifsUnset = s.ifsUnset
  randomSeed : s'.randomSeed = s.randomSeed
  secondsBase : s'.secondsBase = s.secondsBase

section
variable {n : Bytes} {s s' s'' : ShellVariables}

theorem Acts.trans (h : Acts n s s') (h' : Acts n s' s'') : Acts n s s'' where
  touches j hj := by rw [h'.touches j hj, h.touches j hj]
  privileged := h'.privileged.trans h.privileged
  readonly := h'.readonly.trans h.readonly
  localizing := h'.localizing.trans h.localizing
  frames := h'.frames.trans h.frames

theorem Sets.refl (n : Bytes) (s : ShellVariables) : Sets n s s :=
  ⟨⟨fun _ _ => rfl, rfl, rfl, rfl, Iff.rfl⟩, rfl, rfl, rfl⟩

theorem Sets.trans (h : Sets n s s') (h' : Sets n s' s'') : Sets n s s'' where
  toActs := h.toActs.trans h'.toActs
  ifsUnset := h'.ifsUnset.trans h.ifsUnset
  randomSeed := h'.randomSeed.trans h.randomSeed
  secondsBase := h'.secondsBase.trans h.secondsBase

theorem Sets.ite {p : Prop} [Decidable p] (h : Sets n s s') (h' : Sets n s s'') :
    Sets n s (if p then s' else s'') := by
  split
  · exact h
  · exact h'

theorem Sets.tables (henv : ∀ j, j ≠ n → s'.environment j = s.environment j)
    (hunexported : ∀ j, j ≠ n → s'.unexported j = s.unexported j)
    (hpending : ∀ j, j ≠ n → s'.pending j = s.pending j)
    (harrays : ∀ j, j ≠ n → s'.arrays j = s.arrays j)
    (hsame : { s' with environment := s.environment, unexported := s.unexported,
                       pending := s.pending, arrays := s.arrays } = s) : Sets n s s' := by
  obtain ⟨env, unexp, pend, arr, frames, ro, priv, allexp, loc, ifs, seed, base⟩ := s
  obtain ⟨env', unexp', pend', arr', frames', ro', priv', allexp', loc', ifs', seed', base'⟩ := s'
  cases hsame
  refine ⟨⟨fun j hj => ?_, rfl, rfl, rfl, Iff.rfl⟩, rfl, rfl, rfl⟩
  have h1 : env' j = env j := henv j hj
  have h2 : unexp' j = unexp j := hunexported j hj
  have h3 : pend' j = pend j := hpending j hj
  have h4 : arr' j = arr j := harrays j hj
  simp only [cell, getenv, h1, h2, h3, h4]
  rfl

theorem sets_setenv (n text : Bytes) (s : ShellVariables) : Sets n s (s.setenv n text) :=
  .tables (fun _ hj => update_of_ne hj _ _) (fun _ _ => rfl) (fun _ _ => rfl)
    (fun _ _ => rfl) rfl

theorem sets_unsetenv (n : Bytes) (s : ShellVariables) : Sets n s (s.unsetenv n) :=
  .tables (fun _ hj => update_of_ne hj _ _) (fun _ _ => rfl) (fun _ _ => rfl)
    (fun _ _ => rfl) rfl

theorem sets_noteNewVariable (n : Bytes) (s : ShellVariables) :
    Sets n s (s.shellExportNoteNewVariable n) :=
  .ite
    (.tables (fun _ _ => rfl) (fun _ _ => rfl) (fun _ hj => update_of_ne hj _ _)
      (fun _ _ => rfl) rfl)
    (.tables (fun _ _ => rfl) (fun _ hj => update_of_ne hj _ _) (fun _ _ => rfl)
      (fun _ _ => rfl) rfl)

theorem sets_markExported (n : Bytes) (s : ShellVariables) :
    Sets n s (s.shellExportMarkExported n) :=
  .ite
    (.tables (fun _ _ => rfl) (fun _ hj => update_of_ne hj _ _) (fun _ _ => rfl)
      (fun _ _ => rfl) rfl)
    (.ite
      (.tables (fun _ _ => rfl) (fun _ _ => rfl) (fun _ hj => update_of_ne hj _ _)
        (fun _ _ => rfl) rfl)
      (.refl n s))

theorem sets_markUnexported (n : Bytes) (s : ShellVariables) :
    Sets n s (s.shellExportMarkUnexported n) := by
  refine .tables (fun _ _ => rfl) (fun j hj => ?_) (fun _ hj => update_of_ne hj _ _)
    (fun _ _ => rfl) rfl
  rw [shellExportMarkUnexported]
  dsimp only
  split
  · exact update_of_ne hj _ _
  · rfl

theorem sets_forget (n : Bytes) (s : ShellVariables) : Sets n s (s.shellExportForget n) :=
  .tables (fun _ _ => rfl) (fun _ hj => update_of_ne hj _ _)
    (fun _ hj => update_of_ne hj _ _) (fun _ _ => rfl) rfl

theorem sets_arrays (n : Bytes) (s : ShellVariables) (entry : Option ShellArrayVariable) :
    Sets n s { s with arrays := update s.arrays n entry } :=
  .tables (fun _ _ => rfl) (fun _ _ => rfl) (fun _ _ => rfl)
    (fun _ hj => update_of_ne hj _ _) rfl

theorem sets_removeArray (n : Bytes) (s : ShellVariables) : Sets n s (s.removeArray n) :=
  sets_arrays n s none

/-! ## frames -/

theorem find_updateFrames (f : ScopedVariable → ScopedVariable) (frames : List ScopeFrame)
    (j : Bytes) : (updateFrames f n frames).findSome? (fun frame => frame j) =
      if j = n then (frames.findSome? fun frame => frame n).map f
      else frames.findSome? fun frame => frame j := by
  induction frames with
  | nil => simp [updateFrames]
  | cons frame frames ih =>
    rw [updateFrames]
    cases hvar : frame n with
    | some var =>
      by_cases hj : j = n
      · subst hj
        simp [hvar]
      · simp only [findSome?_cons, update_of_ne hj, if_neg hj]
    | none =>
      by_cases hj : j = n
      · subst hj
        simp [hvar, ih]
      · simp only [findSome?_cons, ih, if_neg hj]

theorem inCurrentFrame_updateFrames (f : ScopedVariable → ScopedVariable) (frames : List ScopeFrame)
    (j : Bytes) : ((updateFrames f n frames).head?.any fun frame => (frame j).isSome) =
      frames.head?.any fun frame => (frame j).isSome := by
  cases frames with
  | nil => rfl
  | cons frame frames =>
    rw [updateFrames]
    cases hvar : frame n with
    | some var =>
      by_cases hj : j = n
      · subst hj
        simp [hvar]
      · simp [hj]
    | none => rfl

theorem find_updateLocal (s : ShellVariables) (f : ScopedVariable → ScopedVariable) :
    (s.updateLocal n f).shellLocalScopeFind n = (s.shellLocalScopeFind n).map f := by
  rw [shellLocalScopeFind, updateLocal, find_updateFrames, if_pos rfl]
  rfl

theorem inCurrentFrame_updateLocal (s : ShellVariables) (f : ScopedVariable → ScopedVariable)
    (j : Bytes) : (s.updateLocal n f).inCurrentFrame j = s.inCurrentFrame j :=
  inCurrentFrame_updateFrames f s.frames j

theorem Sets.onFrames {frames : List ScopeFrame}
    (hfind : ∀ j, j ≠ n → frames.findSome? (fun frame => frame j) = s.shellLocalScopeFind j)
    (hcurrent : ∀ j, j ≠ n →
      (frames.head?.any fun frame => (frame j).isSome) = s.inCurrentFrame j)
    (hnil : frames = [] ↔ s.frames = []) : Sets n s { s with frames } := by
  refine ⟨⟨fun j hj => ?_, rfl, rfl, rfl, hnil⟩, rfl, rfl, rfl⟩
  rw [cell, cell]
  have h1 : ({ s with frames } : ShellVariables).shellLocalScopeFind j = s.shellLocalScopeFind j :=
    hfind j hj
  have h2 : ({ s with frames } : ShellVariables).inCurrentFrame j = s.inCurrentFrame j :=
    hcurrent j hj
  rw [h1, h2]
  rfl

theorem sets_updateLocal (n : Bytes) (s : ShellVariables) (f : ScopedVariable → ScopedVariable) :
    Sets n s (s.updateLocal n f) := by
  refine .onFrames (fun j hj => ?_) (fun j _ => inCurrentFrame_updateFrames f s.frames j) ?_
  · rw [find_updateFrames, if_neg hj]
    rfl
  · cases hs : s.frames with
    | nil => rfl
    | cons frame frames =>
      rw [updateFrames]
      split <;> simp

theorem sets_setExported (n : Bytes) (s : ShellVariables) (exported : Bool) :
    Sets n s (s.shellVariableSetExported n exported) :=
  .ite (sets_updateLocal n s _) (.ite (sets_markExported n s) (sets_markUnexported n s))

/-! ## arrays from their texts -/

def Quiet (w : ShellWorld) (use : ArithmeticUse) : Prop := ∀ s, w.evaluated s use = s

section
variable {w : ShellWorld} {text : Option Bytes}

theorem assignFromText_eq (hq : ∀ t ∈ text, Quiet w (.keys n t)) (s : ShellVariables) :
    assignFromText w s n text =
      { s with
        arrays := update s.arrays n
          (shellArrayRegistryAssignFromText (w.valuation s) w.scanner (s.arrays n) text) } := by
  cases text with
  | none => rfl
  | some t => rw [assignFromText, elim_some, hq t rfl s]

def Read (w : ShellWorld) (entry : Option ShellArrayVariable) (text : Option Bytes)
    (isArrayLiteral : Bool) (entry' : Option ShellArrayVariable) : Prop :=
  if isArrayLiteral then
    ∃ v, entry' = shellArrayRegistryAssignFromText v w.scanner entry text
  else entry' = none

variable {lit forCommand : Bool} {c : VariableCell} {var : ScopedVariable} {t : AssignmentTarget}

theorem readArray_spec (hq : lit = true → ∀ t ∈ text, Quiet w (.keys n t)) (s : ShellVariables) :
    Sets n s (readArray w s n text lit) ∧
      Read w (s.arrays n) text lit ((readArray w s n text lit).arrays n) ∧
      (readArray w s n text lit).cell n =
        { s.cell n with array := (readArray w s n text lit).arrays n } := by
  cases lit with
  | false => exact ⟨sets_removeArray n s, update_self _ _ _, rfl⟩
  | true =>
    have heq : readArray w s n text true = assignFromText w s n text := rfl
    rw [heq, assignFromText_eq (hq rfl)]
    exact ⟨sets_arrays n s _, ⟨_, update_self _ _ _⟩, rfl⟩

theorem someQuiet {text : Bytes} (hq : lit = true → Quiet w (.keys n text)) :
    lit = true → ∀ t ∈ some text, Quiet w (.keys n t) := by
  rintro hlit t ⟨⟩
  exact hq hlit

/-! ## cells -/

theorem cell_setenv (s : ShellVariables) (text : Bytes) :
    (s.setenv n text).cell n = { s.cell n with text := if s.privileged then none else some text } := by
  simp only [cell, getenv, setenv, update_self]
  rfl

theorem cell_unsetenv (s : ShellVariables) :
    (s.unsetenv n).cell n = { s.cell n with text := none } := by
  simp only [cell, getenv, unsetenv, update_self, ite_self]
  rfl

theorem cell_arrays (s : ShellVariables) (entry : Option ShellArrayVariable) :
    ({ s with arrays := update s.arrays n entry } : ShellVariables).cell n =
      { s.cell n with array := entry } := by
  simp only [cell, update_self]
  rfl

theorem cell_removeArray (s : ShellVariables) :
    (s.removeArray n).cell n = { s.cell n with array := none } := cell_arrays s none

theorem cell_forget (s : ShellVariables) :
    (s.shellExportForget n).cell n = { s.cell n with unexported := false, pending := false } := by
  simp only [cell, shellExportForget, update_self]
  rfl

theorem cell_updateLocal (s : ShellVariables) (f : ScopedVariable → ScopedVariable) :
    (s.updateLocal n f).cell n = { s.cell n with scope := (s.cell n).scope.map f } := by
  rw [cell, find_updateLocal, inCurrentFrame_updateLocal]
  rfl

def FlagsOnly (c c' : VariableCell) : Prop := ∃ a b, c' = { c with unexported := a, pending := b }

theorem FlagsOnly.refl (c : VariableCell) : FlagsOnly c c := ⟨c.unexported, c.pending, rfl⟩

theorem FlagsOnly.withArray {c' : VariableCell} (h : FlagsOnly c c')
    (array : Option ShellArrayVariable) : FlagsOnly { c with array } { c' with array } := by
  obtain ⟨a, b, rfl⟩ := h
  exact ⟨a, b, rfl⟩

theorem FlagsOnly.trans {c' c'' : VariableCell} (h : FlagsOnly c c') (h' : FlagsOnly c' c'') :
    FlagsOnly c c'' := by
  obtain ⟨a, b, rfl⟩ := h
  obtain ⟨a', b', rfl⟩ := h'
  exact ⟨a', b', rfl⟩

theorem flags_noteNewVariable (s : ShellVariables) :
    FlagsOnly (s.cell n) ((s.shellExportNoteNewVariable n).cell n) := by
  rw [shellExportNoteNewVariable]
  split
  · exact ⟨s.unexported n, false, by simp only [cell, update_self]; rfl⟩
  · exact ⟨true, s.pending n, by simp only [cell, update_self]; rfl⟩

theorem flags_markExported (s : ShellVariables) :
    FlagsOnly (s.cell n) ((s.shellExportMarkExported n).cell n) := by
  rw [shellExportMarkExported]
  split
  · exact ⟨false, s.pending n, by simp only [cell, update_self]; rfl⟩
  · split
    · exact ⟨s.unexported n, true, by simp only [cell, update_self]; rfl⟩
    · exact .refl _

theorem globalExported_markExported (s : ShellVariables)
    (h : (s.getenv n).isSome ∨ s.unexported n = false) :
    ((s.shellExportMarkExported n).cell n).globalExported = true := by
  have hget (pend unexp : Bytes → Bool) :
      ({ s with unexported := unexp, pending := pend } : ShellVariables).getenv n = s.getenv n := rfl
  rw [shellExportMarkExported]
  by_cases hunexp : s.unexported n
  · have hset : (s.getenv n).isSome := h.resolve_right (by simp [hunexp])
    rw [if_pos hunexp, VariableCell.globalExported]
    simp [cell, hget, hset]
  · rw [if_neg hunexp]
    cases hget' : s.getenv n with
    | none =>
      rw [if_pos (by simp), VariableCell.globalExported]
      simp [cell, hget, hget']
    | some text =>
      rw [if_neg (by simp), VariableCell.globalExported]
      simp [cell, hget', hunexp]

theorem flags_markUnexported (s : ShellVariables) :
    FlagsOnly (s.cell n) ((s.shellExportMarkUnexported n).cell n) := by
  rw [shellExportMarkUnexported]
  exact ⟨_, false, by simp only [cell, update_self]; rfl⟩

theorem globalExported_markUnexported (s : ShellVariables) (h : (s.getenv n).isSome) :
    ((s.shellExportMarkUnexported n).cell n).globalExported = false := by
  have hget : (s.shellExportMarkUnexported n).getenv n = s.getenv n := rfl
  have hunexp : (s.shellExportMarkUnexported n).unexported n = true := by
    rw [shellExportMarkUnexported, if_pos h]
    exact update_self _ _ _
  rw [VariableCell.globalExported, cell, hget, hunexp, if_pos h]
  rfl

theorem setExported_global (s : ShellVariables) (exported : Bool)
    (hscope : s.shellLocalScopeFind n = none) (hset : (s.getenv n).isSome) :
    FlagsOnly (s.cell n) ((s.shellVariableSetExported n exported).cell n) ∧
      ((s.shellVariableSetExported n exported).cell n).globalExported = exported := by
  rw [shellVariableSetExported, hscope, if_neg (by simp)]
  cases exported with
  | true => exact ⟨flags_markExported s, globalExported_markExported s (.inl hset)⟩
  | false => exact ⟨flags_markUnexported s, globalExported_markUnexported s hset⟩

theorem setExported_flags (s : ShellVariables) (exported : Bool)
    (hscope : s.shellLocalScopeFind n = none) :
    FlagsOnly (s.cell n) ((s.shellVariableSetExported n exported).cell n) := by
  rw [shellVariableSetExported, hscope, if_neg (by simp)]
  split
  · exact flags_markExported s
  · exact flags_markUnexported s

/-! ## the setters -/

theorem setGlobalText_spec (s : ShellVariables) (text : Bytes) : Sets n s (s.setGlobalText n text) ∧
      FlagsOnly { s.cell n with text := if s.privileged then none else some text }
        ((s.setGlobalText n text).cell n) := by
  rw [setGlobalText]
  generalize hs₁ : (if s.getenv n = some text then s else s.setenv n text) = s₁
  have h₁ : Sets n s s₁ ∧
      s₁.cell n = { s.cell n with text := if s.privileged then none else some text } := by
    rw [← hs₁]
    by_cases htext : s.getenv n = some text
    · have hpriv : s.privileged = false := by
        by_contra hp
        rw [getenv, if_pos ((Bool.not_eq_false _).mp hp)] at htext
        cases htext
      rw [if_pos htext]
      refine ⟨.refl n s, ?_⟩
      rw [hpriv, if_neg (by simp), ← htext]
      rfl
    · rw [if_neg htext]
      exact ⟨sets_setenv n text s, cell_setenv s text⟩
  generalize hs₂ : (if (s.getenv n).isNone then s₁.shellExportNoteNewVariable n else s₁) = s₂
  have h₂ : Sets n s₁ s₂ ∧ FlagsOnly (s₁.cell n) (s₂.cell n) := by
    rw [← hs₂]
    split
    · exact ⟨sets_noteNewVariable n s₁, flags_noteNewVariable s₁⟩
    · exact ⟨.refl n s₁, .refl _⟩
  have h₃ : Sets n s₂ (if s₂.allexport then s₂.shellExportMarkExported n else s₂) ∧
      FlagsOnly (s₂.cell n)
        ((if s₂.allexport then s₂.shellExportMarkExported n else s₂).cell n) := by
    split
    · exact ⟨sets_markExported n s₂, flags_markExported s₂⟩
    · exact ⟨.refl n s₂, .refl _⟩
  exact ⟨(h₁.1.trans h₂.1).trans h₃.1, h₁.2 ▸ h₂.2.trans h₃.2⟩

theorem setGlobal_spec {text : Bytes} (hq : lit = true → Quiet w (.keys n text))
    (s : ShellVariables) : Sets n s (setGlobal w s n text lit) ∧
      ∃ array, Read w (s.arrays n) (if s.privileged then none else some text) lit array ∧
        FlagsOnly { s.cell n with text := if s.privileged then none else some text, array }
          ((setGlobal w s n text lit).cell n) := by
  obtain ⟨h₁, hflags₁⟩ := setGlobalText_spec (n := n) s text
  cases lit with
  | false =>
    have hshow : setGlobal w s n text false = (s.setGlobalText n text).removeArray n := rfl
    rw [hshow]
    refine ⟨h₁.trans (sets_removeArray n _), none, rfl, ?_⟩
    rw [cell_removeArray]
    exact hflags₁.withArray none
  | true =>
    have hshow : setGlobal w s n text true =
        let s₂ := (s.setGlobalText n text).shellExportMarkUnexported n
        assignFromText w s₂ n (s₂.getenv n) := rfl
    rw [hshow]
    dsimp only
    generalize hs₂ : (s.setGlobalText n text).shellExportMarkUnexported n = s₂
    have hset : Sets n s s₂ := hs₂ ▸ h₁.trans (sets_markUnexported n _)
    have hflags : FlagsOnly { s.cell n with text := if s.privileged then none else some text }
        (s₂.cell n) := hs₂ ▸ hflags₁.trans (flags_markUnexported _)
    have hget : s₂.getenv n = if s.privileged then none else some text := by
      obtain ⟨a, b, hcell⟩ := hflags
      exact congrArg VariableCell.text hcell
    have harray : s₂.arrays n = s.arrays n := by
      obtain ⟨a, b, hcell⟩ := hflags
      exact congrArg VariableCell.array hcell
    have hquiet : ∀ t ∈ s₂.getenv n, Quiet w (.keys n t) := by
      intro t ht
      rw [hget] at ht
      split at ht
      · cases ht
      · cases ht
        exact hq rfl
    rw [assignFromText_eq hquiet, harray, hget]
    refine ⟨hset.trans (sets_arrays n s₂ _), _, ⟨w.valuation s₂, rfl⟩, ?_⟩
    rw [cell_arrays]
    exact hflags.withArray _

def assignedLocal (s : ShellVariables) (var : ScopedVariable) (text : Bytes) (lit : Bool) :
    ScopedVariable :=
  { var with
    value := some text, isArrayLiteral := lit, noValue := false
    exported := var.exported || s.allexport }

theorem localizes_of_find {s : ShellVariables} (hscope : s.shellLocalScopeFind n = some var) :
    s.localizes n = false := by
  rw [localizes, hscope]
  rfl

theorem setTracked_local {text : Bytes} (hq : lit = true → Quiet w (.keys n text))
    {s : ShellVariables} (hro : s.readonly n = false) (hscope : s.shellLocalScopeFind n = some var)
    (hlast : n ≠ ascii "EXSH_LAST_STATUS") :
    (shellSetTrackedVariable w s n text lit).1 = true ∧
      Sets n s (shellSetTrackedVariable w s n text lit).2 ∧
      ∃ array, Read w (s.arrays n) (some text) lit array ∧
        (shellSetTrackedVariable w s n text lit).2.cell n =
          { s.cell n with array, scope := some (assignedLocal s var text lit) } := by
  have hloc := localizes_of_find hscope
  rw [shellSetTrackedVariable, if_neg (by simp [hro])]
  simp only [hloc, hscope, if_neg hlast, isSome_some, if_true, Bool.false_eq_true, if_false,
    true_and]
  have hlocal := sets_updateLocal n s fun var => assignedLocal s var text lit
  have hcell := cell_updateLocal (n := n) s fun var => assignedLocal s var text lit
  have hshow : s.shellLocalScopeAssignExisting n text lit =
      s.updateLocal n fun var => assignedLocal s var text lit := rfl
  rw [hshow]
  obtain ⟨hread, harray, hcell'⟩ := readArray_spec (someQuiet hq)
    (s.updateLocal n fun var => assignedLocal s var text lit)
  refine ⟨hlocal.trans hread, _, harray, ?_⟩
  rw [hcell', hcell]
  have hs : (s.cell n).scope = some var := hscope
  rw [hs]
  rfl

theorem setOnCurrentFrame_spec {text : Bytes} (hq : lit = true → Quiet w (.keys n text))
    {s : ShellVariables} (hframes : s.frames ≠ []) :
    Sets n s (shellLocalScopeSetOnCurrentFrame w s n text lit) ∧
      ∃ array var, Read w (s.arrays n) (some text) lit array ∧
        (shellLocalScopeSetOnCurrentFrame w s n text lit).cell n =
          { s.cell n with array, scope := some var, innermost := true } := by
  cases hs : s.frames with
  | nil => exact absurd hs hframes
  | cons frame frames =>
    obtain ⟨var, hshow⟩ : ∃ var, shellLocalScopeSetOnCurrentFrame w s n text lit =
        readArray w { s with frames := update frame n (some var) :: frames } n
          (some text) lit := by
      rw [shellLocalScopeSetOnCurrentFrame, hs]
      exact ⟨_, rfl⟩
    rw [hshow]
    clear hshow
    have hframe : Sets n s { s with frames := update frame n (some var) :: frames } := by
      refine .onFrames (fun j hj => ?_) (fun j hj => ?_) (by simp [hs])
      · rw [shellLocalScopeFind, hs, findSome?_cons, findSome?_cons, update_of_ne hj]
      · rw [inCurrentFrame, hs, head?_cons, head?_cons, any_some, any_some, update_of_ne hj]
    have hcell : ({ s with frames := update frame n (some var) :: frames } :
        ShellVariables).cell n = { s.cell n with scope := some var, innermost := true } := by
      simp [cell, shellLocalScopeFind, inCurrentFrame]
      rfl
    generalize ({ s with frames := update frame n (some var) :: frames } :
      ShellVariables) = s₁ at hframe hcell ⊢
    have hbefore : s₁.arrays n = s.arrays n := congrArg VariableCell.array hcell
    obtain ⟨hread, harray, hcell'⟩ := readArray_spec (someQuiet hq) s₁
    rw [hbefore] at harray
    refine ⟨hframe.trans hread, (readArray w s₁ n (some text) lit).arrays n, var, harray, ?_⟩
    rw [hcell', hcell]

theorem setTracked_localizing {text : Bytes} (hq : lit = true → Quiet w (.keys n text))
    {s : ShellVariables} (hro : s.readonly n = false) (hloc : s.localizes n = true)
    (hlast : n ≠ ascii "EXSH_LAST_STATUS") :
    (shellSetTrackedVariable w s n text lit).1 = true ∧
      Sets n s (shellSetTrackedVariable w s n text lit).2 ∧
      ∃ before array var, Read w (s.arrays n) (some text) lit before ∧
        Read w before (some text) lit array ∧ var.isArrayLiteral = lit ∧
        (shellSetTrackedVariable w s n text lit).2.cell n =
          { s.cell n with array, scope := some var, innermost := true } := by
  have hparts := hloc
  rw [localizes, Bool.and_eq_true, Bool.and_eq_true, isNone_iff_eq_none,
    Bool.not_eq_true', isEmpty_eq_false_iff] at hparts
  obtain ⟨-, hframes⟩ := hparts
  obtain ⟨hset, array₁, var₁, hread₁, hcell₁⟩ := setOnCurrentFrame_spec hq hframes
  generalize hs₁ : shellLocalScopeSetOnCurrentFrame w s n text lit = s₁ at hset hcell₁
  have hscope₁ : s₁.shellLocalScopeFind n = some var₁ := congrArg VariableCell.scope hcell₁
  have hro₁ : s₁.readonly n = false := by rw [hset.readonly, hro]
  -- from here on, the name is that of a local
  have hshow : shellSetTrackedVariable w s n text lit = shellSetTrackedVariable w s₁ n text lit := by
    simp only [shellSetTrackedVariable, hro, hro₁, hloc, localizes_of_find hscope₁, hs₁, if_true,
      Bool.false_eq_true, if_false]
  rw [hshow]
  have hbefore : s₁.arrays n = array₁ := congrArg VariableCell.array hcell₁
  obtain ⟨hok, hset₂, array, harray, hcell₂⟩ := setTracked_local hq hro₁ hscope₁ hlast
  rw [hbefore] at harray
  refine ⟨hok, hset.trans hset₂, array₁, array, assignedLocal s₁ var₁ text lit, hread₁, harray,
    rfl, ?_⟩
  rw [hcell₂, hcell₁]

theorem setTracked_global {s : ShellVariables} (hro : s.readonly n = false)
    (hscope : s.shellLocalScopeFind n = none) (hloc : s.localizes n = false) (text : Bytes)
    (lit : Bool) : shellSetTrackedVariable w s n text lit = (true, setGlobal w s n text lit) := by
  rw [shellSetTrackedVariable, if_neg (by simp [hro])]
  simp only [hloc, hscope, isSome_none, Bool.false_eq_true, if_false]

/-! ## elements -/

theorem strtol_rest {text : Bytes} (h : Digits text) : (strtol text).2 = [] ∧ 0 ≤ (strtol text).1 := by
  obtain ⟨hsign, hminus⟩ := digits_behindSign h
  have hdrop : text.dropWhile DecimalText.isDigit = [] := dropWhile_eq_nil_iff.mpr h.2
  rw [strtol, hsign, hminus, digits_takeWhile h, hdrop, if_neg h.1, if_neg Bool.false_ne_true]
  refine ⟨rfl, ?_⟩
  dsimp only
  split <;> omega

theorem storeElement_indexed (supported : Bool) (values : List Bytes) {key : Bytes}
    (h : Digits key) (text : Bytes)
    (hgap : supported = true ∨ leavesGap (.indexed values) key = false) :
    (storeElement supported (.indexed values) key text).1 = true := by
  rw [storeElement]
  by_cases hg : leavesGap (.indexed values) key
  · have hsupported : supported = true := hgap.resolve_right (by simp [hg])
    rw [if_pos hg, hsupported]
    rfl
  · obtain ⟨hrest, hsign⟩ := strtol_rest h
    rw [if_neg hg]
    dsimp only
    rw [if_neg (by rw [hrest]; simp; omega)]

theorem storeElement_associative (supported sparse : Bool) (elements : List (Bytes × Bytes))
    (key text : Bytes) :
    (storeElement supported (.associative sparse elements) key text).1 = supported ∧
      (supported = false →
        (storeElement supported (.associative sparse elements) key text).2 =
          .associative sparse elements) := by
  cases supported with
  | false => exact ⟨rfl, fun _ => rfl⟩
  | true => exact ⟨rfl, nofun⟩

theorem declaredAssociative_storeElement (supported : Bool) (entry : Option ShellArrayVariable)
    (key text : Bytes) :
    declaredAssociative (some (storeElement supported (entry.getD (.indexed [])) key text).2) =
      declaredAssociative entry := by
  have hindexed (values : List Bytes) :
      declaredAssociative (some (storeElement supported (.indexed values) key text).2) = false := by
    rw [storeElement]
    by_cases hgap : leavesGap (.indexed values) key
    · rw [if_pos hgap]
      cases supported <;> rfl
    · rw [if_neg hgap]
      dsimp only
      split <;> rfl
  cases entry with
  | none => exact hindexed []
  | some var =>
    cases var with
    | indexed values => exact hindexed values
    | associative sparse elements => cases supported <;> rfl

/-- an element is not past the end of a list, where keys are not supported -/
def ElementFits (s : ShellVariables) (subscript : Bytes) : Prop :=
  s.shellAssociativeArraysSupported = true ∨
    shellSubscriptIsNumeric (trimSpaces subscript) = true ∧
      leavesGap ((s.arrays n).getD (.indexed [])) (trimSpaces subscript) = false

theorem storeElement_fails {s : ShellVariables} {subscript key text : Bytes}
    (hfits : ElementFits (n := n) s subscript) (hkey : (if (declaredAssociative (s.arrays n) ||
      shellSubscriptIsNumeric (trimSpaces subscript)) = true then some (trimSpaces subscript) else
      shellParamSubscriptKey (w.valuation s) (s.arrays n) (trimSpaces subscript)) = some key)
    (hfail : (storeElement s.shellAssociativeArraysSupported ((s.arrays n).getD (.indexed [])) key
      text).1 = false) :
    some (storeElement s.shellAssociativeArraysSupported ((s.arrays n).getD (.indexed [])) key
      text).2 = s.arrays n := by
  have hindexed (values : List Bytes) (hvalues : (s.arrays n).getD (.indexed []) = .indexed values)
      (hplain : declaredAssociative (s.arrays n) = false) : False := by
    have hdigits : Digits key := by
      rw [hplain, Bool.false_or] at hkey
      split at hkey
      · next hnumeric =>
        cases hkey
        exact digits_of_numeric (solid_trimSpaces subscript) hnumeric
      · rw [shellParamSubscriptKey, hplain, if_neg (by simp)] at hkey
        obtain ⟨i, -, rfl⟩ := map_eq_some_iff.mp hkey
        exact digits_decimal i
    have hgap : s.shellAssociativeArraysSupported = true ∨
        leavesGap (.indexed values) key = false := by
      refine hfits.imp_right fun h => ?_
      obtain ⟨hnumeric, hgap⟩ := h
      rw [hnumeric, Bool.or_true, if_pos rfl] at hkey
      cases hkey
      rw [← hvalues]
      exact hgap
    rw [hvalues, storeElement_indexed _ values hdigits text hgap] at hfail
    cases hfail
  cases harray : s.arrays n with
  | none => exact (hindexed [] (by rw [harray]; rfl) (by rw [harray]; rfl)).elim
  | some var =>
    cases var with
    | indexed values => exact (hindexed values (by rw [harray]; rfl) (by rw [harray]; rfl)).elim
    | associative sparse elements =>
      rw [harray, getD_some] at hfail
      obtain ⟨hok, hsame⟩ := storeElement_associative s.shellAssociativeArraysSupported sparse
        elements key text
      rw [getD_some, hsame (hok ▸ hfail)]

theorem setElement_spec {subscript : Bytes} (hq : Quiet w (.subscript n (trimSpaces subscript)))
    (s : ShellVariables) (text : Bytes) (hfits : ElementFits (n := n) s subscript) :
    Sets n s (setElement w s n subscript text).2 ∧
      ((setElement w s n subscript text).1 = true →
        s.readonly n = false ∧ ∃ array t, declaredAssociative array = declaredAssociative (s.arrays n) ∧
          (setElement w s n subscript text).2.cell n =
            { s.cell n with array := array, text := t }) ∧
      ((setElement w s n subscript text).1 = false →
        ∀ j, (setElement w s n subscript text).2.cell j = s.cell j) := by
  rw [setElement]
  by_cases hro : s.readonly n
  · rw [if_pos hro]
    exact ⟨.refl n s, nofun, fun _ _ => rfl⟩
  rw [if_neg hro]
  simp only [hq s, ite_self]
  generalize hkey : (if (declaredAssociative (s.arrays n) ||
    shellSubscriptIsNumeric (trimSpaces subscript)) = true then some (trimSpaces subscript) else
    shellParamSubscriptKey (w.valuation s) (s.arrays n) (trimSpaces subscript)) = key
  cases key with
  | none => exact ⟨.refl n s, nofun, fun _ _ => rfl⟩
  | some key =>
    dsimp only
    -- the name has an entry, or gets a new one
    have hbefore : (if (s.arrays n).isSome then (s.arrays n).getD (.indexed []) else .indexed []) =
        (s.arrays n).getD (.indexed []) := by
      cases s.arrays n <;> rfl
    rw [hbefore]
    generalize hstored : storeElement s.shellAssociativeArraysSupported
      ((s.arrays n).getD (.indexed [])) key text = stored
    have hentry : (if (s.arrays n).isSome then some stored.2
        else (s.arrays n).or (some stored.2)) = some stored.2 := by
      cases s.arrays n <;> rfl
    rw [hentry]
    have harrays := sets_arrays n s (some stored.2)
    refine ⟨.ite (harrays.trans (sets_setenv n _ _)) harrays, fun hok => ?_, fun hfail => ?_⟩
    · rw [if_pos hok, cell_setenv, cell_arrays]
      refine ⟨Bool.eq_false_iff.mpr hro, _, _, ?_, rfl⟩
      rw [← hstored, declaredAssociative_storeElement]
    · rw [if_neg (by simp [hfail])]
      have hsame : update s.arrays n (some stored.2) = s.arrays := by
        rw [← hstored] at hfail ⊢
        rw [storeElement_fails hfits hkey hfail]
        exact update_eq_self n s.arrays
      rw [hsame]
      exact fun j => rfl

/-! ## the way back -/

theorem cell_updateLocal_some {s : ShellVariables} (hscope : s.shellLocalScopeFind n = some var)
    (f : ScopedVariable → ScopedVariable) :
    (s.updateLocal n f).cell n = { s.cell n with scope := some (f var) } := by
  have hs : (s.cell n).scope = some var := hscope
  rw [cell_updateLocal, hs]
  rfl

theorem setExported_some {s : ShellVariables} (hscope : s.shellLocalScopeFind n = some var)
    (exported : Bool) : (s.shellVariableSetExported n exported).cell n =
      { s.cell n with scope := some { var with exported } } := by
  rw [shellVariableSetExported, hscope, if_pos (by rfl)]
  exact cell_updateLocal_some hscope _

section
variable {u : ShellVariables} {b : ShellAssignmentBackup}

theorem restoreBackup_local {var : ScopedVariable} (hb : b.hadPrevious = true)
    (hq : b.previousWasArray = true → Quiet w (.keys b.name b.previousValue))
    (hro : u.readonly b.name = false)
    (hscope : u.shellLocalScopeFind b.name = some var)
    (hlast : b.name ≠ ascii "EXSH_LAST_STATUS") :
    Sets b.name u (restoreBackup w b u) ∧
      ∃ array var', Read w (u.arrays b.name) (some b.previousValue) b.previousWasArray array ∧
        (restoreBackup w b u).cell b.name =
          { u.cell b.name with array := array, scope := some var' } ∧
        var'.value = some b.previousValue ∧ var'.exported = b.wasExported ∧
        var'.noValue = b.previousNoValue := by
  rw [restoreBackup, if_pos hb]
  obtain ⟨-, hset, array, harray, hcell⟩ :=
    setTracked_local hq hro hscope hlast
  generalize (shellSetTrackedVariable w u b.name b.previousValue b.previousWasArray).2 = u₁
    at hset hcell
  have hscope₁ : u₁.shellLocalScopeFind b.name =
      some (assignedLocal u var b.previousValue b.previousWasArray) :=
    congrArg VariableCell.scope hcell
  have hset₂ := sets_setExported b.name u₁ b.wasExported
  have hcell₂ := setExported_some hscope₁ b.wasExported
  dsimp only
  generalize u₁.shellVariableSetExported b.name b.wasExported = u₂ at hset₂ hcell₂
  have hscope₂ : u₂.shellLocalScopeFind b.name =
      some { assignedLocal u var b.previousValue b.previousWasArray with exported := b.wasExported } :=
    congrArg VariableCell.scope hcell₂
  cases hno : b.previousNoValue with
  | false =>
    rw [if_neg (by simp)]
    refine ⟨hset.trans hset₂, array,
      { assignedLocal u var b.previousValue b.previousWasArray with exported := b.wasExported },
      harray, ?_, rfl, rfl, rfl⟩
    rw [hcell₂, hcell]
  | true =>
    rw [if_pos rfl]
    refine ⟨(hset.trans hset₂).trans (sets_updateLocal _ _ _), array,
      { assignedLocal u var b.previousValue b.previousWasArray with
        exported := b.wasExported, noValue := true },
      harray, ?_, rfl, rfl, rfl⟩
    rw [cell_updateLocal_some hscope₂, hcell₂, hcell]

theorem restoreBackup_global (hb : b.hadPrevious = true) (hno : b.previousNoValue = false)
    (hq : b.previousWasArray = true → Quiet w (.keys b.name b.previousValue))
    (hro : u.readonly b.name = false)
    (hscope : u.shellLocalScopeFind b.name = none) (hloc : u.localizes b.name = false)
    (hpriv : u.privileged = false) : Sets b.name u (restoreBackup w b u) ∧
      ∃ array, Read w (u.arrays b.name) (some b.previousValue) b.previousWasArray array ∧
        FlagsOnly { u.cell b.name with text := some b.previousValue, array := array }
          ((restoreBackup w b u).cell b.name) ∧
        ((restoreBackup w b u).cell b.name).globalExported = b.wasExported := by
  rw [restoreBackup, if_pos hb, setTracked_global hro hscope hloc, hno]
  obtain ⟨hset, array, harray, hflags⟩ := setGlobal_spec hq u
  rw [hpriv, if_neg (by simp)] at harray hflags
  dsimp only
  rw [if_neg (by simp)]
  generalize setGlobal w u b.name b.previousValue b.previousWasArray = u₁ at hset hflags
  have hcell := hflags
  obtain ⟨x, y, hcell⟩ := hcell
  have hscope₁ : u₁.shellLocalScopeFind b.name = none :=
    (congrArg VariableCell.scope hcell).trans hscope
  have htext : u₁.getenv b.name = some b.previousValue := congrArg VariableCell.text hcell
  obtain ⟨hflags₂, hexported⟩ := setExported_global u₁ b.wasExported hscope₁ (by rw [htext]; rfl)
  exact ⟨hset.trans (sets_setExported _ _ _), array, harray, hflags.trans hflags₂, hexported⟩

theorem restoreBackup_unsetGlobal (hb : b.hadPrevious = false)
    (hscope : u.shellLocalScopeFind b.name = none) :
    Acts b.name u (restoreBackup w b u) ∧
      FlagsOnly
        { u.cell b.name with
          text := none, array := none, ifsUnset := decide (b.name = ascii "IFS") }
        ((restoreBackup w b u).cell b.name) ∧
      ((restoreBackup w b u).cell b.name).globalExported = b.wasPendingExport := by
  have hnone : shellLocalScopeUnset w u b.name = none := by
    rw [shellLocalScopeUnset, hscope]
  rw [restoreBackup, if_neg (by simp [hb]), shellUnsetTrackedVariable, hnone]
  dsimp only
  generalize hu₁ : (if b.name = ascii "IFS" then { u.unsetenv b.name with ifsUnset := true }
    else u.unsetenv b.name) = u₁
  have h₁ : Acts b.name u u₁ ∧
      u₁.cell b.name =
        { u.cell b.name with text := none, ifsUnset := decide (b.name = ascii "IFS") } := by
    have hunset := (sets_unsetenv b.name u).toActs
    have hcell := cell_unsetenv (n := b.name) u
    rw [← hu₁]
    by_cases hifs : b.name = ascii "IFS"
    · rw [if_pos hifs, decide_eq_true hifs]
      refine ⟨⟨fun j hj => ?_, hunset.privileged, hunset.readonly, hunset.localizing,
        hunset.frames⟩, ?_⟩
      · have hne : decide (j = ascii "IFS") = false := decide_eq_false (hifs ▸ hj)
        rw [← hunset.touches j hj]
        simp only [cell, hne, Bool.false_and]
        rfl
      · have hshow : ({ u.unsetenv b.name with ifsUnset := true } : ShellVariables).cell b.name =
            { (u.unsetenv b.name).cell b.name with
              ifsUnset := b.name = ascii "IFS" && true } := rfl
        rw [hshow, hcell, decide_eq_true hifs]
        rfl
    · rw [if_neg hifs, decide_eq_false hifs]
      refine ⟨hunset, ?_⟩
      rw [hcell]
      simp only [cell, hifs, decide_false, Bool.false_and]
  have h₂ := ((sets_forget b.name u₁).trans (sets_removeArray b.name _)).toActs
  have hcell₂ : ((u₁.shellExportForget b.name).removeArray b.name).cell b.name =
      { u₁.cell b.name with unexported := false, pending := false, array := none } := by
    rw [cell_removeArray, cell_forget]
  generalize (u₁.shellExportForget b.name).removeArray b.name = u₂ at h₂ hcell₂
  have hflags₂ : FlagsOnly
      { u.cell b.name with
        text := none, array := none, ifsUnset := decide (b.name = ascii "IFS") }
      (u₂.cell b.name) := by
    rw [hcell₂, h₁.2]
    exact ⟨false, false, rfl⟩
  have htext₂ : (u₂.cell b.name).text = none := by rw [hcell₂, h₁.2]
  have hunexp₂ : u₂.unexported b.name = false := congrArg VariableCell.unexported hcell₂
  have hpend₂ : (u₂.cell b.name).pending = false := by rw [hcell₂]
  cases hpending : b.wasPendingExport with
  | false =>
    rw [if_neg (by simp)]
    refine ⟨h₁.1.trans h₂, hflags₂, ?_⟩
    rw [VariableCell.globalExported, htext₂, hpend₂]
    rfl
  | true =>
    rw [if_pos rfl]
    exact ⟨(h₁.1.trans h₂).trans (sets_markExported b.name u₂).toActs,
      hflags₂.trans (flags_markExported u₂), globalExported_markExported u₂ (.inr hunexp₂)⟩

theorem restoreBackup_unsetLocal {var : ScopedVariable} (hb : b.hadPrevious = false)
    (hpending : b.wasPendingExport = false) (hscope : u.shellLocalScopeFind b.name = some var)
    (hinner : u.inCurrentFrame b.name = true) : Sets b.name u (restoreBackup w b u) ∧
      ∃ var', var'.noValue = true ∧ var'.exported = false ∧
        (restoreBackup w b u).cell b.name =
          { u.cell b.name with
            array := if var.isArrayLiteral then none else u.arrays b.name, scope := some var' } := by
  rw [restoreBackup, if_neg (by simp [hb]), hpending]
  dsimp only
  rw [if_neg (by simp), shellUnsetTrackedVariable, shellLocalScopeUnset, hscope]
  dsimp only
  have harray : Sets b.name u (if var.isArrayLiteral then u.removeArray b.name else u) :=
    .ite (sets_removeArray _ _) (.refl _ _)
  have hcell : (if var.isArrayLiteral then u.removeArray b.name else u).cell b.name =
      { u.cell b.name with
        array := if var.isArrayLiteral then none else u.arrays b.name } := by
    split
    · exact cell_removeArray u
    · rfl
  generalize (if var.isArrayLiteral then u.removeArray b.name else u) = u₁ at harray hcell
  have hscope₁ : u₁.shellLocalScopeFind b.name = some var :=
    (congrArg VariableCell.scope hcell).trans hscope
  have hinner₁ : u₁.inCurrentFrame b.name = true :=
    (congrArg VariableCell.innermost hcell).trans hinner
  rw [if_pos hinner₁]
  dsimp only
  refine ⟨harray.trans (sets_updateLocal _ _ _),
    { var with
      value := none, shadowsArray := var.shadowsArray || var.isArrayLiteral
      isArrayLiteral := false, exported := false, noValue := true, attributes := 0 },
    rfl, rfl, ?_⟩
  rw [cell_updateLocal_some hscope₁, hcell]
end

/-! ## one assignment -/

/-- what an assignment may leave of the array; the text of a new local is read twice -/
def LeftArray (w : ShellWorld) (t : AssignmentTarget) (lit : Bool)
    (before after : Option ShellArrayVariable) : Prop :=
  match t.subscript with
  | some _ => declaredAssociative after = declaredAssociative before
  | none =>
    Read w before (some t.value) lit after ∨
      ∃ array, Read w before (some t.value) lit array ∧ Read w array (some t.value) lit after

/-- what an assignment that takes effect does to its name -/
inductive Assigned (w : ShellWorld) (s : ShellVariables) (t : AssignmentTarget) (lit : Bool)
    (s' : ShellVariables) : Prop where
  | ofGlobal {array : Option ShellArrayVariable} {text : Option Bytes}
      (hscope : s.shellLocalScopeFind t.name = none) (hloc : s.localizes t.name = false)
      (harray : s.privileged = false → LeftArray w t lit (s.arrays t.name) array)
      (hcell : FlagsOnly { s.cell t.name with text, array } (s'.cell t.name))
  | ofLocal {array : Option ShellArrayVariable} {var var' : ScopedVariable}
      (hscope : s.shellLocalScopeFind t.name = some var)
      (hlast : t.name ≠ ascii "EXSH_LAST_STATUS")
      (harray : LeftArray w t lit (s.arrays t.name) array)
      (hcell : s'.cell t.name = { s.cell t.name with array, scope := some var' })
  | ofNew {array : Option ShellArrayVariable} {var : ScopedVariable}
      (hloc : s.localizes t.name = true) (hlast : t.name ≠ ascii "EXSH_LAST_STATUS")
      (harray : LeftArray w t lit (s.arrays t.name) array)
      (hplain : var.isArrayLiteral = false → array = none)
      (hcell : s'.cell t.name =
        { s.cell t.name with array, scope := some var, innermost := true })

/-- elements and the last status go to the environment, so the name has to be that of a global -/
def GlobalTarget (s : ShellVariables) (t : AssignmentTarget) : Prop :=
  t.subscript.isSome ∨ t.name = ascii "EXSH_LAST_STATUS" →
    s.shellLocalScopeFind t.name = none ∧ s.localizes t.name = false

theorem localizes_scope {s : ShellVariables} (hloc : s.localizes n = true) :
    s.shellLocalScopeFind n = none := by
  rw [localizes, Bool.and_eq_true, Bool.and_eq_true, isNone_iff_eq_none] at hloc
  exact hloc.1.1

theorem leftArray_read {text : Bytes} (hsub : t.subscript = none)
    (htext : lit = true → text = t.value) {before after : Option ShellArrayVariable}
    (h : Read w before (some text) lit after) : LeftArray w t lit before after := by
  rw [LeftArray, hsub]
  cases lit with
  | false => exact .inl h
  | true => exact .inl (htext rfl ▸ h)

theorem setTracked_ok {s : ShellVariables} {text : Bytes} (hro : s.readonly n = false) :
    (shellSetTrackedVariable w s n text lit).1 = true := by
  rw [shellSetTrackedVariable, if_neg (by simp [hro])]
  dsimp only
  generalize (if s.localizes n then shellLocalScopeSetOnCurrentFrame w s n text lit else s) = s₁
  split <;> rfl

theorem setTracked_spec {s : ShellVariables} {text : Bytes} (hsub : t.subscript = none)
    (htext : lit = true → text = t.value) (hq : lit = true → Quiet w (.keys t.name t.value))
    (hglobal : s.readonly t.name = false → GlobalTarget s t) :
    Sets t.name s (shellSetTrackedVariable w s t.name text lit).2 ∧
      ((shellSetTrackedVariable w s t.name text lit).1 = true →
        s.readonly t.name = false ∧
          Assigned w s t lit (shellSetTrackedVariable w s t.name text lit).2) ∧
      ((shellSetTrackedVariable w s t.name text lit).1 = false →
        (shellSetTrackedVariable w s t.name text lit).2 = s) := by
  have hquiet : lit = true → Quiet w (.keys t.name text) := fun hlit => htext hlit ▸ hq hlit
  cases hro : s.readonly t.name with
  | true =>
    rw [shellSetTrackedVariable, if_pos hro]
    exact ⟨.refl _ _, nofun, fun _ => rfl⟩
  | false =>
    cases hscope : s.shellLocalScopeFind t.name with
    | some var =>
      have hlast : t.name ≠ ascii "EXSH_LAST_STATUS" := fun he => by
        rw [(hglobal hro (.inr he)).1] at hscope
        cases hscope
      obtain ⟨hok, hset, array, harray, hcell⟩ := setTracked_local hquiet hro hscope hlast
      refine ⟨hset, fun _ => ⟨rfl, .ofLocal hscope hlast (leftArray_read hsub htext harray) hcell⟩,
        fun hno => ?_⟩
      rw [hok] at hno
      cases hno
    | none =>
      cases hloc : s.localizes t.name with
      | true =>
        have hlast : t.name ≠ ascii "EXSH_LAST_STATUS" := fun he => by
          rw [(hglobal hro (.inr he)).2] at hloc
          cases hloc
        obtain ⟨hok, hset, before, array, var, hbefore, harray, hvar, hcell⟩ :=
          setTracked_localizing hquiet hro hloc hlast
        refine ⟨hset, fun _ => ⟨rfl, .ofNew hloc hlast ?_ (fun hplain => ?_) hcell⟩, fun hno => ?_⟩
        · rw [LeftArray, hsub]
          cases lit with
          | false => exact .inr ⟨before, hbefore, harray⟩
          | true =>
            rw [htext rfl] at hbefore harray
            exact .inr ⟨before, hbefore, harray⟩
        · rw [← hvar, hplain] at harray
          exact harray
        · rw [hok] at hno
          cases hno
      | false =>
        rw [setTracked_global hro hscope hloc]
        obtain ⟨hset, array, harray, hcell⟩ := setGlobal_spec hquiet s
        refine ⟨hset, fun _ => ⟨rfl, .ofGlobal hscope hloc (fun hpriv => ?_) hcell⟩, nofun⟩
        rw [hpriv, if_neg (by simp)] at harray
        exact leftArray_read hsub htext harray

theorem Assigned.exported {s s' : ShellVariables} (h : Assigned w s t lit s') :
    Assigned w s t lit (s'.shellVariableSetExported t.name true) := by
  cases h with
  | ofGlobal hscope hloc harray hcell =>
    have hscope' : s'.shellLocalScopeFind t.name = none := by
      obtain ⟨a, b, hcell⟩ := hcell
      exact (congrArg VariableCell.scope hcell).trans hscope
    exact .ofGlobal hscope hloc harray (hcell.trans (setExported_flags s' true hscope'))
  | ofLocal hscope hlast harray hcell =>
    have hexported := setExported_some (congrArg VariableCell.scope hcell) true
    rw [hcell] at hexported
    exact .ofLocal hscope hlast harray hexported
  | ofNew hloc hlast harray hplain hcell =>
    have hexported := setExported_some (congrArg VariableCell.scope hcell) true
    rw [hcell] at hexported
    refine .ofNew hloc hlast harray ?_ hexported
    exact hplain

theorem assignedValue_spec {s : ShellVariables}
    (hq : lit = false → forCommand = false → Quiet w (.attributes t.name t.value)) :
    ∃ text, assignedValue w forCommand s t lit = (text, s) ∧ (lit = true → text = t.value) := by
  rw [assignedValue]
  cases lit with
  | true => exact ⟨t.value, rfl, fun _ => rfl⟩
  | false =>
    cases forCommand with
    | true => exact ⟨t.value, rfl, nofun⟩
    | false =>
      rw [if_neg (by simp), hq rfl rfl]
      exact ⟨_, rfl, nofun⟩

/-- the arithmetic of an assignment stores nothing, and its element has a place -/
structure Plain (w : ShellWorld) (forCommand : Bool) (s : ShellVariables) (t : AssignmentTarget)
    (lit : Bool) : Prop where
  value : lit = false → forCommand = false → Quiet w (.attributes t.name t.value)
  keys : t.subscript = none → lit = true → Quiet w (.keys t.name t.value)
  element : ∀ subscript ∈ t.subscript,
    Quiet w (.subscript t.name (trimSpaces subscript)) ∧ ElementFits (n := t.name) s subscript

theorem assignEntry_spec {s : ShellVariables} (hplain : Plain w forCommand s t lit)
    (hglobal : (assignEntry w forCommand s t lit).1 = true → GlobalTarget s t) :
    Sets t.name s (assignEntry w forCommand s t lit).2 ∧
      ((assignEntry w forCommand s t lit).1 = true →
        s.readonly t.name = false ∧ Assigned w s t lit (assignEntry w forCommand s t lit).2) ∧
      ((assignEntry w forCommand s t lit).1 = false →
        ∀ j, (assignEntry w forCommand s t lit).2.cell j = s.cell j) := by
  obtain ⟨text, hvalue, htext⟩ := assignedValue_spec (s := s) hplain.value
  cases hsub : t.subscript with
  | some subscript =>
    have hentry : assignEntry w forCommand s t lit = setElement w s t.name subscript text := by
      rw [assignEntry, assign, hvalue]
      simp only [hsub, isNone_some, Bool.and_false, Bool.false_and, Bool.false_eq_true, if_false]
    rw [hentry] at hglobal ⊢
    obtain ⟨hq, hfits⟩ := hplain.element subscript hsub
    obtain ⟨hset, hok, hfail⟩ := setElement_spec hq s text hfits
    refine ⟨hset, fun h => ?_, hfail⟩
    obtain ⟨hscope, hloc⟩ := hglobal h (.inl (by rw [hsub]; rfl))
    obtain ⟨hro, array, text', harray, hcell⟩ := hok h
    refine ⟨hro, .ofGlobal hscope hloc (fun _ => ?_) ⟨s.unexported t.name, s.pending t.name, hcell⟩⟩
    rw [LeftArray, hsub]
    exact harray
  | none =>
    have hassign : assign w forCommand s t lit = shellSetTrackedVariable w s t.name text lit := by
      rw [assign, hvalue]
      simp only [hsub]
    have hentry : assignEntry w forCommand s t lit =
        if (shellSetTrackedVariable w s t.name text lit).1 && forCommand && !lit then
          (true, (shellSetTrackedVariable w s t.name text lit).2.shellVariableSetExported t.name true)
        else shellSetTrackedVariable w s t.name text lit := by
      rw [assignEntry, hassign]
      simp only [hsub, isNone_none, Bool.and_true]
    have hro : s.readonly t.name = false → GlobalTarget s t := fun hro => hglobal (by
      rw [hentry]
      split
      · rfl
      · exact setTracked_ok hro)
    obtain ⟨hset, hok, hfail⟩ := setTracked_spec hsub htext (hplain.keys hsub) hro
    rw [hentry]
    split
    · next h =>
      rw [Bool.and_eq_true, Bool.and_eq_true] at h
      have hset' := hset.trans (sets_setExported t.name _ true)
      exact ⟨hset', fun _ => ⟨(hok h.1.1).1, (hok h.1.1).2.exported⟩, nofun⟩
    · refine ⟨hset, hok, fun h j => ?_⟩
      rw [hfail h]

/-! ## undone -/

/-- what no variable is about; a frame may be left meanwhile, but none takes assignments anew -/
structure Along (s₀ u : ShellVariables) : Prop where
  privileged : u.privileged = s₀.privileged
  readonly : u.readonly = s₀.readonly
  localizing : u.localizing = true → s₀.localizing = true
  frames : u.frames = [] ↔ s₀.frames = []

theorem Acts.along (h : Acts n s s') : Along s' = Along s := by
  funext u
  refine propext ⟨fun h' => ⟨?_, ?_, ?_, ?_⟩, fun h' => ⟨?_, ?_, ?_, ?_⟩⟩
  · rw [h'.privileged, h.privileged]
  · rw [h'.readonly, h.readonly]
  · rw [← h.localizing]
    exact h'.localizing
  · rw [h'.frames, h.frames]
  · rw [h'.privileged, h.privileged]
  · rw [h'.readonly, h.readonly]
  · rw [h.localizing]
    exact h'.localizing
  · rw [h'.frames, h.frames]

theorem Along.acts {s₀ u u' : ShellVariables} (h : Along s₀ u) (hacts : Acts n u u') :
    Along s₀ u' where
  privileged := hacts.privileged.trans h.privileged
  readonly := hacts.readonly.trans h.readonly
  localizing hloc := h.localizing (hacts.localizing ▸ hloc)
  frames := hacts.frames.trans h.frames

theorem Along.localizes {s u : ShellVariables} (h : Along s u)
    (hloc : s.localizes n = false) (hscope : s.shellLocalScopeFind n = none) :
    u.localizes n = false := by
  rw [ShellVariables.localizes, hscope, isNone_none, Bool.true_and, Bool.and_eq_false_iff,
    Bool.not_eq_false', List.isEmpty_iff] at hloc
  rw [ShellVariables.localizes]
  rcases hloc with hlocal | hframes
  · have hu : u.localizing = false := Bool.eq_false_iff.mpr fun hu => by
      rw [h.localizing hu] at hlocal
      cases hlocal
    rw [hu, Bool.and_false, Bool.false_and]
  · rw [h.frames.mpr hframes]
    simp

/-- What is saved of the variable brings it back from what the assignment leaves. -/
structure BroughtBack (w : ShellWorld) (s : ShellVariables) (t : AssignmentTarget) (lit : Bool) :
    Prop where
  global : GlobalTarget s t
  array : (s.backup t.name).previousWasArray = true →
    Quiet w (.keys t.name (s.backup t.name).previousValue) ∧
      ∀ v after, LeftArray w t lit (s.arrays t.name) after →
        shellArrayRegistryAssignFromText v w.scanner after (some (s.backup t.name).previousValue) =
          s.arrays t.name
  plain : (s.backup t.name).previousWasArray = false → s.arrays t.name = none
  ifs : t.name = ascii "IFS" → s.localizes t.name = false →
    (s.backup t.name).hadPrevious = false → s.ifsUnset = true
  pending : s.localizes t.name = true → (s.backup t.name).hadPrevious = false →
    s.pending t.name = false

theorem view_global (hscope : c.scope = none) : c.view =
      { value := c.text, array := c.array, exported := c.globalExported, globalValue := c.text
        globalExported := c.globalExported, ifsUnset := c.ifsUnset, random := c.random
        seconds := c.seconds } := by
  simp only [VariableCell.view, hscope, elim_none]

theorem view_local (hscope : c.scope = some var) : c.view =
      { value := if var.noValue then none else some (var.value.getD []), array := c.array
        exported := var.exported, globalValue := c.text, globalExported := c.globalExported
        ifsUnset := c.ifsUnset, random := c.random, seconds := c.seconds } := by
  simp only [VariableCell.view, hscope, elim_some]

theorem backup_name (s : ShellVariables) : (s.backup n).name = n := by
  rw [backup]
  split <;> rfl

theorem backup_global {s : ShellVariables} (hscope : s.shellLocalScopeFind n = none) : s.backup n =
      { name := n, previousValue := (s.getenv n).getD [], hadPrevious := (s.getenv n).isSome
        previousWasArray := (s.getenv n).isSome && (s.arrays n).isSome
        wasExported := s.shellGlobalIsExported n, wasPendingExport := s.pending n
        previousNoValue := false } := by
  rw [backup, hscope]

theorem backup_local {s : ShellVariables} (hscope : s.shellLocalScopeFind n = some var) :
    s.backup n =
      { name := n, previousValue := var.value.getD [], hadPrevious := true
        previousWasArray := var.isArrayLiteral, wasExported := var.exported
        wasPendingExport := false, previousNoValue := var.noValue } := by
  rw [backup, hscope]

section
variable {s s' u : ShellVariables} {t : AssignmentTarget} {lit : Bool}

theorem BroughtBack.read (hback : BroughtBack w s t lit) {after array : Option ShellArrayVariable}
    (hleft : LeftArray w t lit (s.arrays t.name) after)
    (hread : Read w after (some (s.backup t.name).previousValue)
      (s.backup t.name).previousWasArray array) : array = s.arrays t.name := by
  cases hwas : (s.backup t.name).previousWasArray with
  | false =>
    rw [hwas] at hread
    exact Eq.trans hread (hback.plain hwas).symm
  | true =>
    rw [hwas] at hread
    obtain ⟨v, rfl⟩ := hread
    exact (hback.array hwas).2 v after hleft

theorem undoes_global {array : Option ShellArrayVariable} {text : Option Bytes}
    (hback : BroughtBack w s t lit) (hro : s.readonly t.name = false) (halong : Along s u)
    (hscope : s.shellLocalScopeFind t.name = none) (hloc : s.localizes t.name = false)
    (hleft : s.privileged = false → LeftArray w t lit (s.arrays t.name) array)
    (hcell : FlagsOnly { s.cell t.name with text, array } (u.cell t.name)) :
    Acts t.name u (restoreBackup w (s.backup t.name) u) ∧
      ((restoreBackup w (s.backup t.name) u).cell t.name).view = (s.cell t.name).view := by
  obtain ⟨x, y, hcell⟩ := hcell
  have hscope' : u.shellLocalScopeFind t.name = none :=
    (congrArg VariableCell.scope hcell).trans hscope
  have harray : u.arrays t.name = array := congrArg VariableCell.array hcell
  have hro' : u.readonly t.name = false := by rw [halong.readonly, hro]
  have hbackup := backup_global hscope
  have hview := view_global (c := s.cell t.name) hscope
  cases htext : s.getenv t.name with
  | some previous =>
    rw [htext] at hbackup
    have hpriv : s.privileged = false := by
      by_contra hp
      rw [getenv, if_pos ((Bool.not_eq_false _).mp hp)] at htext
      cases htext
    have hb : (s.backup t.name).hadPrevious = true := by rw [hbackup]; rfl
    have hprevious : (s.backup t.name).previousValue = previous := by rw [hbackup]; rfl
    have hexported : (s.backup t.name).wasExported = (s.cell t.name).globalExported := by
      rw [hbackup]; rfl
    obtain ⟨hset, array', hread, ⟨x', y', hcell'⟩, hflag⟩ :=
      restoreBackup_global (w := w) (u := u) (b := s.backup t.name) hb (by rw [hbackup])
        (by rw [backup_name]; exact fun hwas => (hback.array hwas).1) (by rw [backup_name, hro'])
        (by rw [backup_name, hscope'])
        (by rw [backup_name, halong.localizes hloc hscope]) (by rw [halong.privileged, hpriv])
    rw [backup_name] at hset hread hcell' hflag
    rw [harray] at hread
    have hscope'' : ((restoreBackup w (s.backup t.name) u).cell t.name).scope = none :=
      (congrArg VariableCell.scope hcell').trans hscope'
    refine ⟨hset.toActs, ?_⟩
    rw [hview, view_global hscope'', hflag, hexported, hcell', hcell,
      hback.read (hleft hpriv) hread, hprevious, ← htext]
    rfl
  | none =>
    rw [htext] at hbackup
    have hb : (s.backup t.name).hadPrevious = false := by rw [hbackup]; rfl
    have hpending : (s.backup t.name).wasPendingExport = (s.cell t.name).globalExported := by
      rw [hbackup, VariableCell.globalExported]
      simp only [cell, htext, isSome_none, Bool.false_eq_true, if_false]
    have hplain : s.arrays t.name = none := hback.plain (by rw [hbackup]; rfl)
    have hifs : decide (t.name = ascii "IFS") = (s.cell t.name).ifsUnset := by
      by_cases hn : t.name = ascii "IFS"
      · simp only [cell, hn, decide_true, Bool.true_and]
        exact (hback.ifs hn hloc hb).symm
      · simp only [cell, hn, decide_false, Bool.false_and]
    obtain ⟨hacts, ⟨x', y', hcell'⟩, hflag⟩ :=
      restoreBackup_unsetGlobal (w := w) (u := u) hb (by rw [backup_name, hscope'])
    rw [backup_name] at hacts hcell' hflag
    have hscope'' : ((restoreBackup w (s.backup t.name) u).cell t.name).scope = none :=
      (congrArg VariableCell.scope hcell').trans hscope'
    refine ⟨hacts, ?_⟩
    have h1 : (s.cell t.name).text = none := htext
    have h2 : (s.cell t.name).array = none := hplain
    rw [hview, view_global hscope'', hflag, hpending, hcell', hcell, hifs, h1, h2]

theorem undoes_local {array : Option ShellArrayVariable} {var var' : ScopedVariable}
    (hback : BroughtBack w s t lit) (hro : s.readonly t.name = false) (halong : Along s u)
    (hscope : s.shellLocalScopeFind t.name = some var) (hlast : t.name ≠ ascii "EXSH_LAST_STATUS")
    (hleft : LeftArray w t lit (s.arrays t.name) array)
    (hcell : u.cell t.name = { s.cell t.name with array, scope := some var' }) :
    Acts t.name u (restoreBackup w (s.backup t.name) u) ∧
      ((restoreBackup w (s.backup t.name) u).cell t.name).view = (s.cell t.name).view := by
  have hscope' : u.shellLocalScopeFind t.name = some var' := congrArg VariableCell.scope hcell
  have harray : u.arrays t.name = array := congrArg VariableCell.array hcell
  have hro' : u.readonly t.name = false := by rw [halong.readonly, hro]
  have hbackup := backup_local hscope
  have hview := view_local (c := s.cell t.name) hscope
  have hb : (s.backup t.name).hadPrevious = true := by rw [hbackup]
  obtain ⟨hset, array', var'', hread, hcell', hvalue, hexported, hno⟩ :=
    restoreBackup_local (w := w) (u := u) (b := s.backup t.name) hb
      (by rw [backup_name]; exact fun hwas => (hback.array hwas).1) (by rw [backup_name, hro'])
      (by rw [backup_name, hscope']) (by rw [backup_name]; exact hlast)
  rw [backup_name] at hset hread hcell'
  rw [harray] at hread
  have hscope'' : ((restoreBackup w (s.backup t.name) u).cell t.name).scope = some var'' :=
    congrArg VariableCell.scope hcell'
  refine ⟨hset.toActs, ?_⟩
  rw [hview, view_local hscope'', hvalue, hexported, hno, hcell', hcell, hback.read hleft hread,
    hbackup]
  rfl

theorem undoes_new {array : Option ShellArrayVariable} {var : ScopedVariable}
    (hback : BroughtBack w s t lit) (hro : s.readonly t.name = false) (halong : Along s u)
    (hloc : s.localizes t.name = true) (hlast : t.name ≠ ascii "EXSH_LAST_STATUS")
    (hleft : LeftArray w t lit (s.arrays t.name) array)
    (hplain : var.isArrayLiteral = false → array = none)
    (hcell : u.cell t.name =
      { s.cell t.name with array, scope := some var, innermost := true }) :
    Acts t.name u (restoreBackup w (s.backup t.name) u) ∧
      ((restoreBackup w (s.backup t.name) u).cell t.name).view = (s.cell t.name).view := by
  have hscope := localizes_scope hloc
  have hscope' : u.shellLocalScopeFind t.name = some var := congrArg VariableCell.scope hcell
  have harray : u.arrays t.name = array := congrArg VariableCell.array hcell
  have hro' : u.readonly t.name = false := by rw [halong.readonly, hro]
  have hbackup := backup_global hscope
  have hview := view_global (c := s.cell t.name) hscope
  cases htext : s.getenv t.name with
  | some previous =>
    rw [htext] at hbackup
    have hb : (s.backup t.name).hadPrevious = true := by rw [hbackup]; rfl
    obtain ⟨hset, array', var'', hread, hcell', hvalue, hexported, hno⟩ :=
      restoreBackup_local (w := w) (u := u) (b := s.backup t.name) hb
        (by rw [backup_name]; exact fun hwas => (hback.array hwas).1) (by rw [backup_name, hro'])
        (by rw [backup_name, hscope']) (by rw [backup_name]; exact hlast)
    rw [backup_name] at hset hread hcell'
    rw [harray] at hread
    have hscope'' : ((restoreBackup w (s.backup t.name) u).cell t.name).scope = some var'' :=
      congrArg VariableCell.scope hcell'
    have htext' : (s.cell t.name).text = some previous := htext
    refine ⟨hset.toActs, ?_⟩
    rw [hview, view_local hscope'', hvalue, hexported, hno, hcell', hcell, hback.read hleft hread,
      hbackup, htext']
    rfl
  | none =>
    rw [htext] at hbackup
    have hb : (s.backup t.name).hadPrevious = false := by rw [hbackup]; rfl
    have hpending : s.pending t.name = false := hback.pending hloc hb
    have hnone : s.arrays t.name = none := hback.plain (by rw [hbackup]; rfl)
    obtain ⟨hset, var'', hno, hexported, hcell'⟩ :=
      restoreBackup_unsetLocal (w := w) (u := u) hb (by rw [hbackup, hpending])
        (by rw [backup_name, hscope'])
        (by rw [backup_name]; exact congrArg VariableCell.innermost hcell)
    rw [backup_name] at hset hcell'
    have hscope'' : ((restoreBackup w (s.backup t.name) u).cell t.name).scope = some var'' :=
      congrArg VariableCell.scope hcell'
    have hgone : (if var.isArrayLiteral then none else u.arrays t.name) = none := by
      rw [harray]
      cases hlit : var.isArrayLiteral with
      | true => rfl
      | false => exact hplain hlit
    have htext' : (s.cell t.name).text = none := htext
    have harray' : (s.cell t.name).array = none := hnone
    have hflag : (s.cell t.name).globalExported = false := by
      rw [VariableCell.globalExported, htext']
      exact hpending
    refine ⟨hset.toActs, ?_⟩
    rw [hview, view_local hscope'', hexported, hno, hcell', hgone, hcell, hflag, htext', harray']
    exact VariableView.ext rfl rfl rfl rfl hflag rfl rfl rfl

theorem Assigned.undoes (h : Assigned w s t lit s') (hback : BroughtBack w s t lit)
    (hro : s.readonly t.name = false) :
    Undoes cell VariableCell.view (restoreBackup w) (Along s) t.name (s.backup t.name) s s' := by
  intro u halong hu
  have hundone : Acts t.name u (restoreBackup w (s.backup t.name) u) ∧
      ((restoreBackup w (s.backup t.name) u).cell t.name).view = (s.cell t.name).view := by
    cases h with
    | ofGlobal hscope hloc hleft hcell =>
      exact undoes_global hback hro halong hscope hloc hleft (hu ▸ hcell)
    | ofLocal hscope hlast hleft hcell =>
      exact undoes_local hback hro halong hscope hlast hleft (hu.trans hcell)
    | ofNew hloc hlast hleft hplain hcell =>
      exact undoes_new hback hro halong hloc hlast hleft hplain (hu.trans hcell)
  exact ⟨halong.acts hundone.1, hundone.1.touches, hundone.2⟩

end

/-! ## the assignments in front of a command -/

/-- when an assignment can be taken back; `taken` are the names assigned to before -/
structure Restorable (w : ShellWorld) (forCommand : Bool) (taken : List Bytes) (s : ShellVariables)
    (t : AssignmentTarget) (lit : Bool) : Prop extends Plain w forCommand s t lit where
  random : t.name ≠ ascii "RANDOM"
  seconds : t.name ≠ ascii "SECONDS"
  back : (assignEntry w forCommand s t lit).1 = true → t.name ∉ taken ∧ BroughtBack w s t lit

/-- Every assignment can be taken back, up to the first that is none. -/
def AllRestorable (w : ShellWorld) (forCommand : Bool) :
    List Bytes → List ShellAssignmentEntry → ShellVariables → Prop
  | _, [], _ => True
  | taken, entry :: entries, s =>
    ∀ t ∈ assignmentTarget s entry.text,
      Restorable w forCommand taken s t entry.isArrayLiteral ∧
        AllRestorable w forCommand
          (if (assignEntry w forCommand s t entry.isArrayLiteral).1 then t.name :: taken else taken)
          entries (assignEntry w forCommand s t entry.isArrayLiteral).2

abbrev Backups (w : ShellWorld) (s : ShellVariables) :=
  Changes cell VariableCell.view (restoreBackup w) (Along s)

theorem noSpecial (s : ShellVariables) (w : ShellWorld) (hrandom : t.name ≠ ascii "RANDOM")
    (hseconds : t.name ≠ ascii "SECONDS") (value : Bytes) :
    shellHandleSpecialAssignment w s t.name value = none := by
  rw [shellHandleSpecialAssignment, if_neg hrandom, if_neg hseconds]

theorem applyAssignments_changes {taken : List Bytes} {entries : List ShellAssignmentEntry}
    {s : ShellVariables} (h : AllRestorable w forCommand taken entries s) :
    ∃ l, Backups w s s l (applyAssignments w forCommand entries s).2.2 ∧
      (applyAssignments w forCommand entries s).2.1 = l.map Prod.snd ∧
      (∀ n ∈ l.map Prod.fst, n ∉ taken) ∧
      Along s (applyAssignments w forCommand entries s).2.2 := by
  induction entries generalizing taken s with
  | nil => exact ⟨[], .nil s, rfl, fun n hn => absurd hn not_mem_nil, rfl, rfl, id, Iff.rfl⟩
  | cons entry entries ih =>
    rw [applyAssignments]
    cases htarget : assignmentTarget s entry.text with
    | none =>
      exact ⟨[], .nil s, rfl, fun n hn => absurd hn not_mem_nil, rfl, rfl, id, Iff.rfl⟩
    | some t =>
      obtain ⟨hone, hrest⟩ := h t htarget
      dsimp only
      rw [noSpecial s w hone.random hone.seconds]
      dsimp only
      obtain ⟨hset, hok, hfail⟩ :=
        assignEntry_spec hone.toPlain fun hok => (hone.back hok).2.global
      generalize hr : assignEntry w forCommand s t entry.isArrayLiteral = r at hrest hset hok hfail
      obtain ⟨l, hchanges, hbackups, hnew, halong⟩ := ih hrest
      have hside : Along r.2 = Along s := hset.along
      rw [Backups, hside] at hchanges
      rw [hside] at halong
      rw [hbackups]
      cases hr1 : r.1 with
      | false =>
        rw [hr1, if_neg (by simp)] at hnew
        exact ⟨l, .skip (hfail hr1) hchanges, by rw [if_neg (by simp)], hnew, halong⟩
      | true =>
        rw [hr1, if_pos rfl] at hnew
        obtain ⟨hro, hassigned⟩ := hok hr1
        obtain ⟨hfresh, hback⟩ := hone.back (hr ▸ hr1)
        refine ⟨(t.name, s.backup t.name) :: l, .step hset.touches (hassigned.undoes hback hro)
          (fun hmem => hnew _ hmem mem_cons_self) hchanges, by rw [if_pos rfl]; rfl,
          fun n hn => ?_, halong⟩
        rcases mem_cons.mp hn with rfl | hn
        · exact hfresh
        · exact fun hmem => hnew n hn (mem_cons_of_mem _ hmem)

end

end

/-! ## runs -/

/-- arithmetic that knows constants only, and nothing that expands -/
def constantWorld : ShellWorld where
  scanner := backslashScanner
  valuation _ := constantValuation
  evaluated s _ := s
  attributed _ _ _ := none
  time := 0

/-- a list `m` is all there is -/
def listOnly : ShellVariables where
  environment name := if name = ascii "m" then some (ascii "(a b)") else none
  unexported name := name = ascii "m"
  pending _ := false
  arrays name := if name = ascii "m" then some (.indexed [ascii "a", ascii "b"]) else none
  frames := []
  readonly _ := false
  privileged := false
  allexport := false
  localizing := false
  ifsUnset := false
  randomSeed := none
  secondsBase := 0

theorem plain_command {s : ShellVariables} {name value : Bytes} (w : ShellWorld) :
    Plain w true s ⟨name, none, value⟩ false := ⟨nofun, nofun, nofun⟩

theorem listOnly_restorable :
    AllRestorable constantWorld true []
      [⟨ascii "x=1", false⟩, ⟨ascii "m=2", false⟩] listOnly := by
  intro t ht
  have htarget : assignmentTarget listOnly (ascii "x=1") =
      some ⟨ascii "x", none, ascii "1"⟩ := by decide +kernel
  obtain rfl : _ = t := some_inj.mp (htarget.symm.trans ht)
  refine ⟨⟨plain_command _, by decide, by decide, fun _ => ⟨nofun, ?_, ?_, ?_, ?_, ?_⟩⟩, ?_⟩
  · exact fun _ => ⟨by decide +kernel, by decide +kernel⟩
  · exact fun h => absurd h (by decide +kernel)
  · exact fun _ => by decide +kernel
  · exact fun h => absurd h (by decide)
  · exact fun h => absurd h (by decide +kernel)
  generalize hs : (assignEntry constantWorld true listOnly ⟨ascii "x", none, ascii "1"⟩ false).2 = s
  have hbackup : s.backup (ascii "m") =
      ⟨ascii "m", ascii "(a b)", true, true, false, false, false⟩ := by
    rw [← hs]
    decide +kernel
  have hfind : s.shellLocalScopeFind (ascii "m") = none := by
    rw [← hs]
    rfl
  have hloc : s.localizes (ascii "m") = false := by
    rw [← hs]
    decide +kernel
  have harray : s.arrays (ascii "m") = some (.indexed [ascii "a", ascii "b"]) := by
    rw [← hs]
    decide +kernel
  intro t ht
  have htarget : assignmentTarget s (ascii "m=2") = some ⟨ascii "m", none, ascii "2"⟩ := by
    rw [← hs]
    decide +kernel
  obtain rfl : _ = t := some_inj.mp (htarget.symm.trans ht)
  refine ⟨⟨plain_command _, by decide, by decide,
    fun _ => ⟨by decide +kernel, ?_, ?_, ?_, ?_, ?_⟩⟩, trivial⟩
  · exact fun _ => ⟨hfind, hloc⟩
  · intro _
    refine ⟨fun _ => rfl, fun v after _ => ?_⟩
    have hparse : shellParseArrayLiteral constantWorld.scanner (ascii "(a b)") =
        some ⟨.indexed, [], [ascii "a", ascii "b"]⟩ := by decide +kernel
    show shellArrayRegistryAssignFromText v constantWorld.scanner after
      (some (s.backup (ascii "m")).previousValue) = s.arrays (ascii "m")
    rw [hbackup, harray, shellArrayRegistryAssignFromText]
    simp only [hparse]
  · exact fun h => by simp [hbackup] at h
  · exact fun h => absurd h (by decide)
  · exact fun h => by simp [hloc] at h

end ShellVariables

end Pscal.Shell
