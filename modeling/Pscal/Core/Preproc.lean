import Mathlib
import Pscal.Paths.Truncate
import Pscal.Shell.Arithmetic
import Pscal.Symbol.Buckets

/-!
# Conditional lines

`preprocessConditionals` of `core/preproc.c`.  A text is its bytes before the terminator, and its
lines are what stands between the newlines.

* `directiveOf`  what a line says, with the argument of it;
* `evaluateCondition`  the condition of an `ifdef`;
* `PreprocState`, `processLine`  one line, with the flag and the stack of the conditionals;
* `follow`, `taken`  the branches that are open, with the conditions in front of them;
* `Faithful`  every line comes out as its conditionals say;
* `preprocessConditionals_shallow`  it does so up to 64 conditionals in one another.
-/

namespace Pscal.Preproc

open List Option
open Wire (Bytes)
open Paths (ascii)
open Shell (isspace isalpha)

/-! ## conditions -/

/-- the defines, and what the registry of the extended builtins has -/
structure PreprocEnv where
  defines : List (Option Bytes)
  extBuiltinHasCategory : Bytes → Bool
  extBuiltinHasFunction : Bytes → Bytes → Bool

/-- the bytes up to the next blank, and what follows the blanks behind them -/
def nextWord (p : Bytes) : Bytes × Bytes :=
  (p.takeWhile (!isspace ·), (p.dropWhile (!isspace ·)).dropWhile isspace)

def isDefinedSimple (env : PreprocEnv) (name : Bytes) : Bool :=
  name ≠ [] && env.defines.contains (some name)

/-- `none`: not handled -/
def evaluateExtendedCondition (env : PreprocEnv) (arg : Bytes) : Option Bool :=
  let p := arg.dropWhile isspace
  if Buckets.toLowerString (p.take 8) ≠ ascii "extended" ∨ (p.drop 8).head?.any (!isspace ·) then none
  else
    let (category, rest) := nextWord ((p.drop 8).dropWhile isspace)
    if category = [] then some false
    -- a comment behind the category is no function
    else if rest = [] ∨ rest.take 2 = ascii "//" ∨ rest.take 2 = ascii "/*" then
      some (env.extBuiltinHasCategory category)
    else
      some (env.extBuiltinHasCategory category &&
        env.extBuiltinHasFunction category (nextWord rest).1)

def evaluateCondition (env : PreprocEnv) (arg : Bytes) : Bool :=
  match evaluateExtendedCondition env arg with
  | some result => result
  | none => isDefinedSimple env (nextWord (arg.dropWhile isspace)).1

/-! ## lines -/

inductive Directive where
  | ifdef | ifndef | elif | elseif | «else» | endif | «import»
deriving DecidableEq, Repr

/-- `isPreprocDirectiveName` (`none`: it is not) -/
def Directive.ofName (directive : Bytes) : Option Directive :=
  if directive = ascii "ifdef" then some .ifdef
  else if directive = ascii "ifndef" then some .ifndef
  else if directive = ascii "elif" then some .elif
  else if directive = ascii "elseif" then some .elseif
  else if directive = ascii "else" then some .else
  else if directive = ascii "endif" then some .endif
  else if directive = ascii "import" then some .import
  else none

/-- the directive of a line, of whose word 15 letters are kept, and its argument -/
def directiveOf (line : Bytes) : Option (Directive × Bytes) :=
  match line.dropWhile fun b => b = 32 || b = 9 with
  | [] => none
  | b :: trim =>
    if b ≠ 35 then none
    else
      let word := (trim.dropWhile isspace).takeWhile isalpha
      let arg := ((trim.dropWhile isspace).dropWhile isalpha).dropWhile isspace
      (Directive.ofName (word.take 15)).map fun directive => (directive, arg)

structure IfState where
  outerActive : Bool
  branchTaken : Bool
deriving DecidableEq, Repr

/-- the conditionals that are open, the innermost one first -/
structure PreprocState where
  stack : List IfState := []
  emit : Bool := true
deriving DecidableEq, Repr

abbrev maxNesting : Nat := 64

namespace PreprocState

/-- an `ifdef` or `ifndef`, with its condition -/
def opened (s : PreprocState) (cond : Bool) : PreprocState :=
  if s.stack.length < maxNesting then
    { stack := { outerActive := s.emit, branchTaken := cond && s.emit } :: s.stack,
      emit := cond && s.emit }
  else s

/-- an `elif` with its condition; an `else` is one whose condition holds -/
def alternative (s : PreprocState) (cond : Bool) : PreprocState :=
  match s.stack with
  | [] => s
  | st :: rest =>
    if !st.outerActive || st.branchTaken then { s with emit := false }
    else if cond then { stack := { st with branchTaken := true } :: rest, emit := true }
    else { s with emit := false }

def closed (s : PreprocState) : PreprocState :=
  match s.stack with
  | [] => s
  | st :: rest => { stack := rest, emit := st.outerActive }

end PreprocState

/-- a line, and what comes out of it -/
def processLine (env : PreprocEnv) (s : PreprocState) (line : Bytes) : PreprocState × Bytes :=
  match directiveOf line with
  | none => (s, if s.emit then line else [])
  | some (directive, arg) =>
    match directive with
    | .ifdef => (s.opened (evaluateCondition env arg), [])
    | .ifndef => (s.opened (!evaluateCondition env arg), [])
    | .elif | .elseif => (s.alternative (evaluateCondition env arg), [])
    | .else => (s.alternative true, [])
    | .endif => (s.closed, [])
    | .import => (s, if s.emit then line else [])

def processLines (env : PreprocEnv) : PreprocState → List Bytes → List Bytes
  | _, [] => []
  | s, line :: rest =>
    (processLine env s line).2 :: processLines env (processLine env s line).1 rest

/-- The code stops at the end of the text, so nothing comes out of the empty line behind a last
newline; here that line gives an empty one. -/
def preprocessConditionals (env : PreprocEnv) (source : Bytes) : Bytes :=
  [10].intercalate (processLines env {} (source.splitOn 10))

/-! ## what the conditionals say -/

/-- The branches that enclose the next line, the innermost one first: the condition of each, in
front of those of the branches before it. -/
def follow (env : PreprocEnv) (nest : List (List Bool)) (line : Bytes) : List (List Bool) :=
  match directiveOf line with
  | none => nest
  | some (directive, arg) =>
    match directive with
    | .ifdef => [evaluateCondition env arg] :: nest
    | .ifndef => [!evaluateCondition env arg] :: nest
    | .elif | .elseif => nest.modifyHead (evaluateCondition env arg :: ·)
    | .else => nest.modifyHead (true :: ·)
    | .endif => nest.tail
    | .import => nest

def taken : List Bool → Bool
  | [] => false
  | cond :: earlier => cond && !earlier.any id

def plain (line : Bytes) : Bool :=
  match directiveOf line with
  | none => true
  | some (directive, _) => directive = .import

/-- the branches around line `i` -/
def nestAt (env : PreprocEnv) (lines : List Bytes) (i : Nat) : List (List Bool) :=
  (lines.take i).foldl (follow env) []

/-- As many lines come out as go in, and each is the line of the source or empty. -/
def Faithful (env : PreprocEnv) (source : Bytes) : Prop :=
  ((preprocessConditionals env source).splitOn 10).length = (source.splitOn 10).length ∧
    ∀ i line, (source.splitOn 10)[i]? = some line →
      ((preprocessConditionals env source).splitOn 10)[i]? =
        some (if plain line ∧ ∀ branch ∈ nestAt env (source.splitOn 10) i, taken branch = true
          then line else [])

def opens (line : Bytes) : Bool :=
  match directiveOf line with
  | none => false
  | some (directive, _) => directive ∈ [.ifdef, .ifndef]

/-- No more than 64 conditionals are open at once. -/
def Shallow (env : PreprocEnv) (lines : List Bytes) : Prop :=
  ∀ i, (nestAt env lines i).length ≤ maxNesting

/-! ## the flag and the stack -/

/-- The stack holds, for each branch around the next line, whether what is outside of it is active,
and whether a branch of the conditional was taken there. -/
def Stands : Bool → List IfState → List (List Bool) → Prop
  | emit, [], [] => emit = true
  | emit, st :: stack, branch :: nest =>
    Stands st.outerActive stack nest ∧
      st.branchTaken = (st.outerActive && branch.any id) ∧
      emit = (st.outerActive && taken branch)
  | _, _, _ => False

variable {nest : List (List Bool)} {s : PreprocState} {line : Bytes} {lines : List Bytes}

theorem stands_length {emit : Bool} {stack : List IfState} (h : Stands emit stack nest) :
    stack.length = nest.length := by
  induction stack generalizing emit nest with
  | nil =>
    cases nest with
    | nil => rfl
    | cons branch nest => exact h.elim
  | cons st stack ih =>
    cases nest with
    | nil => exact h.elim
    | cons branch nest => simp [ih h.1]

theorem stands_emit {emit : Bool} {stack : List IfState} (h : Stands emit stack nest) :
    emit = true ↔ ∀ branch ∈ nest, taken branch = true := by
  induction stack generalizing emit nest with
  | nil =>
    cases nest with
    | nil => simpa [Stands] using h
    | cons branch nest => exact h.elim
  | cons st stack ih =>
    cases nest with
    | nil => exact h.elim
    | cons branch nest =>
      obtain ⟨houter, -, hemit⟩ := h
      rw [hemit, Bool.and_eq_true, ih houter, forall_mem_cons, and_comm]

theorem stands_opened (h : Stands s.emit s.stack nest) (hroom : nest.length < maxNesting)
    (cond : Bool) : Stands (s.opened cond).emit (s.opened cond).stack ([cond] :: nest) := by
  rw [PreprocState.opened, if_pos (by rw [stands_length h]; exact hroom)]
  refine ⟨h, ?_, ?_⟩
  · simp [Bool.and_comm]
  · simp [taken, Bool.and_comm]

theorem stands_alternative (h : Stands s.emit s.stack nest) (cond : Bool) :
    Stands (s.alternative cond).emit (s.alternative cond).stack (nest.modifyHead (cond :: ·)) := by
  obtain ⟨stack, emit⟩ := s
  cases stack with
  | nil =>
    cases nest with
    | nil => exact h
    | cons branch nest => exact h.elim
  | cons st stack =>
    cases nest with
    | nil => exact h.elim
    | cons branch nest =>
      obtain ⟨outerActive, branchTaken⟩ := st
      obtain ⟨houter, htaken, -⟩ := h
      simp only at htaken houter
      subst htaken
      -- the conditional stays shut outside, has had its branch, or takes this one
      cases outerActive <;> cases hany : branch.any id <;> cases cond <;>
        simp [PreprocState.alternative, Stands, taken, houter, hany]

theorem stands_closed (h : Stands s.emit s.stack nest) :
    Stands s.closed.emit s.closed.stack nest.tail := by
  obtain ⟨stack, emit⟩ := s
  cases stack with
  | nil =>
    cases nest with
    | nil => exact h
    | cons branch nest => exact h.elim
  | cons st stack =>
    cases nest with
    | nil => exact h.elim
    | cons branch nest => exact h.1

variable {env : PreprocEnv}

theorem stands_processLine (h : Stands s.emit s.stack nest)
    (hroom : (follow env nest line).length ≤ maxNesting) :
    Stands (processLine env s line).1.emit (processLine env s line).1.stack
      (follow env nest line) := by
  unfold processLine follow at *
  cases hline : directiveOf line with
  | none => exact h
  | some d =>
    obtain ⟨directive, arg⟩ := d
    rw [hline] at hroom
    cases directive with
    | ifdef => exact stands_opened h hroom _
    | ifndef => exact stands_opened h hroom _
    | elif => exact stands_alternative h _
    | elseif => exact stands_alternative h _
    | «else» => exact stands_alternative h _
    | endif => exact stands_closed h
    | «import» => exact h

theorem processLine_snd (s : PreprocState) (line : Bytes) :
    (processLine env s line).2 = if plain line ∧ s.emit = true then line else [] := by
  unfold processLine plain
  cases hline : directiveOf line with
  | none => simp
  | some d =>
    obtain ⟨directive, arg⟩ := d
    cases directive <;> simp

/-! ## all the lines -/

/-- the state in front of line `i` -/
def stateAt (env : PreprocEnv) (lines : List Bytes) (i : Nat) : PreprocState :=
  (lines.take i).foldl (fun s line => (processLine env s line).1) {}

theorem processLines_getElem? (s : PreprocState) (lines : List Bytes) (i : Nat) :
    (processLines env s lines)[i]? = lines[i]?.map fun line =>
      (processLine env ((lines.take i).foldl (fun s line => (processLine env s line).1) s)
        line).2 := by
  induction lines generalizing s i with
  | nil => simp [processLines]
  | cons line rest ih =>
    cases i with
    | zero => simp [processLines]
    | succ i => simpa [processLines] using ih _ i

theorem processLines_length (s : PreprocState) (lines : List Bytes) :
    (processLines env s lines).length = lines.length := by
  induction lines generalizing s with
  | nil => rfl
  | cons line rest ih => simp [processLines, ih]

theorem foldl_take_succ {α β : Type} (f : β → α → β) (b : β) {l : List α} {i : Nat} {a : α}
    (h : l[i]? = some a) : (l.take (i + 1)).foldl f b = f ((l.take i).foldl f b) a := by
  rw [take_add_one, h, foldl_append]
  rfl

theorem stands_stateAt (h : Shallow env lines) {i : Nat} (hi : i ≤ lines.length) :
    Stands (stateAt env lines i).emit (stateAt env lines i).stack (nestAt env lines i) := by
  induction i with
  | zero => rfl
  | succ i ih =>
    have hline : lines[i]? = some lines[i] := getElem?_eq_getElem hi
    have hroom := h (i + 1)
    rw [nestAt, foldl_take_succ _ _ hline] at hroom
    rw [stateAt, nestAt, foldl_take_succ _ _ hline, foldl_take_succ _ _ hline]
    exact stands_processLine (ih (Nat.le_of_lt hi)) hroom

theorem not_mem_of_mem_splitOn {source : Bytes} (h : line ∈ source.splitOn 10) : 10 ∉ line := by
  induction source generalizing line with
  | nil => simp_all
  | cons b source ih =>
    rw [splitOn_cons_eq_if_modifyHead] at h
    by_cases hb : (b == 10) = true
    · rw [if_pos hb] at h
      rcases mem_cons.mp h with rfl | h
      · simp
      · exact ih h
    · rw [if_neg hb] at h
      cases hs : source.splitOn 10 with
      | nil => exact absurd hs (splitOn_ne_nil _ _)
      | cons first rest =>
        rw [hs, modifyHead_cons] at h
        rcases mem_cons.mp h with rfl | h
        · have hfirst := ih (hs ▸ mem_cons_self)
          intro hmem
          rcases mem_cons.mp hmem with rfl | hmem
          · exact hb rfl
          · exact hfirst hmem
        · exact ih (hs ▸ mem_cons_of_mem _ h)

theorem splitOn_preprocessConditionals (source : Bytes) :
    (preprocessConditionals env source).splitOn 10 = processLines env {} (source.splitOn 10) := by
  refine splitOn_intercalate 10 ?_ ?_
  · intro line hline
    obtain ⟨i, hi⟩ := mem_iff_getElem?.mp hline
    rw [processLines_getElem?] at hi
    obtain ⟨sourceLine, hsource, rfl⟩ := map_eq_some_iff.mp hi
    rw [processLine_snd]
    split
    · exact not_mem_of_mem_splitOn (mem_of_getElem? hsource)
    · simp
  · intro hnil
    have hlength : (processLines env {} (source.splitOn 10)).length = _ := processLines_length _ _
    rw [hnil] at hlength
    exact splitOn_ne_nil 10 source (length_eq_zero_iff.mp hlength.symm)

theorem faithful_iff (source : Bytes) : Faithful env source ↔
    ∀ i line, (source.splitOn 10)[i]? = some line →
      (if plain line ∧ (stateAt env (source.splitOn 10) i).emit = true then line else []) =
        if plain line ∧ ∀ branch ∈ nestAt env (source.splitOn 10) i, taken branch = true
          then line else [] := by
  unfold Faithful
  rw [splitOn_preprocessConditionals]
  simp only [processLines_length, true_and]
  refine forall₃_congr fun i line hline => ?_
  rw [processLines_getElem?, hline, map_some, processLine_snd, some.injEq]
  rfl

theorem faithful_of_shallow {source : Bytes} (h : Shallow env (source.splitOn 10)) :
    Faithful env source := by
  rw [faithful_iff]
  intro i line hline
  have hi := (List.getElem?_eq_some_iff.mp hline).1
  simp only [stands_emit (stands_stateAt h (Nat.le_of_lt hi))]

/-! ## one conditional too many -/

theorem follow_length_of_opens (env : PreprocEnv) (nest : List (List Bool)) (h : opens line = true)
    : ∃ cond, follow env nest line = [cond] :: nest ∧ ∀ s : PreprocState,
      maxNesting ≤ s.stack.length → (processLine env s line).1 = s := by
  unfold opens at h
  unfold follow processLine
  cases hline : directiveOf line with
  | none => simp [hline] at h
  | some d =>
    obtain ⟨directive, arg⟩ := d
    rw [hline] at h
    cases directive <;> simp at h
    · exact ⟨evaluateCondition env arg, rfl, fun s hs => if_neg (by simpa using hs)⟩
    · exact ⟨!evaluateCondition env arg, rfl, fun s hs => if_neg (by simpa using hs)⟩

theorem follow_length_le (h : opens line = false) :
    (follow env nest line).length ≤ nest.length := by
  unfold opens at h
  unfold follow
  cases hline : directiveOf line with
  | none => exact le_refl _
  | some d =>
    obtain ⟨directive, arg⟩ := d
    rw [hline] at h
    cases directive <;> simp at h ⊢

theorem foldl_follow_length_le (h : ∀ line ∈ lines, opens line = false) (nest : List (List Bool)) :
    (lines.foldl (follow env) nest).length ≤ nest.length := by
  induction lines generalizing nest with
  | nil => exact le_refl _
  | cons line rest ih =>
    have hline := h line mem_cons_self
    have hrest := ih (fun l hl => h l (mem_cons_of_mem _ hl)) (follow env nest line)
    exact hrest.trans (follow_length_le hline)

theorem shallow_append {kept rest : List Bytes} (h : Shallow env lines) (hkept : kept <+: lines)
    (hrest : ∀ line ∈ rest, opens line = false) : Shallow env (kept ++ rest) := by
  intro i
  obtain ⟨dropped, rfl⟩ := hkept
  rw [nestAt, take_append, foldl_append]
  refine (foldl_follow_length_le (fun l hl => hrest l (mem_of_mem_take hl)) _).trans ?_
  have hi := h (min i kept.length)
  rw [nestAt, take_append_of_le_length (Nat.min_le_right _ _)] at hi
  simpa [take_eq_take_min] using hi

theorem shallow_nil : Shallow env (([10].intercalate []).splitOn 10) := by
  intro i
  cases i with
  | zero => exact Nat.zero_le _
  | succ i =>
    have hline : directiveOf [] = none := rfl
    simp [nestAt, follow, hline]

/-- There is a line that opens one conditional too many, and the first one is the place where the
stack is full. -/
theorem exists_opens (h : ¬ Shallow env lines) :
    ∃ i line, lines[i]? = some line ∧ opens line = true ∧
      (nestAt env lines i).length = maxNesting ∧ Shallow env (lines.take i) := by
  have hex : ∃ i, ¬ (nestAt env lines i).length ≤ maxNesting := by simpa [Shallow] using h
  have hfound := Nat.find_spec hex
  have hbefore : ∀ j < Nat.find hex, (nestAt env lines j).length ≤ maxNesting := by
    intro j hj
    simpa using Nat.find_min hex hj
  generalize Nat.find hex = n at hfound hbefore
  cases n with
  | zero => exact absurd (Nat.zero_le _) hfound
  | succ i =>
    have hi := hbefore i (Nat.lt_succ_self i)
    cases hline : lines[i]? with
    | none =>
      have hlen : lines.length ≤ i := List.getElem?_eq_none_iff.mp hline
      rw [nestAt, take_of_length_le (by omega)] at hfound
      rw [nestAt, take_of_length_le hlen] at hi
      exact absurd hi hfound
    | some line =>
      rw [nestAt, foldl_take_succ _ _ hline] at hfound
      change ¬ (follow env (nestAt env lines i) line).length ≤ maxNesting at hfound
      cases hopens : opens line with
      | false => exact absurd ((follow_length_le hopens).trans hi) hfound
      | true =>
        obtain ⟨cond, hfollow, -⟩ := follow_length_of_opens env (nestAt env lines i) hopens
        rw [hfollow, length_cons] at hfound
        refine ⟨i, line, hline, hopens, by omega, fun j => ?_⟩
        rw [nestAt, take_take]
        exact hbefore _ (by omega)

def endifLine : Bytes := ascii "#endif"
def elseLine : Bytes := ascii "#else"

theorem directiveOf_endifLine : directiveOf endifLine = some (.endif, []) := by decide
theorem directiveOf_elseLine : directiveOf elseLine = some (.else, []) := by decide

theorem processLine_endifLine (s : PreprocState) : (processLine env s endifLine).1 = s.closed := by
  rw [processLine, directiveOf_endifLine]

theorem processLine_elseLine (s : PreprocState) :
    (processLine env s elseLine).1 = s.alternative true := by
  rw [processLine, directiveOf_elseLine]

theorem follow_endifLine (nest : List (List Bool)) : follow env nest endifLine = nest.tail := by
  rw [follow, directiveOf_endifLine]

theorem follow_elseLine (nest : List (List Bool)) :
    follow env nest elseLine = nest.modifyHead (true :: ·) := by
  rw [follow, directiveOf_elseLine]

theorem processLine_endifLines (h : Stands s.emit s.stack nest) :
    (replicate nest.length endifLine).foldl (fun s line => (processLine env s line).1) s =
      {} := by
  induction nest generalizing s with
  | nil =>
    obtain ⟨stack, emit⟩ := s
    cases stack with
    | nil => simpa [Stands] using h
    | cons st stack => exact h.elim
  | cons branch nest ih =>
    rw [length_cons, replicate_succ, foldl_cons, processLine_endifLine]
    exact ih (stands_closed h)

theorem follow_endifLines (n : Nat) (nest : List (List Bool)) :
    (replicate n endifLine).foldl (follow env) nest = nest.drop n := by
  induction n generalizing nest with
  | zero => rfl
  | succ n ih => rw [replicate_succ, foldl_cons, follow_endifLine, ih, drop_tail]

/-- Closes 64 conditionals, then begins two last branches of the one that is left. -/
def closing : List Bytes := List.replicate maxNesting endifLine ++ [elseLine, elseLine]

theorem mem_closing (h : line ∈ closing ++ [ascii "x"]) : 10 ∉ line ∧ opens line = false := by
  simp only [closing, mem_append, mem_cons, not_mem_nil, or_false, mem_replicate] at h
  rcases h with (⟨-, rfl⟩ | rfl | rfl) | rfl <;> decide

variable {before : List Bytes}

theorem stateAt_closing (h : Shallow env before) (hopens : opens line = true)
    (hfull : (before.foldl (follow env) []).length = maxNesting) :
    ((before ++ [line] ++ closing).foldl (fun s line => (processLine env s line).1) {}) = {} := by
  have hstands := stands_stateAt h (le_refl before.length)
  rw [stateAt, nestAt, take_length] at hstands
  have hstack := stands_length hstands
  obtain ⟨-, -, hskip⟩ := follow_length_of_opens env [] hopens
  rw [foldl_append, foldl_append, foldl_cons, foldl_nil,
    hskip _ (by rw [hstack, hfull]), closing, foldl_append, ← hfull,
    processLine_endifLines hstands, foldl_cons, processLine_elseLine, foldl_cons,
    processLine_elseLine]
  rfl

theorem nestAt_closing (env : PreprocEnv) (hopens : opens line = true)
    (hfull : (before.foldl (follow env) []).length = maxNesting) :
    ∃ branch, (before ++ [line] ++ closing).foldl (follow env) [] = [true :: true :: branch] := by
  obtain ⟨cond, hfollow, -⟩ := follow_length_of_opens env (before.foldl (follow env) []) hopens
  have hone : (([cond] :: before.foldl (follow env) []).drop maxNesting).length = 1 := by
    rw [length_drop, length_cons, hfull, Nat.add_sub_cancel_left]
  obtain ⟨branch, hbranch⟩ := length_eq_one_iff.mp hone
  refine ⟨branch, ?_⟩
  rw [foldl_append, foldl_append, foldl_cons, foldl_nil, hfollow, closing,
    foldl_append, follow_endifLines, hbranch, foldl_cons, follow_elseLine,
    foldl_cons, follow_elseLine]
  rfl

theorem not_faithful_closing (h : Shallow env before) (hopens : opens line = true)
    (hfull : (before.foldl (follow env) []).length = maxNesting)
    (hnewline : ∀ l ∈ before ++ [line], 10 ∉ l) :
    ¬ Faithful env ([10].intercalate (before ++ [line] ++ (closing ++ [ascii "x"]))) := by
  have hlines : ([10].intercalate (before ++ [line] ++ (closing ++ [ascii "x"]))).splitOn 10 =
      before ++ [line] ++ closing ++ [ascii "x"] := by
    rw [append_assoc _ closing]
    refine splitOn_intercalate 10 (fun l hl => ?_) (by simp)
    rcases mem_append.mp hl with hl | hl
    · exact hnewline l hl
    · exact (mem_closing hl).1
  obtain ⟨branch, hbranch⟩ := nestAt_closing env hopens hfull
  rw [faithful_iff, hlines]
  intro hfaithful
  have hx := hfaithful (before ++ [line] ++ closing).length (ascii "x") (by simp)
  rw [stateAt, nestAt, take_left, stateAt_closing h hopens hfull, hbranch] at hx
  have hplain : plain (ascii "x") = true := by decide
  simp [hplain, taken] at hx
  exact absurd hx (by decide)

/-- Up to 64 conditionals in one another every line comes out as it should; and no text may go
deeper, as it has a beginning that only `endif`, `elif`, `else` and other lines need to follow for
some line to come out wrong. -/
theorem preprocessConditionals_shallow (env : PreprocEnv) (source : Bytes) :
    (Shallow env (source.splitOn 10) → Faithful env source) ∧
      (Shallow env (source.splitOn 10) ↔
        ∀ kept rest, kept <+: source.splitOn 10 →
          (∀ line ∈ rest, 10 ∉ line ∧ opens line = false) →
          Faithful env ([10].intercalate (kept ++ rest))) := by
  refine ⟨faithful_of_shallow, fun h kept rest hkept hrest => ?_, fun h => ?_⟩
  · have hshallow := shallow_append h hkept fun l hl => (hrest l hl).2
    refine faithful_of_shallow ?_
    by_cases hnil : kept ++ rest = []
    · rw [hnil]
      exact shallow_nil
    · rw [splitOn_intercalate 10 (fun l hl => ?_) hnil]
      · exact hshallow
      · rcases mem_append.mp hl with hl | hl
        · exact not_mem_of_mem_splitOn (hkept.subset hl)
        · exact (hrest l hl).1
  · by_contra hdeep
    obtain ⟨i, line, hline, hopens, hfull, hbefore⟩ := exists_opens hdeep
    have htake : (source.splitOn 10).take i ++ [line] = (source.splitOn 10).take (i + 1) := by
      rw [take_add_one, hline]
      rfl
    have hpre : (source.splitOn 10).take i ++ [line] <+: source.splitOn 10 := by
      rw [htake]
      exact take_prefix _ _
    exact not_faithful_closing hbefore hopens hfull
      (fun l hl => not_mem_of_mem_splitOn (hpre.subset hl))
      (h _ _ hpre fun l hl => mem_closing hl)

def noDefines : PreprocEnv where
  defines := []
  extBuiltinHasCategory _ := false
  extBuiltinHasFunction _ _ := false

def heldLine : Bytes := ascii "#ifndef a"

theorem follow_heldLines (n : Nat) :
    (replicate n heldLine).foldl (follow noDefines) [] = replicate n [true] := by
  induction n with
  | zero => rfl
  | succ n ih =>
    rw [replicate_succ', foldl_append, ih, foldl_cons, foldl_nil]
    rfl

theorem emit_of_shallow (h : Shallow noDefines before)
    (hall : ∀ branch ∈ before.foldl (follow noDefines) [], taken branch = true) :
    (before.foldl (fun s line => (processLine noDefines s line).1) {}).emit = true ∧
      (before.foldl (fun s line => (processLine noDefines s line).1) {}).stack.length =
        (before.foldl (follow noDefines) []).length := by
  have hstands := stands_stateAt h (le_refl before.length)
  rw [stateAt, nestAt, take_length] at hstands
  exact ⟨(stands_emit hstands).mpr hall, stands_length hstands⟩

theorem shallow_heldLines : Shallow noDefines (replicate maxNesting heldLine) := by
  intro i
  rw [nestAt, take_replicate, follow_heldLines, length_replicate]
  exact Nat.min_le_right _ _

def deepLines : List Bytes :=
  List.replicate maxNesting heldLine ++ [ascii "#ifdef a"] ++ [ascii "x"]

/-- The line within them comes out. -/
theorem not_faithful_deep : ¬ Faithful noDefines ([10].intercalate deepLines) := by
  have hlines : ([10].intercalate deepLines).splitOn 10 = deepLines :=
    splitOn_intercalate 10 (by decide) (by decide)
  have hall : ∀ branch ∈ (replicate maxNesting heldLine).foldl (follow noDefines) [],
      taken branch = true := by
    intro branch hbranch
    rw [follow_heldLines] at hbranch
    rw [eq_of_mem_replicate hbranch]
    rfl
  obtain ⟨hemit, hlength⟩ := emit_of_shallow shallow_heldLines hall
  rw [follow_heldLines, length_replicate] at hlength
  obtain ⟨-, -, hskip⟩ := follow_length_of_opens noDefines []
    (show opens (ascii "#ifdef a") = true by decide)
  have hfollow : ∀ nest, follow noDefines nest (ascii "#ifdef a") = [false] :: nest :=
    fun nest => rfl
  have hplain : plain (ascii "x") = true := by decide
  rw [faithful_iff, hlines]
  intro h
  have hx := h (List.replicate maxNesting heldLine ++ [ascii "#ifdef a"]).length (ascii "x")
    (by simp [deepLines])
  rw [stateAt, nestAt, deepLines, take_left, foldl_append, foldl_append,
    foldl_cons, foldl_nil, hskip _ hlength.ge, hemit, foldl_cons, foldl_nil,
    hfollow, if_pos ⟨hplain, rfl⟩,
    if_neg (fun hand => absurd (hand.2 [false] mem_cons_self) (by decide))] at hx
  exact absurd hx (by decide)

end Pscal.Preproc
