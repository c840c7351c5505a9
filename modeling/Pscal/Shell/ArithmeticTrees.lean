import Pscal.Shell.Arithmetic
import Pscal.Lib.Except

/-!
# Expressions of the shell as trees

What the levels of `shell_arithmetic.inc` read, apart from what they do while they read it.

* `ArithmeticTree`, `ArithmeticTree.eval`  an expression, and its value with its effects;
* `treePrimary` … `treeComma`, `arithmeticTree`  the tree of a text, level by level;
* `LevelsEvaluate`, `levels_evaluate`  each level does what the tree it reads evaluates to;
* `shellArithmeticEvaluateText_eq`  and so does the evaluation of a text.
-/

namespace Pscal.Shell

open List Checks
open Wire (Bytes)
open DecimalText (isDigit)

inductive ArithmeticTree where
  | number (value : Word)
  | read (lvalue : ShellArithmeticLvalue)
  /-- `x++` -/
  | thenStep (lvalue : ShellArithmeticLvalue) (increment : Bool)
  /-- `++x` -/
  | stepped (increment : Bool) (lvalue : ShellArithmeticLvalue)
  | unary (op : UnaryOp) (operand : ArithmeticTree)
  | binary (op : ArithmeticOp) (lhs rhs : ArithmeticTree)
  | conditional (condition whenTrue whenFalse : ArithmeticTree)
  | assign (lvalue : ShellArithmeticLvalue) (op : Option CompoundOp) (rhs : ArithmeticTree)
  | comma (first second : ArithmeticTree)
deriving DecidableEq, Repr

/-! ## evaluation -/

section
variable {σ : Type} (world : ArithmeticWorld σ) (label : String)
  (evaluate : Option (Bytes → Evaluation σ Word))

def ArithmeticTree.eval : Nat → ArithmeticTree → Evaluation σ Word
  | _, .number value => pure value
  | noeval, .read lvalue => shellArithmeticReadVariable world label evaluate noeval lvalue
  | noeval, .thenStep lvalue increment => do
    let value ← shellArithmeticReadVariable world label evaluate noeval lvalue
    shellArithmeticStoreVariable world label noeval lvalue (stepValue world increment value)
    pure value
  | noeval, .stepped increment lvalue => do
    let value ← shellArithmeticReadVariable world label evaluate noeval lvalue
    shellArithmeticStoreVariable world label noeval lvalue (stepValue world increment value)
    pure (stepValue world increment value)
  | noeval, .unary op operand => do
    let value ← operand.eval noeval
    pure (op.apply value)
  | noeval, .binary op lhs rhs => do
    let left ← lhs.eval noeval
    let right ← rhs.eval (if skips op left then noeval + 1 else noeval)
    orFail world label (applyBinary noeval op left right)
  | noeval, .conditional condition whenTrue whenFalse => do
    let test ← condition.eval noeval
    let first ← whenTrue.eval (if test = 0 then noeval + 1 else noeval)
    let second ← whenFalse.eval (if test ≠ 0 then noeval + 1 else noeval)
    pure (if test ≠ 0 then first else second)
  | noeval, .assign lvalue none rhs => do
    let value ← rhs.eval noeval
    shellArithmeticStoreVariable world label noeval lvalue value
    pure value
  | noeval, .assign lvalue (some op) rhs => do
    let right ← rhs.eval noeval
    let current ← shellArithmeticReadVariable world label evaluate noeval lvalue
    let value ← orFail world label (shellArithmeticApply noeval op.op current right)
    shellArithmeticStoreVariable world label noeval lvalue value
    pure value
  | noeval, .comma first second => do
    let _ ← first.eval noeval
    second.eval noeval

end

/-! ## the tree of a text -/

inductive TreeError where
  | syntaxError (message : String)
  | outOfFuel
deriving DecidableEq, Repr

def orSyntaxError {α : Type} : Except String α → Except TreeError α
  | .ok a => .ok a
  | .error message => .error (.syntaxError message)

section
variable (identifiers : IdentifierScanner) (text : Bytes)

mutual

def treePrimary : Nat → Cursor → Except TreeError (ArithmeticTree × Cursor)
  | 0, _ => .error .outOfFuel
  | fuel + 1, c =>
    let c := shellArithmeticSkipWhitespace text c
    match text[c.pos]? with
    | none => .error (.syntaxError "syntax error: operand expected")
    | some ch =>
      if ch = openParen then do
        let (tree, c) ← treeComma fuel (c.advance 1)
        let c := shellArithmeticSkipWhitespace text c
        if text[c.pos]? = some closeParen then .ok (tree, c.advance 1)
        else .error (.syntaxError "missing `)'")
      else if isDigit ch then do
        let (value, c) ← orSyntaxError (shellArithmeticParseNumber text c)
        .ok (.number value, c)
      else do
        match ← orSyntaxError (shellArithmeticParseLvalue identifiers text c) with
        | none => .error (.syntaxError "syntax error: operand expected")
        | some (lvalue, c) =>
          let c := shellArithmeticSkipWhitespace text c
          match peekStep text c with
          | some increment => .ok (.thenStep lvalue increment, c.advance 2)
          | none => .ok (.read lvalue, c)

def treeUnary : Nat → Cursor → Except TreeError (ArithmeticTree × Cursor)
  | 0, _ => .error .outOfFuel
  | fuel + 1, c => do
    let c := shellArithmeticSkipWhitespace text c
    match text[c.pos]? with
    | none => .error (.syntaxError "syntax error: operand expected")
    | some ch =>
      match ← orSyntaxError (steppedLvalue identifiers text c) with
      | some (increment, lvalue, c) =>
        let c ← orSyntaxError (afterStep text c)
        .ok (.stepped increment lvalue, c)
      | none =>
        match UnaryOp.ofByte ch with
        | some op =>
          let (tree, c) ← treeUnary fuel (c.advance 1)
          .ok (.unary op tree, c)
        | none => treePrimary fuel c

def treeBinary : Nat → Nat → Cursor → Except TreeError (ArithmeticTree × Cursor)
  | 0, _, _ => .error .outOfFuel
  | fuel + 1, minPrecedence, c => do
    let (lhs, c) ← treeUnary fuel c
    treeOperators fuel minPrecedence lhs c

def treeOperators : Nat → Nat → ArithmeticTree → Cursor →
    Except TreeError (ArithmeticTree × Cursor)
  | 0, _, _, _ => .error .outOfFuel
  | fuel + 1, minPrecedence, lhs, c => do
    let (op, c) ← orSyntaxError (shellArithmeticPeekBinaryOp text c)
    match op with
    | none => .ok (lhs, c)
    | some op =>
      if op.precedence < minPrecedence then .ok (lhs, c)
      else
        let next := if op.precedence = 11 then op.precedence else op.precedence + 1
        let (rhs, c) ← treeBinary fuel next (c.advance op.text.length)
        treeOperators fuel minPrecedence (.binary op.op lhs rhs) c

def treeTernary : Nat → Cursor → Except TreeError (ArithmeticTree × Cursor)
  | 0, _ => .error .outOfFuel
  | fuel + 1, c => do
    let (condition, c) ← treeBinary fuel 1 c
    let c := shellArithmeticSkipWhitespace text c
    if text[c.pos]? ≠ some 63 then .ok (condition, c)
    else
      let c := shellArithmeticSkipWhitespace text (c.advance 1)
      if text[c.pos]? = none ∨ text[c.pos]? = some 58 then
        .error (.syntaxError "expression expected")
      else
        let (whenTrue, c) ← treeComma fuel c
        let c := shellArithmeticSkipWhitespace text c
        if text[c.pos]? ≠ some 58 then
          .error (.syntaxError "`:' expected for conditional expression")
        else
          let c := shellArithmeticSkipWhitespace text (c.advance 1)
          if text[c.pos]? = none then .error (.syntaxError "expression expected")
          else
            let (whenFalse, c) ← treeTernary fuel c
            .ok (.conditional condition whenTrue whenFalse, c)

def treeAssignment : Nat → Cursor → Except TreeError (ArithmeticTree × Cursor)
  | 0, _ => .error .outOfFuel
  | fuel + 1, c => do
    let c := shellArithmeticSkipWhitespace text c
    let target ← orSyntaxError (shellArithmeticParseLvalue identifiers text c)
    let assignment := target.bind fun target =>
      let behind := shellArithmeticSkipWhitespace text target.2
      (shellArithmeticPeekAssignment text behind).map fun op =>
        (target.1, op.1, behind.advance op.2)
    match assignment with
    | some (lvalue, op, c) =>
      let (rhs, c) ← treeAssignment fuel c
      .ok (.assign lvalue op rhs, c)
    | none =>
      let (tree, c) ← treeTernary fuel c
      let c := shellArithmeticSkipWhitespace text c
      if (shellArithmeticPeekAssignment text c).isSome then
        .error (.syntaxError "attempted assignment to non-variable")
      else .ok (tree, c)

def treeComma : Nat → Cursor → Except TreeError (ArithmeticTree × Cursor)
  | 0, _ => .error .outOfFuel
  | fuel + 1, c => do
    let (tree, c) ← treeAssignment fuel c
    treeList fuel tree c

def treeList : Nat → ArithmeticTree → Cursor → Except TreeError (ArithmeticTree × Cursor)
  | 0, _, _ => .error .outOfFuel
  | fuel + 1, first, c => do
    let c := shellArithmeticSkipWhitespace text c
    if text[c.pos]? ≠ some 44 then .ok (first, c)
    else
      let (second, c) ← treeAssignment fuel (c.advance 1)
      treeList fuel (.comma first second) c

end

/-- the tree of a text; an empty one is 0 -/
def arithmeticTree : Except TreeError ArithmeticTree := do
  let c := shellArithmeticSkipWhitespace text ⟨0, 0⟩
  if text.length ≤ c.pos then .ok (.number 0)
  else
    let (tree, c) ← treeComma identifiers text (levelsFuel text.length) c
    if (shellArithmeticSkipWhitespace text c).pos < text.length then
      .error (.syntaxError "syntax error in expression")
    else .ok tree

end

/-! ## the fuel suffices -/

/-- a level that starts at `c` comes to an end, not before `c` -/
def Ends (c : Cursor) : Except TreeError (ArithmeticTree × Cursor) → Prop
  | .ok r => c.pos ≤ r.2.pos
  | .error (.syntaxError _) => True
  | .error .outOfFuel => False

variable {c : Cursor}

theorem Ends.bind {c₁ : Cursor} {x : Except TreeError (ArithmeticTree × Cursor)}
    {f : ArithmeticTree × Cursor → Except TreeError (ArithmeticTree × Cursor)} (h : Ends c₁ x)
    (hf : ∀ tree c₂, c₁.pos ≤ c₂.pos → Ends c (f (tree, c₂))) : Ends c (x >>= f) := by
  cases x with
  | ok r => exact hf r.1 r.2 h
  | error e =>
    cases e with
    | syntaxError message => exact trivial
    | outOfFuel => exact h

theorem ends_orSyntaxError {α : Type} {x : Except String α}
    {f : α → Except TreeError (ArithmeticTree × Cursor)} (hf : ∀ a, x = .ok a → Ends c (f a)) :
    Ends c (orSyntaxError x >>= f) := by
  cases x with
  | ok a => exact hf a rfl
  | error e => exact trivial

theorem Ends.mono {c₁ : Cursor} (hle : c.pos ≤ c₁.pos)
    {x : Except TreeError (ArithmeticTree × Cursor)} (h : Ends c₁ x) : Ends c x := by
  cases x with
  | ok r => exact Nat.le_trans hle h
  | error e =>
    cases e with
    | syntaxError message => exact trivial
    | outOfFuel => exact h

section
variable {identifiers : IdentifierScanner} {text : Bytes}

theorem pos_le_skip (c : Cursor) : c.pos ≤ (shellArithmeticSkipWhitespace text c).pos :=
  Nat.le_add_right _ _

theorem pos_lt_of_some {i : Nat} {b : UInt8} (h : text[i]? = some b) : i < text.length :=
  (List.getElem?_eq_some_iff.mp h).1

variable {c c' : Cursor}

theorem pos_lt_of_peek {op : Bytes} (h : shellArithmeticPeek text c op = true) (hne : op ≠ []) :
    c.pos < text.length := by
  by_contra hge
  rw [shellArithmeticPeek, drop_eq_nil_of_le (Nat.not_lt.mp hge), isPrefixOf_iff_prefix,
    prefix_nil] at h
  exact hne h

theorem parseNumber_le {value : Word} (h : shellArithmeticParseNumber text c = .ok (value, c')) :
    c.pos ≤ c'.pos := by
  rw [shellArithmeticParseNumber] at h
  obtain ⟨⟨base, start, based⟩, _, h⟩ := bind_ok.mp h
  obtain ⟨⟨number, digits⟩, _, h⟩ := bind_ok.mp h
  simp only [] at h
  split at h
  · exact nomatch h
  · cases h
    exact Nat.le_add_right _ _

theorem parseLvalue_le {lvalue : ShellArithmeticLvalue}
    (h : shellArithmeticParseLvalue identifiers text c = .ok (some (lvalue, c'))) :
    c.pos ≤ c'.pos := by
  rw [shellArithmeticParseLvalue] at h
  split at h
  · exact nomatch h
  · simp only [] at h
    split at h
    · split at h
      · exact nomatch h
      · cases h
        exact Nat.le_trans (Nat.le_add_right _ _) (Nat.le_add_right _ _)
    · cases h
      exact Nat.le_add_right _ _

theorem steppedLvalue_le {increment : Bool} {lvalue : ShellArithmeticLvalue}
    (h : steppedLvalue identifiers text c = .ok (some (increment, lvalue, c'))) :
    c.pos ≤ c'.pos := by
  rw [steppedLvalue] at h
  split at h
  · exact nomatch h
  · obtain ⟨found, hfound, heq⟩ := map_ok.mp h
    cases found with
    | none => exact nomatch heq
    | some found =>
      cases heq
      refine Nat.le_trans ?_ (parseLvalue_le hfound)
      exact Nat.le_trans (Nat.le_add_right c.pos 2) (pos_le_skip (c.advance 2))

theorem afterStep_le (h : afterStep text c = .ok c') : c.pos ≤ c'.pos := by
  rw [afterStep] at h
  split at h
  · exact nomatch h
  · exact nomatch h
  · cases h
    exact pos_le_skip c

theorem ops_ne_nil : ∀ op ∈ gShellArithmeticOps, 1 ≤ op.text.length := by decide

theorem peekBinaryOp_le {op : Option ShellArithmeticBinaryOp}
    (h : shellArithmeticPeekBinaryOp text c = .ok (op, c')) :
    c.pos ≤ c'.pos ∧ ∀ o, op = some o → c'.pos < text.length ∧ 1 ≤ o.text.length := by
  simp only [shellArithmeticPeekBinaryOp] at h
  split at h
  · cases h
  · split at h
    · cases h
      exact ⟨pos_le_skip c, by simp⟩
    · next found hfind =>
      split at h
      · cases h
        exact ⟨pos_le_skip c, by simp⟩
      · cases h
        refine ⟨pos_le_skip c, ?_⟩
        intro o ho
        cases ho
        have hlen := ops_ne_nil _ (mem_of_find?_eq_some hfind)
        have hpeek := find?_some hfind
        exact ⟨pos_lt_of_peek hpeek (ne_nil_of_length_pos hlen), hlen⟩

theorem assignmentOps_ne_nil : ∀ op ∈ assignmentOps, 1 ≤ op.2.length := by decide

theorem peekAssignment_lt {op : Option CompoundOp} {length : Nat}
    (h : shellArithmeticPeekAssignment text c = some (op, length)) :
    c.pos < text.length ∧ 1 ≤ length := by
  rw [shellArithmeticPeekAssignment] at h
  split at h
  · next found hfind =>
    cases h
    have hlen := assignmentOps_ne_nil _ (mem_of_find?_eq_some hfind)
    have hpeek := find?_some hfind
    exact ⟨pos_lt_of_peek hpeek (ne_nil_of_length_pos hlen), hlen⟩
  · split at h
    · next hpeek =>
      cases h
      rw [Bool.and_eq_true] at hpeek
      exact ⟨pos_lt_of_peek hpeek.1 (by decide), Nat.le_refl _⟩
    · exact nomatch h

end

section
variable (identifiers : IdentifierScanner) (text : Bytes)

/-- eight calls for each byte that is left, and one for each level above the first -/
structure LevelsEnd (fuel : Nat) : Prop where
  primary : ∀ c, 8 * (text.length - c.pos) + 1 ≤ fuel → Ends c (treePrimary identifiers text fuel c)
  unary : ∀ c, 8 * (text.length - c.pos) + 2 ≤ fuel → Ends c (treeUnary identifiers text fuel c)
  operators : ∀ minPrecedence lhs c, 8 * (text.length - c.pos) + 2 ≤ fuel →
    Ends c (treeOperators identifiers text fuel minPrecedence lhs c)
  binary : ∀ minPrecedence c, 8 * (text.length - c.pos) + 3 ≤ fuel →
    Ends c (treeBinary identifiers text fuel minPrecedence c)
  ternary : ∀ c, 8 * (text.length - c.pos) + 4 ≤ fuel → Ends c (treeTernary identifiers text fuel c)
  assignment : ∀ c, 8 * (text.length - c.pos) + 5 ≤ fuel →
    Ends c (treeAssignment identifiers text fuel c)
  list : ∀ first c, 8 * (text.length - c.pos) + 2 ≤ fuel →
    Ends c (treeList identifiers text fuel first c)
  comma : ∀ c, 8 * (text.length - c.pos) + 6 ≤ fuel → Ends c (treeComma identifiers text fuel c)

end

section
variable {identifiers : IdentifierScanner} {text : Bytes} {fuel : Nat}
  (ih : LevelsEnd identifiers text fuel)
include ih

theorem primary_ends (c : Cursor) (hfuel : 8 * (text.length - c.pos) + 1 ≤ fuel + 1) :
    Ends c (treePrimary identifiers text (fuel + 1) c) := by
  simp only [treePrimary]
  have hskip := @pos_le_skip text c
  generalize shellArithmeticSkipWhitespace text c = c₁ at hskip
  split
  · exact trivial
  · next ch hch =>
    have hlt := pos_lt_of_some hch
    split
    · refine (ih.comma (c₁.advance 1) ?_).bind fun tree c₂ hle => ?_
      · show 8 * (text.length - (c₁.pos + 1)) + 6 ≤ fuel
        omega
      · have hle' : c₁.pos + 1 ≤ c₂.pos := hle
        have hskip₂ := @pos_le_skip text c₂
        simp only []
        split
        · show c.pos ≤ _ + 1
          omega
        · exact trivial
    · split
      · refine ends_orSyntaxError fun number hnumber => ?_
        exact Nat.le_trans hskip (parseNumber_le hnumber)
      · refine ends_orSyntaxError fun found hfound => ?_
        cases found with
        | none => exact trivial
        | some found =>
          have hle := parseLvalue_le hfound
          have hskip₂ := @pos_le_skip text found.2
          simp only []
          split
          · show c.pos ≤ (shellArithmeticSkipWhitespace text found.2).pos + 2
            omega
          · show c.pos ≤ (shellArithmeticSkipWhitespace text found.2).pos
            omega

theorem unary_ends (c : Cursor) (hfuel : 8 * (text.length - c.pos) + 2 ≤ fuel + 1) :
    Ends c (treeUnary identifiers text (fuel + 1) c) := by
  simp only [treeUnary]
  have hskip := @pos_le_skip text c
  generalize shellArithmeticSkipWhitespace text c = c₁ at hskip
  split
  · exact trivial
  · next ch hch =>
    have hlt := pos_lt_of_some hch
    refine ends_orSyntaxError fun stepped hstepped => ?_
    split
    · have hle := steppedLvalue_le hstepped
      refine ends_orSyntaxError fun c₂ hafter => ?_
      exact Nat.le_trans hskip (Nat.le_trans hle (afterStep_le hafter))
    · split
      · refine (ih.unary (c₁.advance 1) ?_).bind fun tree c₂ hle => ?_
        · show 8 * (text.length - (c₁.pos + 1)) + 2 ≤ fuel
          omega
        · have hle' : c₁.pos + 1 ≤ c₂.pos := hle
          show c.pos ≤ c₂.pos
          omega
      · exact (ih.primary c₁ (by omega)).mono hskip

theorem binary_ends (minPrecedence : Nat) (c : Cursor)
    (hfuel : 8 * (text.length - c.pos) + 3 ≤ fuel + 1) :
    Ends c (treeBinary identifiers text (fuel + 1) minPrecedence c) := by
  rw [treeBinary]
  refine (ih.unary c (by omega)).bind fun lhs c₁ hle => ?_
  exact (ih.operators minPrecedence lhs c₁ (by omega)).mono hle

theorem operators_end (minPrecedence : Nat) (lhs : ArithmeticTree) (c : Cursor)
    (hfuel : 8 * (text.length - c.pos) + 2 ≤ fuel + 1) :
    Ends c (treeOperators identifiers text (fuel + 1) minPrecedence lhs c) := by
  simp only [treeOperators]
  refine ends_orSyntaxError fun peeked hpeek => ?_
  obtain ⟨op, c₁⟩ := peeked
  obtain ⟨hle, hop⟩ := peekBinaryOp_le hpeek
  cases op with
  | none => exact hle
  | some op =>
    obtain ⟨hlt, hlen⟩ := hop op rfl
    simp only []
    split
    · exact hle
    · refine (ih.binary _ (c₁.advance op.text.length) ?_).bind fun rhs c₂ hle₂ => ?_
      · show 8 * (text.length - (c₁.pos + op.text.length)) + 3 ≤ fuel
        omega
      · have hle₂' : c₁.pos + op.text.length ≤ c₂.pos := hle₂
        exact (ih.operators minPrecedence _ c₂ (by omega)).mono (by omega)

theorem ternary_ends (c : Cursor) (hfuel : 8 * (text.length - c.pos) + 4 ≤ fuel + 1) :
    Ends c (treeTernary identifiers text (fuel + 1) c) := by
  simp only [treeTernary]
  refine (ih.binary 1 c (by omega)).bind fun condition c₁ hle => ?_
  have hskip := @pos_le_skip text c₁
  simp only []
  generalize shellArithmeticSkipWhitespace text c₁ = c₂ at hskip
  split
  · exact Nat.le_trans hle hskip
  · next hmark =>
    have hlt := pos_lt_of_some (not_not.mp hmark)
    have hskip₂ : c₂.pos + 1 ≤ _ := @pos_le_skip text (c₂.advance 1)
    generalize shellArithmeticSkipWhitespace text (c₂.advance 1) = c₃ at hskip₂
    split
    · exact trivial
    · refine (ih.comma c₃ (by omega)).bind fun whenTrue c₄ hle₄ => ?_
      have hskip₄ := @pos_le_skip text c₄
      simp only []
      generalize shellArithmeticSkipWhitespace text c₄ = c₅ at hskip₄
      split
      · exact trivial
      · have hskip₅ : c₅.pos + 1 ≤ _ := @pos_le_skip text (c₅.advance 1)
        generalize shellArithmeticSkipWhitespace text (c₅.advance 1) = c₆ at hskip₅
        split
        · exact trivial
        · refine (ih.ternary c₆ (by omega)).bind fun whenFalse c₇ hle₇ => ?_
          show c.pos ≤ c₇.pos
          omega

theorem assignment_ends (c : Cursor) (hfuel : 8 * (text.length - c.pos) + 5 ≤ fuel + 1) :
    Ends c (treeAssignment identifiers text (fuel + 1) c) := by
  simp only [treeAssignment]
  have hskip := @pos_le_skip text c
  generalize shellArithmeticSkipWhitespace text c = c₁ at hskip
  refine ends_orSyntaxError fun target htarget => ?_
  split
  · next lvalue op c₂ hassignment =>
    obtain ⟨found, rfl, hfound⟩ := Option.bind_eq_some_iff.mp hassignment
    obtain ⟨peeked, hpeek, heq⟩ := Option.map_eq_some_iff.mp hfound
    cases heq
    have hle := parseLvalue_le htarget
    have hskip₂ := @pos_le_skip text found.2
    obtain ⟨hlt, hlen⟩ := peekAssignment_lt hpeek
    refine (ih.assignment _ ?_).bind fun rhs c₃ hle₃ => ?_
    · show 8 * (text.length - ((shellArithmeticSkipWhitespace text found.2).pos + peeked.2)) + 5 ≤
        fuel
      omega
    · have hle₃' : (shellArithmeticSkipWhitespace text found.2).pos + peeked.2 ≤ c₃.pos := hle₃
      show c.pos ≤ c₃.pos
      omega
  · refine (ih.ternary c₁ (by omega)).bind fun tree c₂ hle => ?_
    have hskip₂ := @pos_le_skip text c₂
    simp only []
    split
    · exact trivial
    · show c.pos ≤ (shellArithmeticSkipWhitespace text c₂).pos
      omega

theorem comma_ends (c : Cursor) (hfuel : 8 * (text.length - c.pos) + 6 ≤ fuel + 1) :
    Ends c (treeComma identifiers text (fuel + 1) c) := by
  rw [treeComma]
  refine (ih.assignment c (by omega)).bind fun first c₁ hle => ?_
  exact (ih.list first c₁ (by omega)).mono hle

theorem list_ends (first : ArithmeticTree) (c : Cursor)
    (hfuel : 8 * (text.length - c.pos) + 2 ≤ fuel + 1) :
    Ends c (treeList identifiers text (fuel + 1) first c) := by
  simp only [treeList]
  have hskip := @pos_le_skip text c
  generalize shellArithmeticSkipWhitespace text c = c₁ at hskip
  split
  · exact hskip
  · next hcomma =>
    have hlt := pos_lt_of_some (not_not.mp hcomma)
    refine (ih.assignment (c₁.advance 1) ?_).bind fun second c₂ hle => ?_
    · show 8 * (text.length - (c₁.pos + 1)) + 5 ≤ fuel
      omega
    · have hle' : c₁.pos + 1 ≤ c₂.pos := hle
      exact (ih.list _ c₂ (by omega)).mono (by omega)

end

theorem levels_end (identifiers : IdentifierScanner) (text : Bytes) (fuel : Nat) :
    LevelsEnd identifiers text fuel := by
  induction fuel with
  | zero =>
    constructor <;> intros <;> omega
  | succ fuel ih =>
    exact ⟨primary_ends ih, unary_ends ih, operators_end ih, binary_ends ih, ternary_ends ih,
      assignment_ends ih, list_ends ih, comma_ends ih⟩

/-! ## the levels evaluate what they read -/

section
variable {σ : Type} (world : ArithmeticWorld σ) (label : String)
  (evaluate : Option (Bytes → Evaluation σ Word)) (identifiers : IdentifierScanner) (text : Bytes)

def evalAt (noeval : Nat) (tree : ArithmeticTree) (c : Cursor) : Evaluation σ (Word × Cursor) := do
  let value ← tree.eval world label evaluate noeval
  pure (value, c)

structure LevelsEvaluate (fuel : Nat) : Prop where
  primary : ∀ {noeval c tree c'}, treePrimary identifiers text fuel c = .ok (tree, c') →
    parsePrimary world label evaluate identifiers text fuel noeval c =
      evalAt world label evaluate noeval tree c'
  unary : ∀ {noeval c tree c'}, treeUnary identifiers text fuel c = .ok (tree, c') →
    parseUnary world label evaluate identifiers text fuel noeval c =
      evalAt world label evaluate noeval tree c'
  binary : ∀ {noeval minPrecedence c tree c'},
    treeBinary identifiers text fuel minPrecedence c = .ok (tree, c') →
    parseBinary world label evaluate identifiers text fuel noeval minPrecedence c =
      evalAt world label evaluate noeval tree c'
  operators : ∀ {noeval minPrecedence lhs c tree c'},
    treeOperators identifiers text fuel minPrecedence lhs c = .ok (tree, c') →
    (do let value ← lhs.eval world label evaluate noeval
        parseOperators world label evaluate identifiers text fuel noeval minPrecedence value c) =
      evalAt world label evaluate noeval tree c'
  ternary : ∀ {noeval c tree c'}, treeTernary identifiers text fuel c = .ok (tree, c') →
    parseTernary world label evaluate identifiers text fuel noeval c =
      evalAt world label evaluate noeval tree c'
  assignment : ∀ {noeval c tree c'}, treeAssignment identifiers text fuel c = .ok (tree, c') →
    parseAssignment world label evaluate identifiers text fuel noeval c =
      evalAt world label evaluate noeval tree c'
  comma : ∀ {noeval c tree c'}, treeComma identifiers text fuel c = .ok (tree, c') →
    parseComma world label evaluate identifiers text fuel noeval c =
      evalAt world label evaluate noeval tree c'
  list : ∀ {noeval first c tree c'}, treeList identifiers text fuel first c = .ok (tree, c') →
    (do let value ← first.eval world label evaluate noeval
        parseList world label evaluate identifiers text fuel noeval value c) =
      evalAt world label evaluate noeval tree c'

variable {world label evaluate identifiers text}

variable {α : Type}

theorem orSyntaxError_ok {x : Except String α} {a : α} : orSyntaxError x = .ok a ↔ x = .ok a := by
  cases x with
  | error message => exact ⟨nofun, nofun⟩
  | ok b => exact ⟨fun h => congrArg _ (Except.ok.inj h), fun h => congrArg _ (Except.ok.inj h)⟩

theorem orFail_ok (a : α) : orFail world label (.ok a) = pure a := rfl

theorem evalAt_bind (noeval : Nat) (tree : ArithmeticTree) (c : Cursor)
    (f : Word × Cursor → Evaluation σ α) : evalAt world label evaluate noeval tree c >>= f =
      tree.eval world label evaluate noeval >>= fun value => f (value, c) := by
  rw [evalAt, bind_assoc]
  simp only [pure_bind]

section
variable {fuel : Nat} (ih : LevelsEvaluate world label evaluate identifiers text fuel)
include ih

variable {c c' : Cursor} {noeval : Nat} {tree : ArithmeticTree}

theorem primary_evaluate (h : treePrimary identifiers text (fuel + 1) c = .ok (tree, c')) :
    parsePrimary world label evaluate identifiers text (fuel + 1) noeval c =
      evalAt world label evaluate noeval tree c' := by
  simp only [treePrimary] at h
  simp only [parsePrimary]
  cases hch : text[(shellArithmeticSkipWhitespace text c).pos]? with
  | none =>
    simp only [hch] at h
    cases h
  | some ch =>
    simp only [hch] at h ⊢
    split at h
    · next hparen =>
      rw [if_pos hparen]
      obtain ⟨⟨inner, c₁⟩, hinner, h⟩ := bind_ok.mp h
      rw [ih.comma hinner, evalAt_bind]
      split at h
      · next hclose =>
        cases h
        simp only [hclose, if_true]
        rfl
      · cases h
    · next hparen =>
      rw [if_neg hparen]
      split at h
      · next hdigit =>
        rw [if_pos hdigit]
        obtain ⟨⟨value, c₁⟩, hnumber, h⟩ := bind_ok.mp h
        rw [orSyntaxError_ok] at hnumber
        cases h
        rw [hnumber, evalAt, ArithmeticTree.eval, pure_bind]
        rfl
      · next hdigit =>
        rw [if_neg hdigit]
        obtain ⟨found, hlvalue, h⟩ := bind_ok.mp h
        rw [orSyntaxError_ok] at hlvalue
        rw [hlvalue, orFail_ok, pure_bind]
        split at h
        · cases h
        · next lvalue c₁ =>
          try simp only []
          split at h
          · next increment hstep =>
            cases h
            simp only [hstep, evalAt, ArithmeticTree.eval, bind_assoc, pure_bind]
          · next hstep =>
            cases h
            try simp only [hstep]
            rfl

theorem unary_evaluate (h : treeUnary identifiers text (fuel + 1) c = .ok (tree, c')) :
    parseUnary world label evaluate identifiers text (fuel + 1) noeval c =
      evalAt world label evaluate noeval tree c' := by
  simp only [treeUnary] at h
  simp only [parseUnary]
  cases hch : text[(shellArithmeticSkipWhitespace text c).pos]? with
  | none =>
    simp only [hch] at h
    cases h
  | some ch =>
    simp only [hch] at h ⊢
    obtain ⟨stepped, hstepped, h⟩ := bind_ok.mp h
    rw [orSyntaxError_ok] at hstepped
    rw [hstepped, orFail_ok, pure_bind]
    split at h
    · next increment lvalue c₁ =>
      obtain ⟨c₂, hafter, h⟩ := bind_ok.mp h
      rw [orSyntaxError_ok] at hafter
      cases h
      simp only [hafter, orFail_ok, evalAt, ArithmeticTree.eval, bind_assoc, pure_bind]
    · try simp only []
      split at h
      · next op hop =>
        obtain ⟨⟨operand, c₁⟩, hoperand, h⟩ := bind_ok.mp h
        cases h
        simp only [hop, ih.unary hoperand, evalAt_bind]
        simp only [evalAt, ArithmeticTree.eval, bind_assoc, pure_bind]
      · next hop =>
        try simp only [hop]
        exact ih.primary h

theorem binary_evaluate {minPrecedence : Nat}
    (h : treeBinary identifiers text (fuel + 1) minPrecedence c = .ok (tree, c')) :
    parseBinary world label evaluate identifiers text (fuel + 1) noeval minPrecedence c =
      evalAt world label evaluate noeval tree c' := by
  rw [treeBinary] at h
  rw [parseBinary]
  obtain ⟨⟨lhs, c₁⟩, hlhs, h⟩ := bind_ok.mp h
  rw [ih.unary hlhs, evalAt_bind]
  exact ih.operators h

theorem operators_evaluate {minPrecedence : Nat} {lhs : ArithmeticTree}
    (h : treeOperators identifiers text (fuel + 1) minPrecedence lhs c = .ok (tree, c')) :
    (do let value ← lhs.eval world label evaluate noeval
        parseOperators world label evaluate identifiers text (fuel + 1) noeval minPrecedence value
          c) = evalAt world label evaluate noeval tree c' := by
  simp only [treeOperators] at h
  simp only [parseOperators]
  obtain ⟨⟨op, c₁⟩, hop, h⟩ := bind_ok.mp h
  rw [orSyntaxError_ok] at hop
  simp only [hop, orFail_ok, pure_bind]
  cases op with
  | none =>
    cases h
    rfl
  | some op =>
    simp only [] at h ⊢
    split at h
    · next hlow =>
      cases h
      simp only [hlow, if_true]
      rfl
    · next hlow =>
      obtain ⟨⟨rhs, c₂⟩, hrhs, h⟩ := bind_ok.mp h
      simp only [hlow, if_false, ih.binary hrhs, evalAt_bind]
      rw [← ih.operators h]
      simp only [ArithmeticTree.eval, bind_assoc]

theorem ternary_evaluate (h : treeTernary identifiers text (fuel + 1) c = .ok (tree, c')) :
    parseTernary world label evaluate identifiers text (fuel + 1) noeval c =
      evalAt world label evaluate noeval tree c' := by
  simp only [treeTernary] at h
  simp only [parseTernary]
  obtain ⟨⟨condition, c₁⟩, hcondition, h⟩ := bind_ok.mp h
  simp only [ih.binary hcondition, evalAt_bind]
  split at h
  · next hmark =>
    cases h
    simp only [hmark, ne_eq, not_false_eq_true, if_true]
    rfl
  · next hmark =>
    simp only [hmark, if_false]
    split at h
    · cases h
    · next hsome =>
      obtain ⟨⟨whenTrue, c₂⟩, htrue, h⟩ := bind_ok.mp h
      simp only [hsome, if_false, ih.comma htrue, evalAt_bind]
      split at h
      · cases h
      · next hcolon =>
        simp only [hcolon, if_false]
        split at h
        · cases h
        · next hend =>
          obtain ⟨⟨whenFalse, c₃⟩, hfalse, h⟩ := bind_ok.mp h
          cases h
          simp only [hend, if_false, ih.ternary hfalse, evalAt_bind]
          simp only [evalAt, ArithmeticTree.eval, bind_assoc, pure_bind]

theorem assignment_evaluate (h : treeAssignment identifiers text (fuel + 1) c = .ok (tree, c')) :
    parseAssignment world label evaluate identifiers text (fuel + 1) noeval c =
      evalAt world label evaluate noeval tree c' := by
  simp only [treeAssignment] at h
  simp only [parseAssignment]
  obtain ⟨target, htarget, h⟩ := bind_ok.mp h
  rw [orSyntaxError_ok] at htarget
  simp only [htarget, orFail_ok, pure_bind]
  split at h
  · next lvalue op c₁ hassignment =>
    obtain ⟨⟨rhs, c₂⟩, hrhs, h⟩ := bind_ok.mp h
    cases h
    simp only [hassignment, ih.assignment hrhs, evalAt_bind]
    cases op with
    | none => simp only [evalAt, ArithmeticTree.eval, bind_assoc, pure_bind]
    | some op => simp only [evalAt, ArithmeticTree.eval, bind_assoc, pure_bind]
  · next hassignment =>
    obtain ⟨⟨inner, c₁⟩, hinner, h⟩ := bind_ok.mp h
    simp only [hassignment, ih.ternary hinner, evalAt_bind]
    split at h
    · cases h
    · next hnone =>
      cases h
      simp only [hnone]
      rfl

theorem comma_evaluate (h : treeComma identifiers text (fuel + 1) c = .ok (tree, c')) :
    parseComma world label evaluate identifiers text (fuel + 1) noeval c =
      evalAt world label evaluate noeval tree c' := by
  rw [treeComma] at h
  rw [parseComma]
  obtain ⟨⟨first, c₁⟩, hfirst, h⟩ := bind_ok.mp h
  rw [ih.assignment hfirst, evalAt_bind]
  exact ih.list h

theorem list_evaluate {first : ArithmeticTree}
    (h : treeList identifiers text (fuel + 1) first c = .ok (tree, c')) :
    (do let value ← first.eval world label evaluate noeval
        parseList world label evaluate identifiers text (fuel + 1) noeval value c) =
      evalAt world label evaluate noeval tree c' := by
  simp only [treeList] at h
  simp only [parseList]
  split at h
  · next hcomma =>
    cases h
    simp only [hcomma, ne_eq, not_false_eq_true, if_true]
    rfl
  · next hcomma =>
    obtain ⟨⟨second, c₁⟩, hsecond, h⟩ := bind_ok.mp h
    simp only [hcomma, if_false, ih.assignment hsecond, evalAt_bind]
    rw [← ih.list h]
    simp only [ArithmeticTree.eval, bind_assoc]

end

theorem levels_evaluate (fuel : Nat) :
    LevelsEvaluate world label evaluate identifiers text fuel := by
  induction fuel with
  | zero =>
    constructor <;> intros <;> rename_i h <;> exact nomatch h
  | succ fuel ih =>
    exact ⟨primary_evaluate ih, unary_evaluate ih, binary_evaluate ih, operators_evaluate ih,
      ternary_evaluate ih, assignment_evaluate ih, comma_evaluate ih, list_evaluate ih⟩

end

theorem evaluateTextWith_eq {σ : Type} (world : ArithmeticWorld σ) (label : String)
    {identifiers : IdentifierScanner} (evaluate : Option (Bytes → Evaluation σ Word))
    {text : Bytes} {tree : ArithmeticTree} (h : arithmeticTree identifiers text = .ok tree) :
    evaluateTextWith world label identifiers evaluate text =
      tree.eval world label evaluate 0 := by
  simp only [arithmeticTree] at h
  rw [evaluateTextWith]
  split at h
  · next hempty =>
    cases h
    exact if_pos hempty
  · next hempty =>
    simp only [hempty, if_false]
    obtain ⟨⟨inner, c₁⟩, hinner, h⟩ := bind_ok.mp h
    rw [(levels_evaluate _).comma hinner, evalAt_bind]
    split at h
    · exact nomatch h
    · next hend =>
      cases h
      simp only [hend, if_false]
      exact bind_pure _

def deeper {σ : Type} (world : ArithmeticWorld σ) (label : String)
    (identifiers : IdentifierScanner) : Nat → Option (Bytes → Evaluation σ Word)
  | 0 => none
  | left + 1 => some (shellArithmeticEvaluateText world label identifiers left)

theorem shellArithmeticEvaluateText_eq {σ : Type} (world : ArithmeticWorld σ) (label : String)
    {identifiers : IdentifierScanner} (left : Nat) {text : Bytes} {tree : ArithmeticTree}
    (h : arithmeticTree identifiers text = .ok tree) :
    shellArithmeticEvaluateText world label identifiers left text =
      tree.eval world label (deeper world label identifiers left) 0 := by
  cases left with
  | zero => exact evaluateTextWith_eq world label none h
  | succ left => exact evaluateTextWith_eq world label (some _) h

end Pscal.Shell
