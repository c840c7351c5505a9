import Pscal.Shell.ArithmeticTrees

/-!
# The side that is not taken

What the evaluation of an expression does with the side of `&&`, `||` or `?:` that it skips.

* `placeholder`, `ArithmeticTree.Quiet`  the value of such a side, and when it has one;
* `untaken_eval`, `untaken_fails`  all that happens in it;
* `SideContext`  an expression around one side;
* `untaken_side`  the side has no effect, and another one does as well.

The state of a world is any type and its calls may do anything to it, so that a call which is made
can be made to show.
-/

namespace Pscal.Shell

open ArithmeticTree

open Wire (Bytes)

/-! ## values without variables -/

def untakenApply (op : ArithmeticOp) (lhs rhs : Word) : Word :=
  match shellArithmeticApply 1 op lhs rhs with
  | .ok value => value
  | .error _ => 0

def untakenBinary (op : ArithmeticOp) (lhs rhs : Word) : Word :=
  match applyBinary 1 op lhs rhs with
  | .ok value => value
  | .error _ => 0

namespace ArithmeticTree

/-- the value with 0 for each variable -/
def placeholder : ArithmeticTree → Word
  | number value => value
  | read _ => 0
  | thenStep _ _ => 0
  | stepped increment _ => if increment then 1 else -1
  | unary op operand => op.apply operand.placeholder
  | binary op lhs rhs => untakenBinary op lhs.placeholder rhs.placeholder
  | conditional condition whenTrue whenFalse =>
    if condition.placeholder ≠ 0 then whenTrue.placeholder else whenFalse.placeholder
  | assign _ none rhs => rhs.placeholder
  | assign _ (some op) rhs => untakenApply op.op 0 rhs.placeholder
  | comma _ second => second.placeholder

/-- no exponent is negative where 0 stands for each variable -/
def Quiet : ArithmeticTree → Prop
  | number _ => True
  | read _ => True
  | thenStep _ _ => True
  | stepped _ _ => True
  | unary _ operand => operand.Quiet
  | binary op lhs rhs =>
    lhs.Quiet ∧ rhs.Quiet ∧ (op = .power → rhs.placeholder.slt 0 = false)
  | conditional condition whenTrue whenFalse =>
    condition.Quiet ∧ whenTrue.Quiet ∧ whenFalse.Quiet
  | assign _ _ rhs => rhs.Quiet
  | comma first second => first.Quiet ∧ second.Quiet

end ArithmeticTree

/-! ## operators where nothing is evaluated -/

theorem applyBinary_untaken (noeval : Nat) {op : ArithmeticOp} {lhs rhs : Word}
    (h : op = .power → rhs.slt 0 = false) :
    applyBinary (noeval + 1) op lhs rhs = .ok (untakenBinary op lhs rhs) := by
  have hsame : applyBinary (noeval + 1) op lhs rhs = applyBinary 1 op lhs rhs := by
    cases op <;> rfl
  have hok : ∃ value, applyBinary 1 op lhs rhs = .ok value := by
    cases op with
    | power =>
      show ∃ value, (if rhs.slt 0 then _ else _) = Except.ok value
      rw [h rfl]
      exact ⟨_, rfl⟩
    | divide =>
      show ∃ value, (if rhs = 0 then _ else _) = Except.ok value
      split
      · exact ⟨_, rfl⟩
      · split
        · exact ⟨_, rfl⟩
        · exact ⟨_, rfl⟩
    | modulo =>
      show ∃ value, (if rhs = 0 then _ else _) = Except.ok value
      split
      · exact ⟨_, rfl⟩
      · split
        · exact ⟨_, rfl⟩
        · exact ⟨_, rfl⟩
    | _ => exact ⟨_, rfl⟩
  obtain ⟨value, hvalue⟩ := hok
  rw [hsame, untakenBinary, hvalue]

theorem apply_compound (noeval : Nat) (op : CompoundOp) (lhs rhs : Word) :
    shellArithmeticApply (noeval + 1) op.op lhs rhs = .ok (untakenApply op.op lhs rhs) := by
  have hbinary : ∀ o : ArithmeticOp, o ≠ .logicalOr → o ≠ .logicalAnd → o ≠ .power →
      shellArithmeticApply (noeval + 1) o lhs rhs = .ok (untakenApply o lhs rhs) := by
    intro o hor hand hpower
    have h := @applyBinary_untaken noeval o lhs rhs fun heq => absurd heq hpower
    cases o with
    | logicalOr => exact absurd rfl hor
    | logicalAnd => exact absurd rfl hand
    | _ => exact h
  cases op <;> exact hbinary _ nofun nofun nofun

/-! ## evaluation -/

section
variable {σ : Type} {world : ArithmeticWorld σ} {label : String}
  {evaluate : Option (Bytes → Evaluation σ Word)}

theorem read_untaken (noeval : Nat) (lvalue : ShellArithmeticLvalue) :
    shellArithmeticReadVariable world label evaluate (noeval + 1) lvalue = pure 0 :=
  if_pos (Nat.succ_pos noeval)

theorem store_untaken (noeval : Nat) (lvalue : ShellArithmeticLvalue) (value : Word) :
    shellArithmeticStoreVariable world label (noeval + 1) lvalue value = pure () :=
  if_pos (Nat.succ_pos noeval)

theorem stepValue_zero (increment : Bool) :
    stepValue world increment 0 = if increment then 1 else -1 := by
  cases increment with
  | true =>
    rw [stepValue]
    exact if_neg (by decide)
  | false =>
    rw [stepValue]
    exact if_neg (by decide)

theorem orFail_untaken {α : Type} (a : α) : orFail world label (.ok a) = pure a := rfl

theorem ite_succ (p : Prop) [Decidable p] (noeval : Nat) :
    (if p then noeval + 1 + 1 else noeval + 1) = (if p then noeval + 1 else noeval) + 1 := by
  split <;> rfl

theorem untaken_eval {tree : ArithmeticTree} (h : tree.Quiet) (noeval : Nat) :
    tree.eval world label evaluate (noeval + 1) = pure tree.placeholder := by
  induction tree generalizing noeval with
  | number value => rfl
  | read lvalue => exact read_untaken noeval lvalue
  | thenStep lvalue increment =>
    rw [eval, read_untaken, pure_bind, store_untaken, pure_bind]
    rfl
  | stepped increment lvalue =>
    rw [eval, read_untaken, pure_bind, store_untaken, pure_bind, stepValue_zero]
    rfl
  | unary op operand ih =>
    rw [eval, ih h, pure_bind]
    rfl
  | binary op lhs rhs ihl ihr =>
    obtain ⟨hl, hr, hpower⟩ := h
    rw [eval, ihl hl, pure_bind]
    simp only [ite_succ]
    rw [ihr hr, pure_bind, applyBinary_untaken noeval hpower]
    rfl
  | conditional condition whenTrue whenFalse ihc iht ihf =>
    obtain ⟨hc, ht, hf⟩ := h
    rw [eval, ihc hc, pure_bind]
    simp only [ite_succ]
    rw [iht ht, pure_bind, ihf hf, pure_bind]
    rfl
  | assign lvalue op rhs ih =>
    cases op with
    | none =>
      rw [eval, ih h, pure_bind, store_untaken, pure_bind]
      rfl
    | some op =>
      rw [eval, ih h, pure_bind, read_untaken, pure_bind, apply_compound,
        orFail_untaken, pure_bind, store_untaken, pure_bind]
      rfl
  | comma first second ihs iht =>
    rw [eval, ihs h.1, pure_bind, iht h.2]
    rfl

theorem fail_bind {α β : Type} (message : String) (f : α → Evaluation σ β) :
    shellArithmeticFail world label message >>= f = shellArithmeticFail world label message := by
  rw [shellArithmeticFail, bind_assoc]
  rfl

theorem untaken_fails {tree : ArithmeticTree} (h : ¬ tree.Quiet) (noeval : Nat) :
    tree.eval world label evaluate (noeval + 1) =
      shellArithmeticFail world label "exponent less than 0" := by
  induction tree generalizing noeval with
  | number value => exact absurd trivial h
  | read lvalue => exact absurd trivial h
  | thenStep lvalue increment => exact absurd trivial h
  | stepped increment lvalue => exact absurd trivial h
  | unary op operand ih => rw [eval, ih h, fail_bind]
  | binary op lhs rhs ihl ihr =>
    rw [eval]
    by_cases hl : lhs.Quiet
    · rw [untaken_eval hl, pure_bind]
      simp only [ite_succ]
      by_cases hr : rhs.Quiet
      · rw [untaken_eval hr, pure_bind]
        have hpower : op = .power ∧ rhs.placeholder.slt 0 = true := by
          by_contra hnot
          refine h ⟨hl, hr, fun hop => ?_⟩
          rw [← Bool.not_eq_true]
          exact fun hneg => hnot ⟨hop, hneg⟩
        obtain ⟨rfl, hneg⟩ := hpower
        show orFail world label (if rhs.placeholder.slt 0 then _ else _) = _
        rw [hneg]
        rfl
      · rw [ihr hr, fail_bind]
    · rw [ihl hl, fail_bind]
  | conditional condition whenTrue whenFalse ihc iht ihf =>
    rw [eval]
    by_cases hc : condition.Quiet
    · rw [untaken_eval hc, pure_bind]
      simp only [ite_succ]
      by_cases ht : whenTrue.Quiet
      · rw [untaken_eval ht, pure_bind, ihf fun hf => h ⟨hc, ht, hf⟩, fail_bind]
      · rw [iht ht, fail_bind]
    · rw [ihc hc, fail_bind]
  | assign lvalue op rhs ih =>
    cases op with
    | none => rw [eval, ih h, fail_bind]
    | some op => rw [eval, ih h, fail_bind]
  | comma first second ihs iht =>
    rw [eval]
    by_cases hs : first.Quiet
    · rw [untaken_eval hs, pure_bind, iht fun ht => h ⟨hs, ht⟩]
    · rw [ihs hs, fail_bind]

/-! ## sides -/

variable (world label evaluate)

/-- evaluated as a side that is not taken, the tree has a value and the state stays -/
def NoEffect (tree : ArithmeticTree) : Prop :=
  ∀ noeval s, ∃ value, (tree.eval world label evaluate (noeval + 1)).run s = (some value, s)

variable {world label evaluate}

theorem noEffect_iff [Nonempty σ] (tree : ArithmeticTree) :
    NoEffect world label evaluate tree ↔ tree.Quiet := by
  constructor
  · intro h
    by_contra hnot
    obtain ⟨s⟩ := ‹Nonempty σ›
    obtain ⟨value, hvalue⟩ := h 0 s
    rw [untaken_fails hnot] at hvalue
    exact nomatch congrArg Prod.fst hvalue
  · intro h noeval s
    rw [untaken_eval h]
    exact ⟨tree.placeholder, rfl⟩

end

inductive SideContext where
  | skippedRhs (op : ArithmeticOp) (lhs : ArithmeticTree)
  | skippedTrue (condition whenFalse : ArithmeticTree)
  | skippedFalse (condition whenTrue : ArithmeticTree)
  | unary (op : UnaryOp) (inner : SideContext)
  | inLeft (op : ArithmeticOp) (inner : SideContext) (rhs : ArithmeticTree)
  | inRight (op : ArithmeticOp) (lhs : ArithmeticTree) (inner : SideContext)
  | inCondition (inner : SideContext) (whenTrue whenFalse : ArithmeticTree)
  | inTrue (condition : ArithmeticTree) (inner : SideContext) (whenFalse : ArithmeticTree)
  | inFalse (condition whenTrue : ArithmeticTree) (inner : SideContext)
  | assign (lvalue : ShellArithmeticLvalue) (op : Option CompoundOp) (inner : SideContext)
  | inFirst (inner : SideContext) (second : ArithmeticTree)
  | inSecond (first : ArithmeticTree) (inner : SideContext)

namespace SideContext

def fill : SideContext → ArithmeticTree → ArithmeticTree
  | skippedRhs op lhs, side => .binary op lhs side
  | skippedTrue condition whenFalse, side => .conditional condition side whenFalse
  | skippedFalse condition whenTrue, side => .conditional condition whenTrue side
  | unary op inner, side => .unary op (inner.fill side)
  | inLeft op inner rhs, side => .binary op (inner.fill side) rhs
  | inRight op lhs inner, side => .binary op lhs (inner.fill side)
  | inCondition inner whenTrue whenFalse, side =>
    .conditional (inner.fill side) whenTrue whenFalse
  | inTrue condition inner whenFalse, side => .conditional condition (inner.fill side) whenFalse
  | inFalse condition whenTrue inner, side => .conditional condition whenTrue (inner.fill side)
  | assign lvalue op inner, side => .assign lvalue op (inner.fill side)
  | inFirst inner second, side => .comma (inner.fill side) second
  | inSecond first inner, side => .comma first (inner.fill side)

section
variable {σ : Type} (world : ArithmeticWorld σ) (label : String)
  (evaluate : Option (Bytes → Evaluation σ Word))

/-- what holds of the value of a tree and the state behind it, if it has a value -/
def After (tree : ArithmeticTree) (noeval : Nat) (s : σ) (P : Word → σ → Prop) : Prop :=
  match (tree.eval world label evaluate noeval).run s with
  | (some value, s') => P value s'
  | (none, _) => True

/-- the evaluation from `s` does not take the side, or does not come to it -/
def Untaken : Nat → SideContext → σ → Prop
  | noeval, skippedRhs op lhs, s =>
    After world label evaluate lhs noeval s fun value _ => skips op value = true
  | noeval, skippedTrue condition _, s =>
    After world label evaluate condition noeval s fun test _ => test = 0
  | noeval, skippedFalse condition _, s =>
    After world label evaluate condition noeval s fun test _ => test ≠ 0
  | noeval, unary _ inner, s => Untaken noeval inner s
  | noeval, inLeft _ inner _, s => Untaken noeval inner s
  | noeval, inRight op lhs inner, s =>
    After world label evaluate lhs noeval s fun value s' =>
      Untaken (if skips op value then noeval + 1 else noeval) inner s'
  | noeval, inCondition inner _ _, s => Untaken noeval inner s
  | noeval, inTrue condition inner _, s =>
    After world label evaluate condition noeval s fun test s' =>
      Untaken (if test = 0 then noeval + 1 else noeval) inner s'
  | noeval, inFalse condition whenTrue inner, s =>
    After world label evaluate condition noeval s fun test s' =>
      After world label evaluate whenTrue (if test = 0 then noeval + 1 else noeval) s' fun _ s'' =>
        Untaken (if test ≠ 0 then noeval + 1 else noeval) inner s''
  | noeval, assign _ _ inner, s => Untaken noeval inner s
  | noeval, inFirst inner _, s => Untaken noeval inner s
  | noeval, inSecond first inner, s =>
    After world label evaluate first noeval s fun _ s' => Untaken noeval inner s'

end

section
variable {σ : Type} {world : ArithmeticWorld σ} {label : String}
  {evaluate : Option (Bytes → Evaluation σ Word)}

variable {α : Type} {noeval : Nat} {s : σ} {tree : ArithmeticTree}

theorem run_bind {β : Type} (x : Evaluation σ α) (f : α → Evaluation σ β) (s : σ) :
    (x >>= f).run s =
      match x.run s with
      | (some a, s') => (f a).run s'
      | (none, s') => (none, s') := by
  show (match (x.run s).1 with
    | some a => (f a).run
    | none => pure none) (x.run s).2 = _
  rcases x.run s with ⟨_ | a, s'⟩
  · rfl
  · rfl

theorem run_bind_congr {f g : Word → Evaluation σ α}
    (h : After world label evaluate tree noeval s fun value s' => (f value).run s' = (g value).run
      s') :
    (tree.eval world label evaluate noeval >>= f).run s =
      (tree.eval world label evaluate noeval >>= g).run s := by
  rw [After] at h
  rw [run_bind, run_bind]
  split at h
  · next value s' hrun =>
    rw [hrun]
    exact h
  · next s' hrun => rw [hrun]

theorem run_bind_congr_left {tree' : ArithmeticTree} (f : Word → Evaluation σ α)
    (h : (tree.eval world label evaluate noeval).run s = (tree'.eval world label evaluate
      noeval).run s) :
    (tree.eval world label evaluate noeval >>= f).run s =
      (tree'.eval world label evaluate noeval >>= f).run s := by
  rw [run_bind, run_bind, h]

theorem After.mono {P Q : Word → σ → Prop} (h : After world label evaluate tree noeval s P)
    (himp : ∀ value s', P value s' → Q value s') : After world label evaluate tree noeval s Q := by
  rw [After] at h ⊢
  split at h
  · exact himp _ _ h
  · exact trivial

theorem fill_eval {side side' : ArithmeticTree} (hq : side.Quiet) (hq' : side'.Quiet)
    (context : SideContext) (noeval : Nat) (s : σ)
    (h : Untaken world label evaluate noeval context s) :
    ((context.fill side).eval world label evaluate noeval).run s =
      ((context.fill side').eval world label evaluate noeval).run s := by
  induction context generalizing noeval s with
  | skippedRhs op lhs =>
    refine run_bind_congr (h.mono fun value s' hskips => ?_)
    rw [if_pos hskips, untaken_eval hq, untaken_eval hq', pure_bind, pure_bind]
    -- a skipped operand does not change the value of its operator
    have hsame : ∀ x y : Word, applyBinary noeval op value x = applyBinary noeval op value y := by
      intro x y
      cases op with
      | logicalOr =>
        have hne : value ≠ 0 := by simpa [skips] using hskips
        show Except.ok (truth (decide (value ≠ 0) || _)) = Except.ok (truth (_ || _))
        rw [decide_eq_true hne, Bool.true_or, Bool.true_or]
      | logicalAnd =>
        have heq : ¬ value ≠ 0 := by simpa [skips] using hskips
        show Except.ok (truth (decide (value ≠ 0) && _)) = Except.ok (truth (_ && _))
        rw [decide_eq_false heq, Bool.false_and, Bool.false_and]
      | _ => exact absurd hskips (by simp [skips])
    rw [hsame side.placeholder side'.placeholder]
  | skippedTrue condition whenFalse =>
    refine run_bind_congr (h.mono fun test s' htest => ?_)
    rw [if_pos htest, untaken_eval hq, untaken_eval hq', pure_bind, pure_bind]
    simp only [htest, ne_eq, not_true_eq_false, if_false]
  | skippedFalse condition whenTrue =>
    refine run_bind_congr (h.mono fun test s' htest => ?_)
    rw [if_neg htest, if_pos htest, untaken_eval hq, untaken_eval hq']
    simp only [pure_bind, htest, ne_eq, not_false_eq_true, if_true]
  | unary op inner ih => exact run_bind_congr_left _ (ih noeval s h)
  | inLeft op inner rhs ih => exact run_bind_congr_left _ (ih noeval s h)
  | inRight op lhs inner ih =>
    refine run_bind_congr (h.mono fun value s' hinner => ?_)
    exact run_bind_congr_left _ (ih _ s' hinner)
  | inCondition inner whenTrue whenFalse ih => exact run_bind_congr_left _ (ih noeval s h)
  | inTrue condition inner whenFalse ih =>
    refine run_bind_congr (h.mono fun test s' hinner => ?_)
    exact run_bind_congr_left _ (ih _ s' hinner)
  | inFalse condition whenTrue inner ih =>
    refine run_bind_congr (h.mono fun test s' htrue => ?_)
    refine run_bind_congr (htrue.mono fun value s'' hinner => ?_)
    exact run_bind_congr_left _ (ih _ s'' hinner)
  | assign lvalue op inner ih =>
    cases op with
    | none => exact run_bind_congr_left _ (ih noeval s h)
    | some op => exact run_bind_congr_left _ (ih noeval s h)
  | inFirst inner second ih => exact run_bind_congr_left _ (ih noeval s h)
  | inSecond first inner ih =>
    refine run_bind_congr (h.mono fun value s' hinner => ?_)
    exact ih _ s' hinner

end

end SideContext

/-! ## texts -/

section
variable {σ : Type} (world : ArithmeticWorld σ) (label : String) {identifiers : IdentifierScanner}

/-- the side of a text that is not taken reads nothing, stores nothing and reports nothing where its
exponents are not negative, and then the text does as any that differs in this side only -/
theorem untaken_side (left : Nat) {text text' : Bytes} (context : SideContext)
    {side side' : ArithmeticTree} (h : arithmeticTree identifiers text = .ok (context.fill side))
    (h' : arithmeticTree identifiers text' = .ok (context.fill side')) {s : σ}
    (huntaken : context.Untaken world label (deeper world label identifiers left) 0 s) :
    (NoEffect world label (deeper world label identifiers left) side ↔ side.Quiet) ∧
      (side.Quiet → side'.Quiet →
        (shellArithmeticEvaluateText world label identifiers left text).run s =
          (shellArithmeticEvaluateText world label identifiers left text').run s) := by
  have : Nonempty σ := ⟨s⟩
  refine ⟨noEffect_iff side, fun hq hq' => ?_⟩
  rw [shellArithmeticEvaluateText_eq world label left h,
    shellArithmeticEvaluateText_eq world label left h']
  exact SideContext.fill_eval hq hq' context 0 s huntaken

end

/-! ## a world that records its calls -/

structure CallRecord where
  reads : List Bytes
  stores : List (Bytes × Bytes)
  reports : List ArithmeticReport
deriving DecidableEq, Repr

/-- no variable is set, and none is read-only -/
def recordingWorld : ArithmeticWorld CallRecord where
  subscriptKey _ subscript := pure (some (some subscript))
  element name _ := do
    modify fun r => { r with reads := r.reads ++ [name] }
    pure none
  parameter name := do
    modify fun r => { r with reads := r.reads ++ [name] }
    pure (none, false)
  nounset := pure false
  setElement name _ text := do
    modify fun r => { r with stores := r.stores ++ [(name, text)] }
    pure true
  setVariable name text := do
    modify fun r => { r with stores := r.stores ++ [(name, text)] }
    pure true
  report report := modify fun r => { r with reports := r.reports ++ [report] }
  overflowed _ _ := 0

/-- letters, digits and underscores, the first of them no digit -/
def namePrefix : IdentifierScanner where
  consumeShellIdentifier text :=
    let name := text.takeWhile fun b => isalnum b || b = 95
    if name.head?.any fun b => !DecimalText.isDigit b then some name.length else none
  le := by
    intro text n h
    simp only [] at h
    split at h
    · cases h
      exact (List.takeWhile_sublist _).length_le
    · exact nomatch h

/-- `0&&x/0` and `0&&x++` -/
theorem untaken_side_division :
    (NoEffect recordingWorld "" (deeper recordingWorld "" namePrefix 0)
        (.binary .divide (.read ⟨[120], none⟩) (.number 0)) ↔
          (ArithmeticTree.binary .divide (.read ⟨[120], none⟩) (.number 0)).Quiet) ∧
      ((ArithmeticTree.binary .divide (.read ⟨[120], none⟩) (.number 0)).Quiet →
        (ArithmeticTree.thenStep ⟨[120], none⟩ true).Quiet →
        (shellArithmeticEvaluateText recordingWorld "" namePrefix 0
            [48, 38, 38, 120, 47, 48]).run ⟨[], [], []⟩ =
          (shellArithmeticEvaluateText recordingWorld "" namePrefix 0
            [48, 38, 38, 120, 43, 43]).run ⟨[], [], []⟩) :=
  untaken_side recordingWorld "" 0 (.skippedRhs .logicalAnd (.number 0))
    (by decide +kernel : arithmeticTree namePrefix [48, 38, 38, 120, 47, 48] =
      .ok ((SideContext.skippedRhs .logicalAnd (.number 0)).fill
        (.binary .divide (.read ⟨[120], none⟩) (.number 0))))
    (by decide +kernel : arithmeticTree namePrefix [48, 38, 38, 120, 43, 43] =
      .ok ((SideContext.skippedRhs .logicalAnd (.number 0)).fill
        (.thenStep ⟨[120], none⟩ true))) rfl

/-- the value of a text, if it has one, and the calls made for it -/
def recordedOutcome (text : Bytes) : Option Word × CallRecord :=
  (shellArithmeticEvaluateText recordingWorld "" namePrefix 0 text).run ⟨[], [], []⟩

/-- `0&&2**-1` reports its exponent, `0&&2**1` does not -/
theorem exponent_reported :
    recordedOutcome [48, 38, 38, 50, 42, 42, 45, 49] =
      (none, ⟨[], [], [.expression "" "exponent less than 0"]⟩) ∧
    recordedOutcome [48, 38, 38, 50, 42, 42, 49] = (some 0, ⟨[], [], []⟩) := by
  decide +kernel

end Pscal.Shell
