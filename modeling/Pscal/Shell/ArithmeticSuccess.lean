import Pscal.Shell.ArithmeticUntaken

/-!
# What has a value has a tree

The levels of `shell_arithmetic.inc` end with a value on texts only that have a tree.

* `run_bind_some`, `run_orFail`  a computation in steps, each with a value;
* `LevelsSucceed`, `levels_succeed` each level that has a value has read a tree;
* `shellArithmeticEvaluateText_some`  a text has the values of its tree.
-/

namespace Pscal.Shell

open Wire (Bytes)
open SideContext (run_bind)

section
variable {σ α β : Type}

variable {s s' : σ} {a : α}

theorem run_bind_some {x : Evaluation σ α} {f : α → Evaluation σ β} {b : β} :
    (x >>= f).run s = (some b, s') ↔
      ∃ a s₁, x.run s = (some a, s₁) ∧ (f a).run s₁ = (some b, s') := by
  rw [run_bind]
  constructor
  · intro h
    split at h
    · next a s₁ hrun => exact ⟨a, s₁, hrun, h⟩
    · exact nomatch congrArg Prod.fst h
  · rintro ⟨a, s₁, hrun, h⟩
    rw [hrun]
    exact h

theorem run_pure {b : α} : (pure a : Evaluation σ α).run s = (some b, s') ↔ a = b ∧ s = s' := by
  constructor
  · intro h
    cases h
    exact ⟨rfl, rfl⟩
  · rintro ⟨rfl, rfl⟩
    rfl

variable {world : ArithmeticWorld σ} {label : String}

theorem run_fail {message : String}
    (h : (shellArithmeticFail world label message : Evaluation σ α).run s = (some a, s')) : False :=
  nomatch congrArg Prod.fst h

theorem run_orFail {x : Except String α} :
    (orFail world label x).run s = (some a, s') ↔ x = .ok a ∧ s = s' := by
  cases x with
  | ok b =>
    rw [orFail_ok, run_pure]
    exact and_congr_left fun _ => ⟨congrArg _, Except.ok.inj⟩
  | error message => exact ⟨fun h => (run_fail h).elim, fun h => nomatch h.1⟩

theorem ok_bind {ε : Type} {x : Except ε α} (h : x = .ok a) (f : α → Except ε β) :
    x >>= f = f a := by rw [h]; rfl

end

/-! ## the levels -/

section
variable {σ : Type} (world : ArithmeticWorld σ) (label : String)
  (evaluate : Option (Bytes → Evaluation σ Word)) (identifiers : IdentifierScanner) (text : Bytes)

structure LevelsSucceed (fuel : Nat) : Prop where
  primary : ∀ {noeval c s v c' s'},
    (parsePrimary world label evaluate identifiers text fuel noeval c).run s =
      (some (v, c'), s') →
    ∃ tree, treePrimary identifiers text fuel c = .ok (tree, c')
  unary : ∀ {noeval c s v c' s'},
    (parseUnary world label evaluate identifiers text fuel noeval c).run s = (some (v, c'), s') →
    ∃ tree, treeUnary identifiers text fuel c = .ok (tree, c')
  binary : ∀ {noeval minPrecedence c s v c' s'},
    (parseBinary world label evaluate identifiers text fuel noeval minPrecedence c).run s =
      (some (v, c'), s') →
    ∃ tree, treeBinary identifiers text fuel minPrecedence c = .ok (tree, c')
  operators : ∀ {noeval minPrecedence lhs c s v c' s'},
    (parseOperators world label evaluate identifiers text fuel noeval minPrecedence lhs c).run s =
      (some (v, c'), s') →
    ∀ first, ∃ tree, treeOperators identifiers text fuel minPrecedence first c = .ok (tree, c')
  ternary : ∀ {noeval c s v c' s'},
    (parseTernary world label evaluate identifiers text fuel noeval c).run s =
      (some (v, c'), s') →
    ∃ tree, treeTernary identifiers text fuel c = .ok (tree, c')
  assignment : ∀ {noeval c s v c' s'},
    (parseAssignment world label evaluate identifiers text fuel noeval c).run s =
      (some (v, c'), s') →
    ∃ tree, treeAssignment identifiers text fuel c = .ok (tree, c')
  comma : ∀ {noeval c s v c' s'},
    (parseComma world label evaluate identifiers text fuel noeval c).run s = (some (v, c'), s') →
    ∃ tree, treeComma identifiers text fuel c = .ok (tree, c')
  list : ∀ {noeval value c s v c' s'},
    (parseList world label evaluate identifiers text fuel noeval value c).run s =
      (some (v, c'), s') →
    ∀ first, ∃ tree, treeList identifiers text fuel first c = .ok (tree, c')

end

section
variable {σ : Type} {world : ArithmeticWorld σ} {label : String}
  {evaluate : Option (Bytes → Evaluation σ Word)} {identifiers : IdentifierScanner} {text : Bytes}
  {fuel : Nat} (ih : LevelsSucceed world label evaluate identifiers text fuel)
include ih

variable {c c' : Cursor} {noeval : Nat} {s s' : σ} {v : Word}

theorem primary_succeeds
    (h : (parsePrimary world label evaluate identifiers text (fuel + 1) noeval c).run s = (some (v,
      c'), s')) : ∃ tree, treePrimary identifiers text (fuel + 1) c = .ok (tree, c') := by
  simp only [parsePrimary] at h
  simp only [treePrimary]
  cases hch : text[(shellArithmeticSkipWhitespace text c).pos]? with
  | none =>
    simp only [hch] at h
    exact (run_fail h).elim
  | some ch =>
    simp only [hch] at h ⊢
    split at h
    · next hparen =>
      obtain ⟨⟨v₁, c₁⟩, s₁, hcomma, h⟩ := run_bind_some.mp h
      obtain ⟨tree, htree⟩ := ih.comma hcomma
      rw [if_pos hparen, ok_bind htree]
      simp only [] at h ⊢
      split at h
      · next hclose =>
        obtain ⟨heq, -⟩ := run_pure.mp h
        cases heq
        exact ⟨tree, if_pos hclose⟩
      · exact (run_fail h).elim
    · next hparen =>
      rw [if_neg hparen]
      split at h
      · next hdigit =>
        obtain ⟨hnumber, -⟩ := run_orFail.mp h
        rw [if_pos hdigit, ok_bind (orSyntaxError_ok.mpr hnumber)]
        exact ⟨.number v, rfl⟩
      · next hdigit =>
        obtain ⟨found, s₁, hfound, h⟩ := run_bind_some.mp h
        obtain ⟨hlvalue, -⟩ := run_orFail.mp hfound
        rw [if_neg hdigit, ok_bind (orSyntaxError_ok.mpr hlvalue)]
        cases found with
        | none => exact (run_fail h).elim
        | some found =>
          obtain ⟨value, s₂, -, h⟩ := run_bind_some.mp h
          simp only [] at h ⊢
          split at h
          · next increment hstep =>
            obtain ⟨-, s₃, -, h⟩ := run_bind_some.mp h
            obtain ⟨heq, -⟩ := run_pure.mp h
            cases heq
            exact ⟨.thenStep found.1 increment, by simp only [hstep]⟩
          · next hstep =>
            obtain ⟨heq, -⟩ := run_pure.mp h
            cases heq
            exact ⟨.read found.1, by simp only [hstep]⟩

theorem unary_succeeds
    (h : (parseUnary world label evaluate identifiers text (fuel + 1) noeval c).run s = (some (v,
      c'), s')) : ∃ tree, treeUnary identifiers text (fuel + 1) c = .ok (tree, c') := by
  simp only [parseUnary] at h
  simp only [treeUnary]
  cases hch : text[(shellArithmeticSkipWhitespace text c).pos]? with
  | none =>
    simp only [hch] at h
    exact (run_fail h).elim
  | some ch =>
    simp only [hch] at h ⊢
    obtain ⟨stepped, s₁, hstepped, h⟩ := run_bind_some.mp h
    obtain ⟨hlvalue, -⟩ := run_orFail.mp hstepped
    rw [ok_bind (orSyntaxError_ok.mpr hlvalue)]
    cases stepped with
    | some stepped =>
      obtain ⟨value, s₂, -, h⟩ := run_bind_some.mp h
      obtain ⟨-, s₃, -, h⟩ := run_bind_some.mp h
      obtain ⟨c₂, s₄, hafter, h⟩ := run_bind_some.mp h
      obtain ⟨hc, -⟩ := run_orFail.mp hafter
      obtain ⟨heq, -⟩ := run_pure.mp h
      cases heq
      exact ⟨.stepped stepped.1 stepped.2.1, ok_bind (orSyntaxError_ok.mpr hc) _⟩
    | none =>
      simp only [] at h ⊢
      split at h
      · next op hop =>
        obtain ⟨⟨v₁, c₁⟩, s₂, hunary, h⟩ := run_bind_some.mp h
        obtain ⟨tree, htree⟩ := ih.unary hunary
        obtain ⟨heq, -⟩ := run_pure.mp h
        cases heq
        simp only [hop]
        exact ⟨.unary op tree, ok_bind htree _⟩
      · next hop =>
        try simp only [hop]
        exact ih.primary h

theorem binary_succeeds {minPrecedence : Nat}
    (h : (parseBinary world label evaluate identifiers text (fuel + 1) noeval minPrecedence c).run s
      = (some (v, c'), s')) :
    ∃ tree, treeBinary identifiers text (fuel + 1) minPrecedence c = .ok (tree, c') := by
  rw [parseBinary] at h
  obtain ⟨⟨lhs, c₁⟩, s₁, hunary, h⟩ := run_bind_some.mp h
  obtain ⟨first, hfirst⟩ := ih.unary hunary
  rw [treeBinary, ok_bind hfirst]
  exact ih.operators h first

theorem operators_succeed {minPrecedence : Nat} {lhs : Word}
    (h : (parseOperators world label evaluate identifiers text (fuel + 1) noeval minPrecedence lhs
      c).run s = (some (v, c'), s')) (first : ArithmeticTree) :
    ∃ tree, treeOperators identifiers text (fuel + 1) minPrecedence first c = .ok (tree, c') := by
  simp only [parseOperators] at h
  simp only [treeOperators]
  obtain ⟨⟨op, c₁⟩, s₁, hop, h⟩ := run_bind_some.mp h
  obtain ⟨hpeek, -⟩ := run_orFail.mp hop
  rw [ok_bind (orSyntaxError_ok.mpr hpeek)]
  cases op with
  | none =>
    obtain ⟨heq, -⟩ := run_pure.mp h
    cases heq
    exact ⟨first, rfl⟩
  | some op =>
    simp only [] at h ⊢
    split at h
    · next hlow =>
      obtain ⟨heq, -⟩ := run_pure.mp h
      cases heq
      exact ⟨first, if_pos hlow⟩
    · next hlow =>
      obtain ⟨⟨rhs, c₂⟩, s₂, hbinary, h⟩ := run_bind_some.mp h
      obtain ⟨value, s₃, -, h⟩ := run_bind_some.mp h
      obtain ⟨second, hsecond⟩ := ih.binary hbinary
      rw [if_neg hlow, ok_bind hsecond]
      exact ih.operators h _

theorem ternary_succeeds
    (h : (parseTernary world label evaluate identifiers text (fuel + 1) noeval c).run s = (some (v,
      c'), s')) : ∃ tree, treeTernary identifiers text (fuel + 1) c = .ok (tree, c') := by
  simp only [parseTernary] at h
  simp only [treeTernary]
  obtain ⟨⟨test, c₁⟩, s₁, hbinary, h⟩ := run_bind_some.mp h
  obtain ⟨condition, hcondition⟩ := ih.binary hbinary
  rw [ok_bind hcondition]
  simp only [] at h ⊢
  split at h
  · next hmark =>
    obtain ⟨heq, -⟩ := run_pure.mp h
    cases heq
    exact ⟨condition, if_pos hmark⟩
  · next hmark =>
    rw [if_neg hmark]
    split at h
    · exact (run_fail h).elim
    · next hsome =>
      obtain ⟨⟨value, c₂⟩, s₂, hcomma, h⟩ := run_bind_some.mp h
      obtain ⟨whenTrue, htrue⟩ := ih.comma hcomma
      rw [if_neg hsome, ok_bind htrue]
      simp only [] at h ⊢
      split at h
      · exact (run_fail h).elim
      · next hcolon =>
        rw [if_neg hcolon]
        split at h
        · exact (run_fail h).elim
        · next hend =>
          obtain ⟨⟨value', c₃⟩, s₃, hternary, h⟩ := run_bind_some.mp h
          obtain ⟨whenFalse, hfalse⟩ := ih.ternary hternary
          obtain ⟨heq, -⟩ := run_pure.mp h
          cases heq
          rw [if_neg hend, ok_bind hfalse]
          exact ⟨_, rfl⟩

theorem assignment_succeeds
    (h : (parseAssignment world label evaluate identifiers text (fuel + 1) noeval c).run s = (some
      (v, c'), s')) : ∃ tree, treeAssignment identifiers text (fuel + 1) c = .ok (tree, c') := by
  simp only [parseAssignment] at h
  simp only [treeAssignment]
  obtain ⟨target, s₁, hfound, h⟩ := run_bind_some.mp h
  obtain ⟨htarget, -⟩ := run_orFail.mp hfound
  rw [ok_bind (orSyntaxError_ok.mpr htarget)]
  split at h
  · next lvalue op c₁ hassignment =>
    obtain ⟨⟨value, c₂⟩, s₂, hrhs, h⟩ := run_bind_some.mp h
    obtain ⟨rhs, hrhs⟩ := ih.assignment hrhs
    have hend : c₂ = c' := by
      cases op with
      | none =>
        obtain ⟨value', s₃, -, h⟩ := run_bind_some.mp h
        obtain ⟨-, s₄, -, h⟩ := run_bind_some.mp h
        exact congrArg Prod.snd (run_pure.mp h).1
      | some op =>
        obtain ⟨current, s₃, -, h⟩ := run_bind_some.mp h
        obtain ⟨value', s₄, -, h⟩ := run_bind_some.mp h
        obtain ⟨-, s₅, -, h⟩ := run_bind_some.mp h
        exact congrArg Prod.snd (run_pure.mp h).1
    subst hend
    try simp only [hassignment]
    exact ⟨_, ok_bind hrhs _⟩
  · next hassignment =>
    obtain ⟨⟨value, c₂⟩, s₂, hternary, h⟩ := run_bind_some.mp h
    obtain ⟨tree, htree⟩ := ih.ternary hternary
    try simp only [hassignment]
    rw [ok_bind htree]
    simp only [] at h ⊢
    split at h
    · exact (run_fail h).elim
    · next hnone =>
      obtain ⟨heq, -⟩ := run_pure.mp h
      cases heq
      exact ⟨tree, if_neg hnone⟩

theorem comma_succeeds
    (h : (parseComma world label evaluate identifiers text (fuel + 1) noeval c).run s = (some (v,
      c'), s')) : ∃ tree, treeComma identifiers text (fuel + 1) c = .ok (tree, c') := by
  rw [parseComma] at h
  obtain ⟨⟨value, c₁⟩, s₁, hassignment, h⟩ := run_bind_some.mp h
  obtain ⟨first, hfirst⟩ := ih.assignment hassignment
  rw [treeComma, ok_bind hfirst]
  exact ih.list h first

theorem list_succeeds {value : Word}
    (h : (parseList world label evaluate identifiers text (fuel + 1) noeval value c).run s = (some
      (v, c'), s')) (first : ArithmeticTree) :
    ∃ tree, treeList identifiers text (fuel + 1) first c = .ok (tree, c') := by
  simp only [parseList] at h
  simp only [treeList]
  split at h
  · next hcomma =>
    obtain ⟨heq, -⟩ := run_pure.mp h
    cases heq
    exact ⟨first, if_pos hcomma⟩
  · next hcomma =>
    obtain ⟨⟨value', c₁⟩, s₁, hassignment, h⟩ := run_bind_some.mp h
    obtain ⟨second, hsecond⟩ := ih.assignment hassignment
    rw [if_neg hcomma, ok_bind hsecond]
    exact ih.list h _

end

section
variable {σ : Type} {world : ArithmeticWorld σ} {label : String}
  {evaluate : Option (Bytes → Evaluation σ Word)} {identifiers : IdentifierScanner} {text : Bytes}

theorem levels_succeed (fuel : Nat) : LevelsSucceed world label evaluate identifiers text fuel := by
  induction fuel with
  | zero =>
    have hnone : ∀ {r : Word × Cursor} {s s' : σ},
        (failure : Evaluation σ (Word × Cursor)).run s ≠ (some r, s') := fun h =>
      nomatch congrArg Prod.fst h
    constructor
    · intro _ _ _ _ _ _ h
      rw [parsePrimary] at h
      exact (hnone h).elim
    · intro _ _ _ _ _ _ h
      rw [parseUnary] at h
      exact (hnone h).elim
    · intro _ _ _ _ _ _ _ h
      rw [parseBinary] at h
      exact (hnone h).elim
    · intro _ _ _ _ _ _ _ _ h
      rw [parseOperators] at h
      exact (hnone h).elim
    · intro _ _ _ _ _ _ h
      rw [parseTernary] at h
      exact (hnone h).elim
    · intro _ _ _ _ _ _ h
      rw [parseAssignment] at h
      exact (hnone h).elim
    · intro _ _ _ _ _ _ h
      rw [parseComma] at h
      exact (hnone h).elim
    · intro _ _ _ _ _ _ _ h
      rw [parseList] at h
      exact (hnone h).elim
  | succ fuel ih =>
    exact ⟨primary_succeeds ih, unary_succeeds ih, binary_succeeds ih, operators_succeed ih,
      ternary_succeeds ih, assignment_succeeds ih, comma_succeeds ih, list_succeeds ih⟩

theorem tree_of_evaluateTextWith {s s' : σ} {v : Word}
    (h : (evaluateTextWith world label identifiers evaluate text).run s = (some v, s')) :
    ∃ tree, arithmeticTree identifiers text = .ok tree := by
  simp only [evaluateTextWith] at h
  simp only [arithmeticTree]
  split at h
  · next hempty => exact ⟨.number 0, if_pos hempty⟩
  · next hempty =>
    obtain ⟨⟨value, c₁⟩, s₁, hcomma, h⟩ := run_bind_some.mp h
    obtain ⟨tree, htree⟩ := (levels_succeed _).comma hcomma
    rw [if_neg hempty, ok_bind htree]
    simp only [] at h ⊢
    split at h
    · exact (run_fail h).elim
    · next hend => exact ⟨tree, if_neg hend⟩

theorem shellArithmeticEvaluateText_some {left : Nat} {s s' : σ} {v : Word} :
    (shellArithmeticEvaluateText world label identifiers left text).run s = (some v, s') ↔
      ∃ tree, arithmeticTree identifiers text = .ok tree ∧
        (tree.eval world label (deeper world label identifiers left) 0).run s = (some v, s') := by
  constructor
  · intro h
    have htree : ∃ tree, arithmeticTree identifiers text = .ok tree := by
      cases left with
      | zero => exact tree_of_evaluateTextWith h
      | succ left => exact tree_of_evaluateTextWith h
    obtain ⟨tree, htree⟩ := htree
    rw [shellArithmeticEvaluateText_eq world label left htree] at h
    exact ⟨tree, htree, h⟩
  · rintro ⟨tree, htree, h⟩
    rw [shellArithmeticEvaluateText_eq world label left htree]
    exact h

end

end Pscal.Shell
