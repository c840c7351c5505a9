import Pscal.Shell.ArithmeticTokens

/-!
# Arithmetic is read by its grammar

* `levels_within`  more fuel changes nothing;
* `LevelsSound`, `levels_sound`  the tree that a level reads is derived;
* `ReadAs`, `Derives.readAs`  what is derived is read, with enough fuel;
* `arithmeticTree_iff`  a text has the trees of the grammar, so it has one at most.
-/

namespace Pscal.Shell

open List Option Checks
open Wire (Bytes)
open Paths (ascii)
open DecimalText (isDigit value)

/-! ## more fuel changes nothing -/

/-- `x` ran out of fuel, or is `y` -/
def Within {α : Type} (x y : Except TreeError α) : Prop := x = .error .outOfFuel ∨ x = y

variable {α : Type} {s s' : Bytes} {tree : ArithmeticTree}

theorem Within.refl (x : Except TreeError α) : Within x x := .inr rfl

theorem Within.bind {β : Type} {x y : Except TreeError α} {f g : α → Except TreeError β}
    (h : Within x y) (hf : ∀ a, Within (f a) (g a)) : Within (x >>= f) (y >>= g) := by
  rcases h with rfl | rfl
  · exact .inl rfl
  · cases x with
    | error e => exact .inr rfl
    | ok a => exact hf a

theorem Within.ite {p : Prop} [Decidable p] {x x' y y' : Except TreeError α} (h : Within x y)
    (h' : Within x' y') : Within (if p then x else x') (if p then y else y') := by
  by_cases hp : p
  · rw [if_pos hp, if_pos hp]
    exact h
  · rw [if_neg hp, if_neg hp]
    exact h'

section
variable (identifiers : IdentifierScanner) (text : Bytes)

structure LevelsWithin (fuel : Nat) : Prop where
  primary : ∀ c, Within (treePrimary identifiers text fuel c)
    (treePrimary identifiers text (fuel + 1) c)
  unary : ∀ c, Within (treeUnary identifiers text fuel c) (treeUnary identifiers text (fuel + 1) c)
  binary : ∀ minPrecedence c, Within (treeBinary identifiers text fuel minPrecedence c)
    (treeBinary identifiers text (fuel + 1) minPrecedence c)
  operators : ∀ minPrecedence lhs c,
    Within (treeOperators identifiers text fuel minPrecedence lhs c)
      (treeOperators identifiers text (fuel + 1) minPrecedence lhs c)
  ternary : ∀ c, Within (treeTernary identifiers text fuel c)
    (treeTernary identifiers text (fuel + 1) c)
  assignment : ∀ c, Within (treeAssignment identifiers text fuel c)
    (treeAssignment identifiers text (fuel + 1) c)
  comma : ∀ c, Within (treeComma identifiers text fuel c) (treeComma identifiers text (fuel + 1) c)
  list : ∀ first c, Within (treeList identifiers text fuel first c)
    (treeList identifiers text (fuel + 1) first c)

theorem levels_within (fuel : Nat) : LevelsWithin identifiers text fuel := by
  induction fuel with
  | zero => exact ⟨fun _ => .inl rfl, fun _ => .inl rfl, fun _ _ => .inl rfl, fun _ _ _ => .inl rfl,
      fun _ => .inl rfl, fun _ => .inl rfl, fun _ => .inl rfl, fun _ _ => .inl rfl⟩
  | succ fuel ih =>
    constructor
    case primary =>
      intro c
      rw [treePrimary, treePrimary]
      dsimp only
      cases text[(shellArithmeticSkipWhitespace text c).pos]? with
      | none => exact .refl _
      | some ch => exact .ite (.bind (ih.comma _) fun _ => .refl _) (.refl _)
    case unary =>
      intro c
      rw [treeUnary, treeUnary]
      dsimp only
      cases text[(shellArithmeticSkipWhitespace text c).pos]? with
      | none => exact .refl _
      | some ch =>
        refine .bind (.refl _) fun stepped => ?_
        cases stepped with
        | some stepped => exact .refl _
        | none =>
          cases UnaryOp.ofByte ch with
          | some op => exact .bind (ih.unary _) fun _ => .refl _
          | none => exact ih.primary _
    case binary =>
      intro minPrecedence c
      rw [treeBinary, treeBinary]
      exact .bind (ih.unary c) fun r => ih.operators minPrecedence r.1 r.2
    case operators =>
      intro minPrecedence lhs c
      rw [treeOperators, treeOperators]
      refine .bind (.refl _) fun r => ?_
      obtain ⟨op, c⟩ := r
      cases op with
      | none => exact .refl _
      | some op =>
        exact .ite (.refl _) (.bind (ih.binary _ _) fun r => ih.operators minPrecedence _ r.2)
    case ternary =>
      intro c
      rw [treeTernary, treeTernary]
      refine .bind (ih.binary 1 c) fun r => ?_
      refine .ite (.refl _) (.ite (.refl _) (.bind (ih.comma _) fun r => ?_))
      exact .ite (.refl _) (.ite (.refl _) (.bind (ih.ternary _) fun _ => .refl _))
    case assignment =>
      intro c
      rw [treeAssignment, treeAssignment]
      refine .bind (.refl _) fun target => ?_
      dsimp only
      split
      · exact .bind (ih.assignment _) fun _ => .refl _
      · exact .bind (ih.ternary _) fun _ => .refl _
    case comma =>
      intro c
      rw [treeComma, treeComma]
      exact .bind (ih.assignment c) fun r => ih.list r.1 r.2
    case list =>
      intro first c
      rw [treeList, treeList]
      exact .ite (.refl _) (.bind (ih.assignment _) fun r => ih.list _ r.2)

end

/-! ## what is read is derived -/

def Stops (bound : Nat) (s : Bytes) : Prop := ∀ op, binaryOpAt s = some op → op.precedence < bound

def followBound (level : Nat) : Nat := if level = 11 then 11 else level + 1

/-- an operand of a level, where 12 stands for a unary one -/
def OperandAt (level : Nat) (s : Bytes) (tree : ArithmeticTree) (s' : Bytes) : Prop :=
  (level = 12 ∧ Derives .unary s tree s') ∨
    (level ≤ 11 ∧ Derives (.binary level) s tree s' ∧ Stops (followBound level) s')

theorem Derives.looser {low high : Nat} (hle : low ≤ high) (hhigh : high ≤ 11)
    (h : Derives (.binary high) s tree s') : Derives (.binary low) s tree s' := by
  induction high, hle using Nat.le_induction with
  | base => exact h
  | succ high hle ih => exact ih (by omega) (.tighter (by omega) h)

theorem OperandAt.binary {level low : Nat} (h : OperandAt level s tree s') (hle : low ≤ level)
    (hlow : low ≤ 11) : Derives (.binary low) s tree s' := by
  rcases h with ⟨rfl, h⟩ | ⟨hhigh, h, -⟩
  · exact (Derives.ofUnary h).looser hlow (Nat.le_refl _)
  · exact h.looser hle hhigh

theorem level_power {op : ArithmeticOp} (h : op.level = 11) : op = .power := by
  cases op <;> first | rfl | exact absurd h (by decide)

section
variable (text : Bytes)

structure LevelsSound (fuel : Nat) : Prop where
  primary : ∀ {c tree c'}, treePrimary shellIdentifiers text fuel c = .ok (tree, c') →
    Derives .primary (restAt text c) tree (restAt text c')
  unary : ∀ {c tree c'}, treeUnary shellIdentifiers text fuel c = .ok (tree, c') →
    Derives .unary (restAt text c) tree (restAt text c')
  binary : ∀ {level c tree c'}, level ≤ 11 →
    treeBinary shellIdentifiers text fuel level c = .ok (tree, c') →
    Derives (.binary level) (restAt text c) tree (restAt text c') ∧ Stops level (restAt text c')
  operators : ∀ {level high s lhs c tree c'}, level ≤ 11 → level ≤ high →
    OperandAt high s lhs (restAt text c) →
    treeOperators shellIdentifiers text fuel level lhs c = .ok (tree, c') →
    Derives (.binary level) s tree (restAt text c') ∧ Stops level (restAt text c')
  ternary : ∀ {c tree c'}, treeTernary shellIdentifiers text fuel c = .ok (tree, c') →
    Derives .conditional (restAt text c) tree (restAt text c')
  assignment : ∀ {c tree c'}, treeAssignment shellIdentifiers text fuel c = .ok (tree, c') →
    Derives .assignment (restAt text c) tree (restAt text c')
  comma : ∀ {c tree c'}, treeComma shellIdentifiers text fuel c = .ok (tree, c') →
    Derives .comma (restAt text c) tree (restAt text c')
  list : ∀ {s first c tree c'}, Derives .comma s first (restAt text c) →
    treeList shellIdentifiers text fuel first c = .ok (tree, c') →
    Derives .comma s tree (restAt text c')

variable {text}

variable {c : Cursor}

theorem restAt_of_getElem? {b : UInt8}
    (h : text[(shellArithmeticSkipWhitespace text c).pos]? = some b) : ∃ r, restAt text c = b :: r ∧
      restAt text ((shellArithmeticSkipWhitespace text c).advance 1) = behindBlanks r := by
  rw [getElem?_skip] at h
  obtain ⟨r, hr⟩ := head?_eq_some_iff.mp h
  refine ⟨r, hr, ?_⟩
  rw [restAt, drop_advance, drop_skip, hr]
  rfl

theorem steppedLvalue_some {c' : Cursor} {increment : Bool} {lvalue : ShellArithmeticLvalue}
    (h : steppedLvalue shellIdentifiers text c = .ok (some (increment, lvalue, c'))) :
    ∃ s, text.drop c.pos = stepSymbol increment ++ s ∧
      LvalueAt (behindBlanks s) lvalue (text.drop c'.pos) := by
  rw [steppedLvalue] at h
  split at h
  · cases h
  · next step hstep =>
    obtain ⟨found, hfound, heq⟩ := map_ok.mp h
    obtain ⟨⟨lvalue', c₁⟩, rfl, heq⟩ := map_eq_some_iff.mp heq
    cases heq
    obtain ⟨s, hs⟩ := peekStep_some.mp hstep
    have hlength : (stepSymbol increment).length = 2 := by cases increment <;> rfl
    have hlvalue := lvalueAt_of_parseLvalue hfound
    rw [drop_skip, restAt, ← hlength, drop_append_advance hs] at hlvalue
    exact ⟨s, hs, hlvalue⟩

theorem not_steppedAt_of_none (h : steppedLvalue shellIdentifiers text c = .ok none) :
    ¬ SteppedAt (text.drop c.pos) := by
  rintro ⟨increment, s, lvalue, s', hs, hlvalue⟩
  have hlength : (stepSymbol increment).length = 2 := by cases increment <;> rfl
  rw [steppedLvalue, peekStep_some.mpr ⟨s, hs⟩] at h
  have hat : text.drop (shellArithmeticSkipWhitespace text (c.advance 2)).pos = behindBlanks s := by
    rw [drop_skip, restAt, ← hlength, drop_append_advance hs]
  obtain ⟨c', hparse, -⟩ := parseLvalue_of_lvalueAt (hat ▸ hlvalue)
  rw [hparse] at h
  cases h

theorem UnaryOp.ofByte_symbol {b : UInt8} {op : UnaryOp} :
    UnaryOp.ofByte b = some op ↔ b = op.symbol := by
  constructor
  · intro h
    rw [UnaryOp.ofByte] at h
    split at h
    · next hb =>
      cases h
      exact hb
    · split at h
      · next hb =>
        cases h
        exact hb
      · split at h
        · next hb =>
          cases h
          exact hb
        · split at h
          · next hb =>
            cases h
            exact hb
          · cases h
  · rintro rfl
    cases op <;> rfl

theorem afterStep_ok {c' : Cursor} : afterStep text c = .ok c' ↔
      ¬ StepAt (restAt text c) ∧ c' = shellArithmeticSkipWhitespace text c := by
  rw [afterStep, ← drop_skip]
  cases hstep : peekStep text (shellArithmeticSkipWhitespace text c) with
  | some increment =>
    have hat : StepAt (text.drop (shellArithmeticSkipWhitespace text c).pos) :=
      ⟨increment, peekStep_some.mp hstep⟩
    cases increment with
    | true => exact ⟨by simp, fun h => absurd hat h.1⟩
    | false => exact ⟨by simp, fun h => absurd hat h.1⟩
  | none =>
    refine ⟨fun h => ⟨peekStep_none.mp hstep, ?_⟩, fun h => ?_⟩
    · cases h
      rfl
    · rw [h.2]

section
variable {fuel : Nat} (ih : LevelsSound text fuel)
include ih

variable {c c' : Cursor} {tree : ArithmeticTree}

theorem primary_sound (h : treePrimary shellIdentifiers text (fuel + 1) c = .ok (tree, c')) :
    Derives .primary (restAt text c) tree (restAt text c') := by
  rw [treePrimary] at h
  dsimp only at h
  split at h
  · cases h
  · next ch hch =>
    obtain ⟨r, hr, hnext⟩ := restAt_of_getElem? hch
    split at h
    · next hparen =>
      obtain ⟨⟨inner, c₁⟩, hinner, h⟩ := bind_ok.mp h
      dsimp only at h
      split at h
      · next hclose =>
        cases h
        obtain ⟨r', hr', hnext'⟩ := restAt_of_getElem? hclose
        have hinner' := ih.comma hinner
        rw [hnext, hr'] at hinner'
        rw [hr, hnext', hparen]
        exact .parens hinner'
      · cases h
    · split at h
      · next hdigit =>
        obtain ⟨⟨v, c₁⟩, hnumber, h⟩ := bind_ok.mp h
        cases h
        obtain ⟨n, rfl, hconstant⟩ := constantAt_of_parseNumber (orSyntaxError_ok.mp hnumber)
          (by rw [drop_skip, hr]) hdigit
        rw [drop_skip] at hconstant
        exact .number hconstant
      · obtain ⟨target, htarget, h⟩ := bind_ok.mp h
        split at h
        · cases h
        · next lvalue c₁ =>
          have hlvalue := lvalueAt_of_parseLvalue (orSyntaxError_ok.mp htarget)
          rw [drop_skip] at hlvalue
          split at h
          · next increment hstep =>
            cases h
            obtain ⟨s', hs'⟩ := peekStep_some.mp hstep
            have hlength : (stepSymbol increment).length = 2 := by cases increment <;> rfl
            have hbehind : restAt text ((shellArithmeticSkipWhitespace text c₁).advance 2) =
                behindBlanks s' := by
              rw [restAt, ← hlength, drop_append_advance hs']
            rw [hbehind]
            rw [drop_skip] at hs'
            exact .thenStep hlvalue hs'
          · next hstep =>
            cases h
            have hno := peekStep_none.mp hstep
            rw [drop_skip] at hno
            rw [restAt_skip]
            exact .read hlvalue hno

theorem unary_sound (h : treeUnary shellIdentifiers text (fuel + 1) c = .ok (tree, c')) :
    Derives .unary (restAt text c) tree (restAt text c') := by
  rw [treeUnary] at h
  dsimp only at h
  split at h
  · cases h
  · next ch hch =>
    obtain ⟨r, hr, hnext⟩ := restAt_of_getElem? hch
    obtain ⟨stepped, hstepped, h⟩ := bind_ok.mp h
    rw [orSyntaxError_ok] at hstepped
    split at h
    · next increment lvalue c₁ =>
      obtain ⟨c₂, hafter, h⟩ := bind_ok.mp h
      cases h
      obtain ⟨s, hs, hlvalue⟩ := steppedLvalue_some hstepped
      obtain ⟨hno, rfl⟩ := afterStep_ok.mp (orSyntaxError_ok.mp hafter)
      rw [drop_skip] at hs
      rw [hs, restAt_skip]
      exact .stepped hlvalue hno
    · have hno := not_steppedAt_of_none hstepped
      rw [drop_skip, hr] at hno
      split at h
      · next op hop =>
        obtain ⟨⟨operand, c₁⟩, hoperand, h⟩ := bind_ok.mp h
        cases h
        obtain rfl := UnaryOp.ofByte_symbol.mp hop
        have hoperand' := ih.unary hoperand
        rw [hnext] at hoperand'
        rw [hr]
        exact .sign hno hoperand'
      · have hprimary := ih.primary h
        rw [restAt_skip] at hprimary
        exact .ofPrimary hprimary

theorem binary_sound {level : Nat} (hlevel : level ≤ 11)
    (h : treeBinary shellIdentifiers text (fuel + 1) level c = .ok (tree, c')) :
    Derives (.binary level) (restAt text c) tree (restAt text c') ∧
      Stops level (restAt text c') := by
  rw [treeBinary] at h
  obtain ⟨⟨lhs, c₁⟩, hlhs, h⟩ := bind_ok.mp h
  exact ih.operators hlevel (by omega) (.inl ⟨rfl, ih.unary hlhs⟩) h

theorem operators_sound {level high : Nat} {s : Bytes} {lhs : ArithmeticTree} (hlevel : level ≤ 11)
    (hhigh : level ≤ high) (hlhs : OperandAt high s lhs (restAt text c))
    (h : treeOperators shellIdentifiers text (fuel + 1) level lhs c = .ok (tree, c')) :
    Derives (.binary level) s tree (restAt text c') ∧ Stops level (restAt text c') := by
  rw [treeOperators] at h
  obtain ⟨⟨op, c₁⟩, hop, h⟩ := bind_ok.mp h
  obtain ⟨-, rfl, rfl⟩ := peekBinaryOp_iff.mp (orSyntaxError_ok.mp hop)
  dsimp only at h
  split at h
  · next hnone =>
    cases h
    rw [restAt_skip]
    refine ⟨hlhs.binary hhigh hlevel, fun op hsome => ?_⟩
    rw [hnone] at hsome
    cases hsome
  · next op hsome =>
    obtain ⟨htext, hprecedence, hlow, hmost, s₁, hs₁⟩ := binaryOpAt_some hsome
    split at h
    · next hstop =>
      cases h
      rw [restAt_skip]
      refine ⟨hlhs.binary hhigh hlevel, fun op' hsome' => ?_⟩
      rw [hsome] at hsome'
      cases hsome'
      exact hstop
    · next hgo =>
      obtain ⟨⟨rhs, c₂⟩, hrhs, h⟩ := bind_ok.mp h
      have hbehind : restAt text ((shellArithmeticSkipWhitespace text c).advance op.text.length) =
          behindBlanks s₁ := by
        rw [restAt, htext, drop_append_advance (by rw [drop_skip, hs₁])]
      rw [hprecedence] at hrhs hgo
      by_cases hpower : op.op.level = 11
      · have hop : op.op = .power := level_power hpower
        rw [if_pos hpower, hpower] at hrhs
        obtain ⟨hrhs', hstops⟩ := ih.binary (Nat.le_refl _) hrhs
        rw [hbehind] at hrhs'
        -- a power is no operand of the next one
        have hunary : Derives .unary s lhs (restAt text c) := by
          rcases hlhs with ⟨-, hlhs⟩ | ⟨hhigh', -, hfollow⟩
          · exact hlhs
          · have hlt := hfollow op hsome
            rw [hprecedence, hpower, followBound] at hlt
            split at hlt <;> omega
        rw [hs₁, hop] at hunary
        rw [hop] at h
        exact ih.operators hlevel hlevel (.inr ⟨Nat.le_refl _, .power hunary hrhs', hstops⟩) h
      · have hlt : op.op.level < 11 := by omega
        rw [if_neg hpower] at hrhs
        obtain ⟨hrhs', hstops⟩ := ih.binary (by omega) hrhs
        rw [hbehind] at hrhs'
        have hle : op.op.level ≤ high := by
          rcases hlhs with ⟨rfl, -⟩ | ⟨hhigh', -, hfollow⟩
          · omega
          · have hlt' := hfollow op hsome
            rw [hprecedence, followBound] at hlt'
            split at hlt' <;> omega
        have hleft := hlhs.binary hle (by omega)
        rw [hs₁] at hleft
        refine ih.operators hlevel (Nat.not_lt.mp hgo)
          (.inr ⟨by omega, .operator hlt hleft hrhs', ?_⟩) h
        rw [followBound, if_neg hpower]
        exact hstops

theorem ternary_sound (h : treeTernary shellIdentifiers text (fuel + 1) c = .ok (tree, c')) :
    Derives .conditional (restAt text c) tree (restAt text c') := by
  rw [treeTernary] at h
  obtain ⟨⟨condition, c₁⟩, hcondition, h⟩ := bind_ok.mp h
  obtain ⟨hcondition', -⟩ := ih.binary (by decide) hcondition
  dsimp only at h
  split at h
  · cases h
    rw [restAt_skip]
    exact .ofBinary hcondition'
  · next hmark =>
    obtain ⟨r, hr, hnext⟩ := restAt_of_getElem? (not_not.mp hmark)
    split at h
    · cases h
    · obtain ⟨⟨whenTrue, c₂⟩, htrue, h⟩ := bind_ok.mp h
      have htrue' := ih.comma htrue
      rw [restAt_skip, hnext] at htrue'
      dsimp only at h
      split at h
      · cases h
      · next hcolon =>
        obtain ⟨r', hr', hnext'⟩ := restAt_of_getElem? (not_not.mp hcolon)
        split at h
        · cases h
        · obtain ⟨⟨whenFalse, c₃⟩, hfalse, h⟩ := bind_ok.mp h
          cases h
          have hfalse' := ih.ternary hfalse
          rw [restAt_skip, hnext'] at hfalse'
          rw [hr'] at htrue'
          rw [hr] at hcondition'
          exact .conditional hcondition' htrue' hfalse'

theorem assignment_sound (h : treeAssignment shellIdentifiers text (fuel + 1) c = .ok (tree, c')) :
    Derives .assignment (restAt text c) tree (restAt text c') := by
  rw [treeAssignment] at h
  obtain ⟨target, htarget, h⟩ := bind_ok.mp h
  rw [orSyntaxError_ok] at htarget
  dsimp only at h
  split at h
  · next lvalue op c₁ hassignment =>
    obtain ⟨⟨rhs, c₂⟩, hrhs, h⟩ := bind_ok.mp h
    cases h
    obtain ⟨⟨lvalue', c₃⟩, rfl, hpeek⟩ := bind_eq_some_iff.mp hassignment
    obtain ⟨⟨op', length⟩, hop, heq⟩ := map_eq_some_iff.mp hpeek
    cases heq
    have hlvalue := lvalueAt_of_parseLvalue htarget
    rw [drop_skip] at hlvalue
    rw [peekAssignment_eq, drop_skip] at hop
    obtain ⟨s, hs, rfl⟩ := assignmentAt_some hop
    have hrhs' := ih.assignment hrhs
    rw [restAt, drop_append_advance (by rw [drop_skip, hs])] at hrhs'
    exact .assign hlvalue hs hrhs'
  · obtain ⟨⟨inner, c₁⟩, hinner, h⟩ := bind_ok.mp h
    dsimp only at h
    split at h
    · cases h
    · cases h
      have hinner' := ih.ternary hinner
      rw [restAt_skip] at hinner' ⊢
      exact .ofConditional hinner'

theorem comma_sound (h : treeComma shellIdentifiers text (fuel + 1) c = .ok (tree, c')) :
    Derives .comma (restAt text c) tree (restAt text c') := by
  rw [treeComma] at h
  obtain ⟨⟨first, c₁⟩, hfirst, h⟩ := bind_ok.mp h
  exact ih.list (.ofAssignment (ih.assignment hfirst)) h

theorem list_sound {s : Bytes} {first : ArithmeticTree}
    (hfirst : Derives .comma s first (restAt text c))
    (h : treeList shellIdentifiers text (fuel + 1) first c = .ok (tree, c')) :
    Derives .comma s tree (restAt text c') := by
  rw [treeList] at h
  dsimp only at h
  split at h
  · cases h
    rw [restAt_skip]
    exact hfirst
  · next hcomma =>
    obtain ⟨r, hr, hnext⟩ := restAt_of_getElem? (not_not.mp hcomma)
    obtain ⟨⟨second, c₁⟩, hsecond, h⟩ := bind_ok.mp h
    have hsecond' := ih.assignment hsecond
    rw [hnext] at hsecond'
    rw [hr] at hfirst
    exact ih.list (.comma hfirst hsecond') h

end

variable (text) in
theorem levels_sound (fuel : Nat) : LevelsSound text fuel := by
  induction fuel with
  | zero => exact ⟨nofun, nofun, nofun, nofun, nofun, nofun, nofun, nofun⟩
  | succ fuel ih =>
    exact ⟨primary_sound ih, unary_sound ih, binary_sound ih, operators_sound ih, ternary_sound ih,
      assignment_sound ih, comma_sound ih, list_sound ih⟩

end

/-! ## what is derived is read -/

def Eventually {α : Type} (f : Nat → Except TreeError α) (a : α) : Prop :=
  ∃ n, ∀ fuel, n ≤ fuel → f fuel = .ok a

section
variable {α β : Type}

variable {a : α} {f : Nat → Except TreeError α}

theorem Eventually.const (h : ∀ fuel, f fuel = .ok a) : Eventually f a := ⟨0, fun fuel _ => h fuel⟩

theorem Eventually.of_succ (h : Eventually (fun fuel => f (fuel + 1)) a) : Eventually f a := by
  obtain ⟨n, hn⟩ := h
  refine ⟨n + 1, fun fuel hle => ?_⟩
  obtain ⟨fuel, rfl⟩ := Nat.exists_eq_add_of_le' (Nat.le_of_add_left_le hle)
  exact hn fuel (by omega)

theorem Eventually.bind {g : Nat → α → Except TreeError β} {b : β} (h : Eventually f a)
    (hg : Eventually (fun fuel => g fuel a) b) : Eventually (fun fuel => f fuel >>= g fuel) b := by
  obtain ⟨n, hn⟩ := h
  obtain ⟨m, hm⟩ := hg
  refine ⟨max n m, fun fuel hle => ?_⟩
  exact bind_ok.mpr ⟨a, hn fuel (by omega), hm fuel (by omega)⟩

end

theorem not_digit_of_identifier {b : UInt8} (h : isalpha b = true ∨ b = 95 ∨ 128 ≤ b) :
    ¬ isDigit b = true ∧ b ∉ ascii "(+-!~" := by
  have hlist : ascii "(+-!~" = [40, 43, 45, 33, 126] := rfl
  rw [hlist]
  constructor
  · intro hdigit
    rw [isDigit, Bool.and_eq_true, decide_eq_true_eq, decide_eq_true_eq, UInt8.le_iff_toNat_le,
      UInt8.le_iff_toNat_le] at hdigit
    simp only [isalpha, Bool.or_eq_true, Bool.and_eq_true, decide_eq_true_eq,
      UInt8.le_iff_toNat_le, ← UInt8.toNat_inj, UInt8.reduceToNat] at h hdigit
    omega
  · intro hmem
    simp only [mem_cons, not_mem_nil, or_false] at hmem
    rcases hmem with rfl | rfl | rfl | rfl | rfl <;> exact absurd h (by decide)

theorem Derives.lvalue {level : ExpressionLevel} (h : Derives level s tree s') {n : Nat}
    (hn : consumeShellIdentifier s false = some n) : ∃ lvalue s₁, LvalueAt s lvalue s₁ ∧
      (level ≠ .assignment → level ≠ .comma → assignmentAt s' = none →
        assignmentAt (behindBlanks s₁) = none) := by
  obtain ⟨b, r, hs, hb⟩ := identifier_head hn
  induction h with
  | number h =>
    obtain ⟨b', r', hs', hb'⟩ := h.head
    obtain rfl : b' = b := (cons.inj (hs'.symm.trans hs)).1
    exact absurd hb' (not_digit_of_identifier hb).1
  | parens h ih =>
    obtain rfl : openParen = b := (cons.inj hs).1
    exact absurd (by decide) (not_digit_of_identifier hb).2
  | read h hno => exact ⟨_, _, h, fun _ _ hend => hend⟩
  | @thenStep s s₁ s' lvalue increment h hstep =>
    refine ⟨_, _, h, fun _ _ _ => ?_⟩
    rw [hstep]
    cases increment <;> rfl
  | ofPrimary h ih =>
    obtain ⟨lvalue, s₁, hlvalue, hassign⟩ := ih hn hs
    exact ⟨lvalue, s₁, hlvalue, fun _ _ => hassign nofun nofun⟩
  | @stepped s s' lvalue increment h hno =>
    cases increment with
    | true =>
      obtain rfl : 43 = b := (cons.inj hs).1
      exact absurd (by decide) (not_digit_of_identifier hb).2
    | false =>
      obtain rfl : 45 = b := (cons.inj hs).1
      exact absurd (by decide) (not_digit_of_identifier hb).2
  | @sign s s' op tree hno h ih =>
    obtain rfl : op.symbol = b := (cons.inj hs).1
    refine absurd ?_ (not_digit_of_identifier hb).2
    cases op <;> decide
  | ofUnary h ih =>
    obtain ⟨lvalue, s₁, hlvalue, hassign⟩ := ih hn hs
    exact ⟨lvalue, s₁, hlvalue, fun _ _ => hassign nofun nofun⟩
  | power hl hr ihl ihr =>
    obtain ⟨lvalue, s₁, hlvalue, hassign⟩ := ihl hn hs
    exact ⟨lvalue, s₁, hlvalue, fun _ _ _ =>
      hassign nofun nofun (binaryOpAt_symbol _ hr.noTail).2.2⟩
  | tighter hlevel h ih =>
    obtain ⟨lvalue, s₁, hlvalue, hassign⟩ := ih hn hs
    exact ⟨lvalue, s₁, hlvalue, fun _ _ => hassign nofun nofun⟩
  | operator hlevel hl hr ihl ihr =>
    obtain ⟨lvalue, s₁, hlvalue, hassign⟩ := ihl hn hs
    exact ⟨lvalue, s₁, hlvalue, fun _ _ _ =>
      hassign nofun nofun (binaryOpAt_symbol _ hr.noTail).2.2⟩
  | ofBinary h ih =>
    obtain ⟨lvalue, s₁, hlvalue, hassign⟩ := ih hn hs
    exact ⟨lvalue, s₁, hlvalue, fun _ _ => hassign nofun nofun⟩
  | conditional hc ht hf ihc iht ihf =>
    obtain ⟨lvalue, s₁, hlvalue, hassign⟩ := ihc hn hs
    exact ⟨lvalue, s₁, hlvalue, fun _ _ _ => hassign nofun nofun rfl⟩
  | ofConditional h ih =>
    obtain ⟨lvalue, s₁, hlvalue, -⟩ := ih hn hs
    exact ⟨lvalue, s₁, hlvalue, fun hlevel => absurd rfl hlevel⟩
  | assign h hop hr ih => exact ⟨_, _, h, fun hlevel => absurd rfl hlevel⟩
  | ofAssignment h ih =>
    obtain ⟨lvalue, s₁, hlvalue, -⟩ := ih hn hs
    exact ⟨lvalue, s₁, hlvalue, fun _ hlevel => absurd rfl hlevel⟩
  | comma hf hs' ihf ihs =>
    obtain ⟨lvalue, s₁, hlvalue, -⟩ := ihf hn hs
    exact ⟨lvalue, s₁, hlvalue, fun _ hlevel => absurd rfl hlevel⟩

section
variable (text : Bytes)

/-- The levels read what is derived, where it is not followed by more of it. -/
def ReadAs : ExpressionLevel → Bytes → ArithmeticTree → Bytes → Prop
  | .primary, s, tree, s' => ∀ c, restAt text c = s → ∃ c', restAt text c' = s' ∧
    Eventually (fun fuel => treePrimary shellIdentifiers text fuel c) (tree, c')
  | .unary, s, tree, s' => ∀ c, restAt text c = s → ∃ c', restAt text c' = s' ∧
    Eventually (fun fuel => treeUnary shellIdentifiers text fuel c) (tree, c')
  | .binary level, s, tree, s' => Follows (followBound level) s' →
    ∀ c, restAt text c = s → ∃ c', restAt text c' = s' ∧ ∀ low ≤ level, ∀ r,
      Eventually (fun fuel => treeOperators shellIdentifiers text fuel low tree c') r →
      Eventually (fun fuel => treeBinary shellIdentifiers text fuel low c) r
  | .conditional, s, tree, s' => EndsItem s' →
    ∀ c, restAt text c = s → ∃ c', restAt text c' = s' ∧
      Eventually (fun fuel => treeTernary shellIdentifiers text fuel c) (tree, c')
  | .assignment, s, tree, s' => EndsItem s' →
    ∀ c, restAt text c = s → ∃ c', restAt text c' = s' ∧
      Eventually (fun fuel => treeAssignment shellIdentifiers text fuel c) (tree, c')
  | .comma, s, tree, s' => EndsItem s' →
    ∀ c, restAt text c = s → ∃ c', restAt text c' = s' ∧ ∀ r,
      Eventually (fun fuel => treeList shellIdentifiers text fuel tree c') r →
      Eventually (fun fuel => treeComma shellIdentifiers text fuel c) r

variable {text}

variable {c : Cursor} {s s' s₁ : Bytes} {b : UInt8} {lhs rhs tree : ArithmeticTree}

theorem head?_skip (hc : restAt text c = s) :
    text[(shellArithmeticSkipWhitespace text c).pos]? = s.head? := by
  rw [getElem?_skip, hc]

theorem restAt_pass {r : Bytes} (hc : restAt text c = b :: r) :
    restAt text ((shellArithmeticSkipWhitespace text c).advance 1) = behindBlanks r := by
  rw [restAt, drop_advance, drop_skip, hc]
  rfl

theorem operators_stop {bound : Nat} (tree : ArithmeticTree) (hc : restAt text c = s)
    (h : Follows bound s) :
    Eventually (fun fuel => treeOperators shellIdentifiers text fuel bound tree c)
      (tree, shellArithmeticSkipWhitespace text c) := by
  obtain ⟨hforeign, hop, -⟩ := h.binaryOp
  refine .of_succ (.const fun fuel => ?_)
  rw [treeOperators]
  refine bind_ok.mpr ⟨_, orSyntaxError_ok.mpr (peekBinaryOp_iff.mpr
    ⟨by rw [hc, hforeign], rfl, rfl⟩), ?_⟩
  rw [hc]
  cases hbinary : binaryOpAt s with
  | none => rfl
  | some op => exact if_pos (hop op hbinary)

theorem operators_step {c' : Cursor} {op : ArithmeticOp} {low : Nat} {r : ArithmeticTree × Cursor}
    (hc : restAt text c = op.symbol ++ s) (htail : NoTail s) (hlow : low ≤ op.level)
    (hrhs : Eventually (fun fuel => treeBinary shellIdentifiers text fuel (if op.level = 11 then
      op.level else op.level + 1) ((shellArithmeticSkipWhitespace text c).advance op.symbol.length))
      (rhs, c'))
    (hrest : Eventually (fun fuel => treeOperators shellIdentifiers text fuel low (.binary op lhs
      rhs) c') r) :
    Eventually (fun fuel => treeOperators shellIdentifiers text fuel low lhs c) r := by
  obtain ⟨hop, hforeign, -⟩ := binaryOpAt_symbol op htail
  refine .of_succ ?_
  simp only [treeOperators]
  refine .bind (.const fun fuel => orSyntaxError_ok.mpr (peekBinaryOp_iff.mpr
    ⟨by rw [hc, hforeign], rfl, rfl⟩)) ?_
  rw [hc, hop]
  simp only [Nat.not_lt.mpr hlow, if_false]
  exact hrhs.bind hrest

theorem list_stop (tree : ArithmeticTree) (hc : restAt text c = s) (h : EndsList s) :
    Eventually (fun fuel => treeList shellIdentifiers text fuel tree c)
      (tree, shellArithmeticSkipWhitespace text c) := by
  refine .of_succ (.const fun fuel => ?_)
  rw [treeList]
  refine if_pos ?_
  rw [head?_skip hc]
  rcases h with rfl | ⟨r, rfl | rfl⟩
  · simp
  · exact fun h => absurd (some.inj h) (by decide)
  · exact fun h => absurd (some.inj h) (by decide)

/-! ### operands -/

variable {lvalue : ShellArithmeticLvalue}

theorem primary_identifier {fuel : Nat} {c' : Cursor} (hc : restAt text c = s)
    (h : LvalueAt s lvalue s')
    (hparse : shellArithmeticParseLvalue shellIdentifiers text (shellArithmeticSkipWhitespace text
      c) = .ok (some (lvalue, c'))) :
    treePrimary shellIdentifiers text (fuel + 1) c =
      match peekStep text (shellArithmeticSkipWhitespace text c') with
      | some increment =>
        .ok (.thenStep lvalue increment, (shellArithmeticSkipWhitespace text c').advance 2)
      | none => .ok (.read lvalue, shellArithmeticSkipWhitespace text c') := by
  obtain ⟨n, hn⟩ := h.identifier
  obtain ⟨b, r, hs, hb⟩ := identifier_head hn
  obtain ⟨hdigit, hsymbol⟩ := not_digit_of_identifier hb
  have hparen : b ≠ openParen := by
    rintro rfl
    exact hsymbol (by decide)
  rw [treePrimary]
  simp only [head?_skip hc, hs, head?_cons]
  rw [if_neg hparen, if_neg hdigit, hparse]
  rfl

theorem readAs_number {rest : Bytes} {n : Nat} (h : ConstantAt s n rest) :
    ReadAs text .primary s (.number (BitVec.ofNat 64 n)) (behindBlanks rest) := by
  intro c hc
  obtain ⟨b, r, hs, hb⟩ := h.head
  have hat : text.drop (shellArithmeticSkipWhitespace text c).pos = s := by rw [drop_skip, hc]
  obtain ⟨c', hparse, hrest⟩ := parseNumber_of_constantAt (hat.symm ▸ h)
  refine ⟨c', by rw [restAt, hrest], .of_succ (.const fun fuel => ?_)⟩
  have hparen : b ≠ openParen := by
    rintro rfl
    exact absurd hb (by decide)
  rw [treePrimary]
  simp only [head?_skip hc, hs, head?_cons]
  rw [if_neg hparen, if_pos hb, hparse]
  rfl

theorem readAs_parens (ih : ReadAs text .comma (behindBlanks s) tree (closeParen :: s')) :
    ReadAs text .primary (openParen :: s) tree (behindBlanks s') := by
  intro c hc
  have hends : EndsList (closeParen :: s') := .inr ⟨s', .inl rfl⟩
  obtain ⟨c₁, hc₁, hlist⟩ := ih (.inl hends) _ (restAt_pass hc)
  have hc₂ : restAt text (shellArithmeticSkipWhitespace text c₁) = closeParen :: s' := by
    rw [restAt_skip, hc₁]
  refine ⟨_, restAt_pass hc₂, .of_succ ?_⟩
  simp only [treePrimary, head?_skip hc, head?_cons, if_true]
  refine (hlist _ (list_stop tree hc₁ hends)).bind (.const fun fuel => ?_)
  simp only [head?_skip hc₂, head?_cons, if_true]

theorem readAs_read (h : LvalueAt s lvalue s') (hno : ¬ StepAt (behindBlanks s')) :
    ReadAs text .primary s (.read lvalue) (behindBlanks s') := by
  intro c hc
  have hat : text.drop (shellArithmeticSkipWhitespace text c).pos = s := by rw [drop_skip, hc]
  obtain ⟨c', hparse, hrest⟩ := parseLvalue_of_lvalueAt (hat.symm ▸ h)
  have hstep : peekStep text (shellArithmeticSkipWhitespace text c') = none := by
    rw [peekStep_none, drop_skip, restAt, hrest]
    exact hno
  refine ⟨shellArithmeticSkipWhitespace text c', by rw [restAt_skip, restAt, hrest],
    .of_succ (.const fun fuel => ?_)⟩
  rw [primary_identifier hc h hparse, hstep]

theorem readAs_thenStep {increment : Bool} (h : LvalueAt s lvalue s₁)
    (hsymbol : behindBlanks s₁ = stepSymbol increment ++ s') :
    ReadAs text .primary s (.thenStep lvalue increment) (behindBlanks s') := by
  intro c hc
  have hat : text.drop (shellArithmeticSkipWhitespace text c).pos = s := by rw [drop_skip, hc]
  obtain ⟨c', hparse, hrest⟩ := parseLvalue_of_lvalueAt (hat.symm ▸ h)
  have hbehind : text.drop (shellArithmeticSkipWhitespace text c').pos =
      stepSymbol increment ++ s' := by
    rw [drop_skip, restAt, hrest, hsymbol]
  have hstep : peekStep text (shellArithmeticSkipWhitespace text c') = some increment :=
    peekStep_some.mpr ⟨s', hbehind⟩
  have hlength : (stepSymbol increment).length = 2 := by cases increment <;> rfl
  refine ⟨(shellArithmeticSkipWhitespace text c').advance 2, ?_, .of_succ (.const fun fuel => ?_)⟩
  · rw [restAt, ← hlength, drop_append_advance hbehind]
  · rw [primary_identifier hc h hparse, hstep]

/-! ### signs and steps -/

theorem Derives.primary_head (h : Derives .primary s tree s') :
    ∃ b r, s = b :: r ∧ b ∉ ascii "+-!~" := by
  have hlist : ascii "+-!~" = [43, 45, 33, 126] := rfl
  have hname {n : Nat} {s : Bytes} (hn : consumeShellIdentifier s false = some n) :
      ∃ b r, s = b :: r ∧ b ∉ ascii "+-!~" := by
    obtain ⟨b, r, hs, hb⟩ := identifier_head hn
    exact ⟨b, r, hs, fun hmem => (not_digit_of_identifier hb).2 (mem_cons_of_mem _ hmem)⟩
  cases h with
  | number h =>
    obtain ⟨b, r, hs, hb⟩ := h.head
    refine ⟨b, r, hs, fun hmem => ?_⟩
    rw [hlist] at hmem
    simp only [mem_cons, not_mem_nil, or_false] at hmem
    rcases hmem with rfl | rfl | rfl | rfl <;> exact absurd hb (by decide)
  | parens h => exact ⟨openParen, _, rfl, by decide⟩
  | read h hno =>
    obtain ⟨n, hn⟩ := h.identifier
    exact hname hn
  | thenStep h hstep =>
    obtain ⟨n, hn⟩ := h.identifier
    exact hname hn

theorem stepAt_head (h : StepAt s) : ∃ b r, s = b :: b :: r ∧ (b = 43 ∨ b = 45) := by
  obtain ⟨increment, s', rfl⟩ := h
  cases increment with
  | true => exact ⟨43, s', rfl, .inl rfl⟩
  | false => exact ⟨45, s', rfl, .inr rfl⟩

theorem steppedLvalue_none (h : ¬ StepAt (text.drop c.pos)) :
    steppedLvalue shellIdentifiers text c = .ok none := by
  rw [steppedLvalue, peekStep_none.mpr h]

theorem readAs_ofPrimary (h : Derives .primary s tree s') (ih : ReadAs text .primary s tree s') :
    ReadAs text .unary s tree s' := by
  intro c hc
  obtain ⟨b, r, hs, hb⟩ := h.primary_head
  have hlist : ascii "+-!~" = [43, 45, 33, 126] := rfl
  rw [hlist] at hb
  obtain ⟨c', hc', hprimary⟩ := ih (shellArithmeticSkipWhitespace text c) (by rw [restAt_skip, hc])
  refine ⟨c', hc', .of_succ ?_⟩
  have hstep : ¬ StepAt (text.drop (shellArithmeticSkipWhitespace text c).pos) := by
    rw [drop_skip, hc, hs]
    intro hstep
    obtain ⟨b', r', heq, hb'⟩ := stepAt_head hstep
    obtain ⟨rfl, -⟩ := cons.inj heq
    rcases hb' with rfl | rfl <;> exact hb (by decide)
  have hsign : UnaryOp.ofByte b = none := by
    cases hop : UnaryOp.ofByte b with
    | none => rfl
    | some op =>
      obtain rfl := UnaryOp.ofByte_symbol.mp hop
      refine absurd ?_ hb
      cases op <;> decide
  simp only [treeUnary, head?_skip hc, hs, head?_cons, steppedLvalue_none hstep]
  refine .bind (.const fun fuel => rfl) ?_
  simp only [hsign]
  exact hprimary

theorem readAs_stepped {increment : Bool} (h : LvalueAt (behindBlanks s) lvalue s')
    (hno : ¬ StepAt (behindBlanks s')) :
    ReadAs text .unary (stepSymbol increment ++ s) (.stepped increment lvalue)
      (behindBlanks s') := by
  intro c hc
  have hat : text.drop (shellArithmeticSkipWhitespace text c).pos = stepSymbol increment ++ s := by
    rw [drop_skip, hc]
  have hlength : (stepSymbol increment).length = 2 := by cases increment <;> rfl
  have hname : text.drop (shellArithmeticSkipWhitespace text
      ((shellArithmeticSkipWhitespace text c).advance 2)).pos = behindBlanks s := by
    rw [drop_skip, restAt, ← hlength, drop_append_advance hat]
  obtain ⟨c', hparse, hrest⟩ := parseLvalue_of_lvalueAt (hname.symm ▸ h)
  have hstepped : steppedLvalue shellIdentifiers text (shellArithmeticSkipWhitespace text c) =
      .ok (some (increment, lvalue, c')) := by
    rw [steppedLvalue, peekStep_some.mpr ⟨s, hat⟩, hparse]
    rfl
  refine ⟨shellArithmeticSkipWhitespace text c', by rw [restAt_skip, restAt, hrest],
    .of_succ (.const fun fuel => ?_)⟩
  have hafter : afterStep text c' = .ok (shellArithmeticSkipWhitespace text c') :=
    afterStep_ok.mpr ⟨by rw [restAt, hrest]; exact hno, rfl⟩
  obtain ⟨b, r, hs, -⟩ := stepAt_head (⟨increment, s, rfl⟩ : StepAt (stepSymbol increment ++ s))
  rw [treeUnary]
  simp only [head?_skip hc, hs, head?_cons, hstepped]
  exact bind_ok.mpr ⟨_, rfl, bind_ok.mpr ⟨_, orSyntaxError_ok.mpr hafter, rfl⟩⟩

theorem steppedLvalue_sign {op : UnaryOp} (hc : text.drop c.pos = op.symbol :: s)
    (hno : ¬ SteppedAt (op.symbol :: s)) (h : Derives .unary (behindBlanks s) tree s') :
    steppedLvalue shellIdentifiers text c = .ok none := by
  by_cases hstep : StepAt (op.symbol :: s)
  · obtain ⟨increment, s₁, hs₁⟩ := hstep
    obtain ⟨b, r, hs, hb⟩ := stepAt_head ⟨increment, s₁, hs₁⟩
    obtain ⟨hop, rfl⟩ := cons.inj hs
    have hr : s₁ = r := by
      have hlength : (stepSymbol increment).length = 2 := by cases increment <;> rfl
      have hdrop := congrArg (drop 2) (hs₁.symm.trans hs)
      rwa [← hlength, drop_left, hlength] at hdrop
    subst hr
    have hblank : isspace b = false := by rcases hb with rfl | rfl <;> rfl
    rw [behindBlanks, dropWhile_cons_of_neg (by rw [hblank]; exact Bool.false_ne_true)] at h
    have hat : text.drop (shellArithmeticSkipWhitespace text (c.advance 2)).pos =
        behindBlanks s₁ := by
      rw [drop_skip, restAt, drop_advance, hc]
      rfl
    have hname : consumeShellIdentifier (behindBlanks s₁) false = none := by
      cases hconsume : consumeShellIdentifier (behindBlanks s₁) false with
      | none => rfl
      | some n =>
        exfalso
        generalize hsign : b :: s₁ = s₂ at h
        cases h with
        | ofPrimary h =>
          obtain ⟨b', r', hs', hb'⟩ := h.primary_head
          obtain rfl := (cons.inj (hsign.trans hs')).1
          have hlist : ascii "+-!~" = [43, 45, 33, 126] := rfl
          rw [hlist] at hb'
          rcases hb with rfl | rfl <;> exact hb' (by decide)
        | @stepped s₃ s₄ lvalue increment' h hno' =>
          obtain ⟨b', r', hs', hb'⟩ := stepAt_head ⟨increment', s₃, hsign⟩
          obtain ⟨-, rfl⟩ := cons.inj hs'
          have hblank' : isspace b' = false := by rcases hb' with rfl | rfl <;> rfl
          rw [behindBlanks,
            dropWhile_cons_of_neg (by rw [hblank']; exact Bool.false_ne_true)] at hconsume
          obtain ⟨b'', r'', hs'', hb''⟩ := identifier_head hconsume
          obtain ⟨rfl, -⟩ := cons.inj hs''
          refine (not_digit_of_identifier hb'').2 ?_
          rcases hb' with rfl | rfl <;> decide
        | sign hno' h =>
          obtain ⟨-, rfl⟩ := cons.inj hsign
          obtain ⟨lvalue, s₄, hlvalue, -⟩ := h.lvalue hconsume
          exact hno ⟨increment, s₁, lvalue, s₄, hs₁, hlvalue⟩
    rw [steppedLvalue, peekStep_some.mpr ⟨s₁, by rw [hc, hs₁]⟩]
    dsimp only
    rw [parseLvalue_none (by rw [hat, hname])]
    rfl
  · exact steppedLvalue_none (by rw [hc]; exact hstep)

theorem readAs_sign {op : UnaryOp} (hno : ¬ SteppedAt (op.symbol :: s))
    (h : Derives .unary (behindBlanks s) tree s') (ih : ReadAs text .unary (behindBlanks s) tree s')
    : ReadAs text .unary (op.symbol :: s) (.unary op tree) s' := by
  intro c hc
  obtain ⟨c', hc', hunary⟩ := ih _ (restAt_pass hc)
  have hstepped := steppedLvalue_sign (c := shellArithmeticSkipWhitespace text c)
    (by rw [drop_skip, hc]) hno h
  refine ⟨c', hc', .of_succ ?_⟩
  simp only [treeUnary, head?_skip hc, head?_cons, hstepped]
  refine .bind (.const fun fuel => rfl) ?_
  simp only [UnaryOp.ofByte_symbol.mpr rfl]
  exact hunary.bind (.const fun fuel => rfl)

/-! ### operators -/

theorem readAs_ofUnary (ih : ReadAs text .unary s tree s') :
    ReadAs text (.binary 11) s tree s' := by
  intro _ c hc
  obtain ⟨c', hc', hunary⟩ := ih c hc
  refine ⟨c', hc', fun low _ r hr => .of_succ ?_⟩
  simp only [treeBinary]
  exact hunary.bind hr

theorem readAs_power (ihl : ReadAs text .unary s lhs (ArithmeticOp.power.symbol ++ s₁))
    (hr : Derives (.binary 11) (behindBlanks s₁) rhs s')
    (ihr : ReadAs text (.binary 11) (behindBlanks s₁) rhs s') :
    ReadAs text (.binary 11) s (.binary .power lhs rhs) s' := by
  intro hfollows c hc
  obtain ⟨c₁, hc₁, hunary⟩ := ihl c hc
  have hat : restAt text ((shellArithmeticSkipWhitespace text c₁).advance
      ArithmeticOp.power.symbol.length) = behindBlanks s₁ := by
    rw [restAt, drop_append_advance (by rw [drop_skip, hc₁])]
  obtain ⟨c₂, hc₂, hbinary⟩ := ihr hfollows _ hat
  refine ⟨shellArithmeticSkipWhitespace text c₂, by rw [restAt_skip, hc₂],
    fun low hlow r hrest => .of_succ ?_⟩
  simp only [treeBinary]
  refine hunary.bind (operators_step hc₁ hr.noTail hlow ?_ hrest)
  exact hbinary 11 (Nat.le_refl _) _ (operators_stop rhs hc₂ hfollows)

theorem followBound_of_lt {level : Nat} (h : level < 11) : followBound level = level + 1 := by
  rw [followBound, if_neg (by omega)]

theorem le_followBound (level : Nat) : level ≤ followBound level := by
  rw [followBound]
  split <;> omega

theorem readAs_tighter {level : Nat} (hlevel : level < 11)
    (ih : ReadAs text (.binary (level + 1)) s tree s') : ReadAs text (.binary level) s tree s' := by
  intro hfollows c hc
  rw [followBound_of_lt hlevel] at hfollows
  obtain ⟨c', hc', hbinary⟩ := ih (hfollows.mono (le_followBound _)) c hc
  exact ⟨c', hc', fun low hlow => hbinary low (by omega)⟩

theorem readAs_operator {op : ArithmeticOp} (hlevel : op.level < 11)
    (ihl : ReadAs text (.binary op.level) s lhs (op.symbol ++ s₁))
    (hr : Derives (.binary (op.level + 1)) (behindBlanks s₁) rhs s')
    (ihr : ReadAs text (.binary (op.level + 1)) (behindBlanks s₁) rhs s') :
    ReadAs text (.binary op.level) s (.binary op lhs rhs) s' := by
  intro hfollows c hc
  rw [followBound_of_lt hlevel] at hfollows
  have hleft : Follows (followBound op.level) (op.symbol ++ s₁) := by
    rw [followBound_of_lt hlevel]
    exact .inr (.inr ⟨op, s₁, rfl, Nat.lt_succ_self _, hr.noTail⟩)
  obtain ⟨c₁, hc₁, hlhs⟩ := ihl hleft c hc
  have hat : restAt text ((shellArithmeticSkipWhitespace text c₁).advance op.symbol.length) =
      behindBlanks s₁ := by
    rw [restAt, drop_append_advance (by rw [drop_skip, hc₁])]
  obtain ⟨c₂, hc₂, hbinary⟩ := ihr (hfollows.mono (le_followBound _)) _ hat
  refine ⟨shellArithmeticSkipWhitespace text c₂, by rw [restAt_skip, hc₂],
    fun low hlow r hrest => hlhs low hlow r (operators_step hc₁ hr.noTail hlow ?_ hrest)⟩
  rw [if_neg (by omega)]
  exact hbinary _ (Nat.le_refl _) _ (operators_stop rhs hc₂ hfollows)

/-! ### conditionals, assignments and lists -/

theorem binary_whole (ih : ReadAs text (.binary 1) s tree s') (h : ∀ bound, Follows bound s')
    (hc : restAt text c = s) : ∃ c', restAt text c' = s' ∧
      Eventually (fun fuel => treeBinary shellIdentifiers text fuel 1 c) (tree, c') := by
  obtain ⟨c', hc', hbinary⟩ := ih (h _) c hc
  exact ⟨shellArithmeticSkipWhitespace text c', by rw [restAt_skip, hc'],
    hbinary 1 (Nat.le_refl _) _ (operators_stop tree hc' (h 1))⟩

theorem EndsItem.head (h : EndsItem s) (hb : s.head? = some b) :
    b = closeParen ∨ b = 58 ∨ b = 44 := by
  rcases h with (rfl | ⟨r, rfl | rfl⟩) | ⟨r, rfl⟩
  · cases hb
  · exact .inl (some.inj hb).symm
  · exact .inr (.inl (some.inj hb).symm)
  · exact .inr (.inr (some.inj hb).symm)

theorem readAs_ofBinary (ih : ReadAs text (.binary 1) s tree s') :
    ReadAs text .conditional s tree s' := by
  intro hends c hc
  obtain ⟨c', hc', hbinary⟩ := binary_whole ih hends.follows hc
  refine ⟨shellArithmeticSkipWhitespace text c', by rw [restAt_skip, hc'], .of_succ ?_⟩
  simp only [treeTernary]
  refine hbinary.bind (.const fun fuel => if_pos ?_)
  rw [head?_skip hc']
  intro hmark
  rcases hends.head hmark with hb | hb | hb <;> exact absurd hb (by decide)

theorem StartsOperand.ne_colon (h : StartsOperand b) : b ≠ 58 := by
  rintro rfl
  rw [StartsOperand] at h
  exact absurd h (by decide)

theorem readAs_conditional {s₂ : Bytes} {condition whenTrue whenFalse : ArithmeticTree}
    (ht : Derives .comma (behindBlanks s₁) whenTrue (58 :: s₂))
    (hf : Derives .conditional (behindBlanks s₂) whenFalse s')
    (ihc : ReadAs text (.binary 1) s condition (63 :: s₁))
    (iht : ReadAs text .comma (behindBlanks s₁) whenTrue (58 :: s₂))
    (ihf : ReadAs text .conditional (behindBlanks s₂) whenFalse s') :
    ReadAs text .conditional s (.conditional condition whenTrue whenFalse) s' := by
  intro hends c hc
  have hcolon : EndsList (58 :: s₂) := .inr ⟨s₂, .inr rfl⟩
  obtain ⟨bt, rt, hbt, hstart⟩ := ht.head
  obtain ⟨bf, rf, hbf, -⟩ := hf.head
  obtain ⟨c₁, hc₁, hcondition⟩ := binary_whole ihc (fun _ => .inr (.inl ⟨s₁, rfl⟩)) hc
  have hc₂ := restAt_pass hc₁
  obtain ⟨c₃, hc₃, hlist⟩ := iht (.inl hcolon)
    (shellArithmeticSkipWhitespace text ((shellArithmeticSkipWhitespace text c₁).advance 1))
    (by rw [restAt_skip, hc₂])
  have htrue := hlist _ (list_stop whenTrue hc₃ hcolon)
  have hc₄ : restAt text (shellArithmeticSkipWhitespace text c₃) = 58 :: s₂ := by
    rw [restAt_skip, hc₃]
  have hc₅ := restAt_pass hc₄
  obtain ⟨c', hc', hfalse⟩ := ihf hends
    (shellArithmeticSkipWhitespace text
      ((shellArithmeticSkipWhitespace text (shellArithmeticSkipWhitespace text c₃)).advance 1))
    (by rw [restAt_skip, hc₅])
  refine ⟨c', hc', .of_succ ?_⟩
  simp only [treeTernary]
  refine hcondition.bind ?_
  have hend : ¬ (some bt = none ∨ some bt = some (58 : UInt8)) := by
    rintro (h | h)
    · cases h
    · exact hstart.ne_colon (some.inj h)
  simp only [head?_skip hc₁, head?_cons, ne_eq, not_true_eq_false, if_false, head?_skip hc₂, hbt]
  simp only [if_neg hend]
  refine htrue.bind ?_
  simp only [head?_skip hc₄, head?_cons, not_true_eq_false, if_false,
    head?_skip hc₅, hbf, reduceCtorEq]
  exact hfalse.bind (.const fun fuel => rfl)

theorem EndsItem.assignmentAt (h : EndsItem s) : assignmentAt s = none :=
  (h.follows 0).binaryOp.2.2

theorem readAs_ofConditional (h : Derives .conditional s tree s')
    (ih : ReadAs text .conditional s tree s') : ReadAs text .assignment s tree s' := by
  intro hends c hc
  have hat : text.drop (shellArithmeticSkipWhitespace text c).pos = s := by rw [drop_skip, hc]
  obtain ⟨c', hc', hternary⟩ := ih hends (shellArithmeticSkipWhitespace text c)
    (by rw [restAt_skip, hc])
  refine ⟨shellArithmeticSkipWhitespace text c', by rw [restAt_skip, hc'], .of_succ ?_⟩
  have hnone : (shellArithmeticPeekAssignment text
      (shellArithmeticSkipWhitespace text c')).isSome = false := by
    rw [peekAssignment_eq, drop_skip, hc', hends.assignmentAt]
    rfl
  have hbehind : Eventually (fun fuel => do
      let r ← treeTernary shellIdentifiers text fuel (shellArithmeticSkipWhitespace text c)
      let c := shellArithmeticSkipWhitespace text r.2
      if (shellArithmeticPeekAssignment text c).isSome then
        .error (.syntaxError "attempted assignment to non-variable")
      else .ok (r.1, c)) (tree, shellArithmeticSkipWhitespace text c') := by
    refine hternary.bind (.const fun fuel => ?_)
    simp only [hnone, Bool.false_eq_true, if_false]
  simp only [treeAssignment]
  cases hname : consumeShellIdentifier s false with
  | none =>
    rw [parseLvalue_none (by rw [hat, hname])]
    exact .bind (.const fun fuel => rfl) hbehind
  | some n =>
    obtain ⟨lvalue, s₁, hlvalue, hassign⟩ := h.lvalue hname
    obtain ⟨c₁, hparse, hrest⟩ := parseLvalue_of_lvalueAt (hat.symm ▸ hlvalue)
    have hpeek :
        shellArithmeticPeekAssignment text (shellArithmeticSkipWhitespace text c₁) = none := by
      rw [peekAssignment_eq, drop_skip, restAt, hrest]
      exact hassign (by simp) (by simp) hends.assignmentAt
    rw [hparse]
    refine .bind (.const fun fuel => rfl) ?_
    simp only [bind_some, hpeek, map_none]
    exact hbehind

theorem readAs_assign {s₂ : Bytes} {op : Option CompoundOp} (h : LvalueAt s lvalue s₁)
    (hop : behindBlanks s₁ = assignmentSymbol op ++ s₂)
    (hr : Derives .assignment (behindBlanks s₂) rhs s')
    (ih : ReadAs text .assignment (behindBlanks s₂) rhs s') :
    ReadAs text .assignment s (.assign lvalue op rhs) s' := by
  intro hends c hc
  have hat : text.drop (shellArithmeticSkipWhitespace text c).pos = s := by rw [drop_skip, hc]
  obtain ⟨c₁, hparse, hrest⟩ := parseLvalue_of_lvalueAt (hat.symm ▸ h)
  have hbehind : text.drop (shellArithmeticSkipWhitespace text c₁).pos =
      assignmentSymbol op ++ s₂ := by
    rw [drop_skip, restAt, hrest, hop]
  have hpeek : shellArithmeticPeekAssignment text (shellArithmeticSkipWhitespace text c₁) =
      some (op, (assignmentSymbol op).length) := by
    rw [peekAssignment_eq, hbehind, assignmentAt_symbol hr.noTail]
  obtain ⟨c', hc', hassignment⟩ := ih hends
    ((shellArithmeticSkipWhitespace text c₁).advance (assignmentSymbol op).length)
    (by rw [restAt, drop_append_advance hbehind])
  refine ⟨c', hc', .of_succ ?_⟩
  simp only [treeAssignment, hparse]
  refine .bind (.const fun fuel => rfl) ?_
  simp only [bind_some, hpeek, map_some]
  exact hassignment.bind (.const fun fuel => rfl)

theorem readAs_ofAssignment (ih : ReadAs text .assignment s tree s') :
    ReadAs text .comma s tree s' := by
  intro hends c hc
  obtain ⟨c', hc', hassignment⟩ := ih hends c hc
  refine ⟨c', hc', fun r hr => .of_succ ?_⟩
  simp only [treeComma]
  exact hassignment.bind hr

theorem readAs_comma {first second : ArithmeticTree} (ihf : ReadAs text .comma s first (44 :: s₁))
    (ihs : ReadAs text .assignment (behindBlanks s₁) second s') :
    ReadAs text .comma s (.comma first second) s' := by
  intro hends c hc
  obtain ⟨c₁, hc₁, hlist⟩ := ihf (.inr ⟨s₁, rfl⟩) c hc
  obtain ⟨c', hc', hassignment⟩ := ihs hends _ (restAt_pass hc₁)
  refine ⟨c', hc', fun r hr => hlist r (.of_succ ?_)⟩
  simp only [treeList, head?_skip hc₁, head?_cons, ne_eq, not_true_eq_false, if_false]
  exact hassignment.bind hr

variable (text) in
theorem Derives.readAs {level : ExpressionLevel} (h : Derives level s tree s') :
    ReadAs text level s tree s' := by
  induction h with
  | number h => exact readAs_number h
  | parens h ih => exact readAs_parens ih
  | read h hno => exact readAs_read h hno
  | thenStep h hstep => exact readAs_thenStep h hstep
  | ofPrimary h ih => exact readAs_ofPrimary h ih
  | stepped h hno => exact readAs_stepped h hno
  | sign hno h ih => exact readAs_sign hno h ih
  | ofUnary h ih => exact readAs_ofUnary ih
  | power hl hr ihl ihr => exact readAs_power ihl hr ihr
  | tighter hlevel h ih => exact readAs_tighter hlevel ih
  | operator hlevel hl hr ihl ihr => exact readAs_operator hlevel ihl hr ihr
  | ofBinary h ih => exact readAs_ofBinary ih
  | conditional hc ht hf ihc iht ihf => exact readAs_conditional ht hf ihc iht ihf
  | ofConditional h ih => exact readAs_ofConditional h ih
  | assign h hop hr ih => exact readAs_assign h hop hr ih
  | ofAssignment h ih => exact readAs_ofAssignment ih
  | comma hf hs ihf ihs => exact readAs_comma ihf ihs

end

/-! ## texts -/

theorem Within.more {identifiers : IdentifierScanner} {text : Bytes} {c : Cursor} {fuel : Nat}
    (n : Nat) :
    Within (treeComma identifiers text fuel c) (treeComma identifiers text (fuel + n) c) := by
  induction n with
  | zero => exact .refl _
  | succ n ih =>
    rcases ih with h | h
    · exact .inl h
    · rw [h]
      exact (levels_within identifiers text (fuel + n)).comma c

theorem arithmeticTree_iff {text : Bytes} :
    arithmeticTree shellIdentifiers text = .ok tree ↔ InGrammar text tree := by
  have hstart : restAt text ⟨0, 0⟩ = behindBlanks text := rfl
  have hblank (c : Cursor) :
      text.length ≤ (shellArithmeticSkipWhitespace text c).pos ↔ restAt text c = [] := by
    rw [← drop_skip, drop_eq_nil_iff]
  rw [arithmeticTree]
  dsimp only
  by_cases hempty : text.length ≤ (shellArithmeticSkipWhitespace text ⟨0, 0⟩).pos
  · rw [if_pos hempty]
    rw [hblank, hstart] at hempty
    constructor
    · intro h
      cases h
      exact .blank hempty
    · intro h
      cases h with
      | blank => rfl
      | expression h =>
        obtain ⟨b, r, hs, -⟩ := h.head
        rw [hempty] at hs
        cases hs
  · rw [if_neg hempty]
    constructor
    · intro h
      obtain ⟨⟨inner, c⟩, hcomma, h⟩ := bind_ok.mp h
      obtain ⟨hend, heq⟩ := ite_error_ok.mp h
      cases heq
      have hderives := (levels_sound text _).comma hcomma
      rw [(hblank c).mp (Nat.not_lt.mp hend), restAt_skip, hstart] at hderives
      exact .expression hderives
    · intro h
      cases h with
      | blank h =>
        rw [hblank, hstart] at hempty
        exact absurd h hempty
      | expression h =>
        obtain ⟨c, hc, hlist⟩ := h.readAs text (.inl (.inl rfl))
          (shellArithmeticSkipWhitespace text ⟨0, 0⟩) (by rw [restAt_skip, hstart])
        obtain ⟨n, hn⟩ := hlist _ (list_stop tree hc (.inl rfl))
        -- the fuel that there is does, as it does not run out
        have hends := (levels_end shellIdentifiers text (levelsFuel text.length)).comma
          (shellArithmeticSkipWhitespace text ⟨0, 0⟩) (by rw [levelsFuel]; omega)
        have hsame : treeComma shellIdentifiers text (levelsFuel text.length)
            (shellArithmeticSkipWhitespace text ⟨0, 0⟩) =
              .ok (tree, shellArithmeticSkipWhitespace text c) := by
          rcases @Within.more shellIdentifiers text (shellArithmeticSkipWhitespace text ⟨0, 0⟩)
            (levelsFuel text.length) n with hout | hsame
          · rw [hout] at hends
            exact hends.elim
          · rw [hsame]
            exact hn _ (Nat.le_add_left _ _)
        refine bind_ok.mpr ⟨_, hsame, if_neg (Nat.not_lt.mpr ?_)⟩
        rw [hblank, restAt_skip, hc]

theorem InGrammar.unique {text : Bytes} {tree' : ArithmeticTree} (h : InGrammar text tree)
    (h' : InGrammar text tree') : tree = tree' :=
  Except.ok.inj ((arithmeticTree_iff.mpr h).symm.trans (arithmeticTree_iff.mpr h'))

end Pscal.Shell
