import Pscal.Shell.ArithmeticGrammar
import Pscal.Shell.ArraysSpec

/-!
# Tokens of arithmetic

What stands at a cursor of an expression, and what the grammar says stands there.

* `parseLvalue_of_lvalueAt`, `lvalueAt_of_parseLvalue`  names and elements;
* `peekBinaryOp_iff`, `binaryOpAt_symbol`  operators, with what may follow them;
* `Follows`, `Derives.head`  what an expression stops at, and what it starts with;
* `parseNumber_of_constantAt`, `constantAt_of_parseNumber`  numbers.
-/

namespace Pscal.Shell

open List Option
open Wire (Bytes)
open Paths (ascii)
open DecimalText (isDigit value)

/-! ## the text at a cursor -/

section
variable {text : Bytes} {c : Cursor}

def restAt (text : Bytes) (c : Cursor) : Bytes := behindBlanks (text.drop c.pos)

theorem drop_takeWhile_length {α : Type} (p : α → Bool) (s : List α) :
    s.drop (s.takeWhile p).length = s.dropWhile p := by
  induction s with
  | nil => rfl
  | cons a s ih =>
    by_cases h : p a
    · rw [takeWhile_cons_of_pos h, dropWhile_cons_of_pos h, length_cons, drop_succ_cons, ih]
    · rw [takeWhile_cons_of_neg h, dropWhile_cons_of_neg h]
      rfl

theorem drop_skip (text : Bytes) (c : Cursor) :
    text.drop (shellArithmeticSkipWhitespace text c).pos = restAt text c := by
  have hpos : (shellArithmeticSkipWhitespace text c).pos =
      c.pos + ((text.drop c.pos).takeWhile isspace).length := rfl
  rw [hpos, ← drop_drop, drop_takeWhile_length]
  rfl

theorem behindBlanks_behindBlanks (s : Bytes) : behindBlanks (behindBlanks s) = behindBlanks s :=
  dropWhile_idempotent _ s

theorem restAt_skip (text : Bytes) (c : Cursor) :
    restAt text (shellArithmeticSkipWhitespace text c) = restAt text c := by
  rw [restAt, drop_skip, restAt, behindBlanks_behindBlanks]

theorem drop_advance (text : Bytes) (c : Cursor) (n : Nat) :
    text.drop (c.advance n).pos = (text.drop c.pos).drop n := by
  rw [drop_drop]
  rfl

theorem getElem?_pos (text : Bytes) (c : Cursor) : text[c.pos]? = (text.drop c.pos).head? := by
  rw [head?_drop]

theorem getElem?_skip (text : Bytes) (c : Cursor) :
    text[(shellArithmeticSkipWhitespace text c).pos]? = (restAt text c).head? := by
  rw [getElem?_pos, drop_skip]

theorem peek_iff {op : Bytes} :
    shellArithmeticPeek text c op = true ↔ ∃ s, text.drop c.pos = op ++ s := by
  rw [shellArithmeticPeek, isPrefixOf_iff_prefix]
  exact exists_congr fun s => eq_comm

theorem drop_append_advance {op s : Bytes} (h : text.drop c.pos = op ++ s) :
    text.drop (c.advance op.length).pos = s := by
  rw [drop_advance, h, drop_left]

end

/-! ## steps -/

theorem stepSymbol_eq (increment : Bool) :
    stepSymbol increment = if increment then [43, 43] else [45, 45] := by
  cases increment <;> rfl

section
variable {text : Bytes} {c : Cursor}

theorem peekStep_some {increment : Bool} :
    peekStep text c = some increment ↔ ∃ s, text.drop c.pos = stepSymbol increment ++ s := by
  rw [peekStep]
  by_cases hplus : shellArithmeticPeek text c [43, 43]
  · rw [if_pos hplus]
    obtain ⟨s, hs⟩ := peek_iff.mp hplus
    cases increment with
    | true => exact ⟨fun _ => ⟨s, hs⟩, fun _ => rfl⟩
    | false =>
      refine ⟨nofun, fun ⟨s', hs'⟩ => ?_⟩
      rw [hs] at hs'
      exact absurd (congrArg head? hs') (by simp [stepSymbol_eq])
  · rw [if_neg hplus]
    by_cases hminus : shellArithmeticPeek text c [45, 45]
    · rw [if_pos hminus]
      obtain ⟨s, hs⟩ := peek_iff.mp hminus
      cases increment with
      | false => exact ⟨fun _ => ⟨s, hs⟩, fun _ => rfl⟩
      | true => exact ⟨nofun, fun h => absurd (peek_iff.mpr h) hplus⟩
    · rw [if_neg hminus]
      refine ⟨nofun, fun h => ?_⟩
      cases increment with
      | true => exact absurd (peek_iff.mpr h) hplus
      | false => exact absurd (peek_iff.mpr h) hminus

theorem peekStep_none : peekStep text c = none ↔ ¬ StepAt (text.drop c.pos) := by
  refine ⟨fun h ⟨increment, hs⟩ => ?_, fun h => ?_⟩
  · rw [peekStep_some.mpr hs] at h
    cases h
  · cases hp : peekStep text c with
    | none => rfl
    | some increment => exact absurd ⟨increment, peekStep_some.mp hp⟩ h

end

/-! ## variables -/

section
variable {text : Bytes} {c c' : Cursor}

variable {lvalue : ShellArithmeticLvalue}

theorem LvalueAt.identifier {s s' : Bytes} (h : LvalueAt s lvalue s') :
    ∃ n, consumeShellIdentifier s false = some n := by
  cases h with
  | name h _ => exact ⟨_, h⟩
  | element h _ _ => exact ⟨_, h⟩

theorem parseLvalue_of_lvalueAt {s' : Bytes} (h : LvalueAt (text.drop c.pos) lvalue s') :
    ∃ c', shellArithmeticParseLvalue shellIdentifiers text c = .ok (some (lvalue, c')) ∧
      text.drop c'.pos = s' := by
  generalize hs : text.drop c.pos = s at h
  cases h with
  | @name n hname hno =>
    have hconsume : shellIdentifiers.consumeShellIdentifier (text.drop c.pos) = some n := by
      rw [hs]
      exact hname
    refine ⟨c.advance n, ?_, by rw [drop_advance, hs]⟩
    rw [shellArithmeticParseLvalue, hconsume]
    dsimp only
    rw [getElem?_pos, drop_advance, hs, if_neg hno]
  | @element body n stop hname hopen hclose =>
    have hconsume : shellIdentifiers.consumeShellIdentifier (text.drop c.pos) = some n := by
      rw [hs]
      exact hname
    have hat : text.drop (c.advance n).pos = openBracket :: body := by rw [drop_advance, hs, hopen]
    have hbody : text.drop ((c.advance n).pos + 1) = body := by
      rw [← drop_drop, hat]
      rfl
    refine ⟨(c.advance n).advance (stop + 1), ?_, ?_⟩
    · rw [shellArithmeticParseLvalue, hconsume]
      dsimp only
      rw [getElem?_pos, hat, if_pos head?_cons, hbody, hclose, hs]
    · rw [drop_advance, hat, drop_succ_cons]

theorem lvalueAt_of_parseLvalue
    (h : shellArithmeticParseLvalue shellIdentifiers text c = .ok (some (lvalue, c'))) :
    LvalueAt (text.drop c.pos) lvalue (text.drop c'.pos) := by
  rw [shellArithmeticParseLvalue] at h
  split at h
  · cases h
  · next n hconsume =>
    dsimp only at h
    have hname : consumeShellIdentifier (text.drop c.pos) false = some n := hconsume
    rw [getElem?_pos] at h
    split at h
    · next hopen =>
      obtain ⟨body, hat⟩ := head?_eq_some_iff.mp hopen
      have hbody : text.drop ((c.advance n).pos + 1) = body := by
        rw [← drop_drop, hat]
        rfl
      rw [hbody] at h
      split at h
      · cases h
      · next stop hclose =>
        cases h
        have hdrop : text.drop ((c.advance n).advance (stop + 1)).pos = body.drop stop := by
          rw [drop_advance, hat, drop_succ_cons]
        rw [hdrop]
        exact .element hname (by rw [← drop_advance, hat]) hclose
    · next hno =>
      cases h
      rw [drop_advance]
      exact .name hname (by rwa [← drop_advance])

theorem parseLvalue_none (h : consumeShellIdentifier (text.drop c.pos) false = none) :
    shellArithmeticParseLvalue shellIdentifiers text c = .ok none := by
  have hconsume : shellIdentifiers.consumeShellIdentifier (text.drop c.pos) = none := h
  rw [shellArithmeticParseLvalue, hconsume]

end

/-! ## operators -/

def foreignAt (s : Bytes) : Bool :=
  s.head?.any fun b => b < 128 && !isalnum b && b ≠ 95 && !arithmeticCharacters.contains b

def binaryOpAt (s : Bytes) : Option ShellArithmeticBinaryOp :=
  match gShellArithmeticOps.find? fun op => op.text.isPrefixOf s with
  | none => none
  | some op => if op.assigns && s[op.text.length]? = some equalsSign then none else some op

def assignmentAt (s : Bytes) : Option (Option CompoundOp × Nat) :=
  match assignmentOps.find? fun op => op.2.isPrefixOf s with
  | some op => some (some op.1, op.2.length)
  | none => if [61].isPrefixOf s && !([61, 61].isPrefixOf s) then some (none, 1) else none

section
variable {text : Bytes} {c c' : Cursor}

theorem peekBinaryOp_iff {op : Option ShellArithmeticBinaryOp} :
    shellArithmeticPeekBinaryOp text c = .ok (op, c') ↔
      foreignAt (restAt text c) = false ∧ op = binaryOpAt (restAt text c) ∧
        c' = shellArithmeticSkipWhitespace text c := by
  have hpeek (op : ShellArithmeticBinaryOp) :
      shellArithmeticPeek text (shellArithmeticSkipWhitespace text c) op.text =
        op.text.isPrefixOf (restAt text c) := by
    rw [shellArithmeticPeek, drop_skip]
  have hbehind (n : Nat) : text[(shellArithmeticSkipWhitespace text c).pos + n]? =
      (restAt text c)[n]? := by
    rw [← drop_skip, getElem?_drop]
  simp only [shellArithmeticPeekBinaryOp, hpeek, hbehind, getElem?_skip]
  rw [binaryOpAt]
  cases hforeign : foreignAt (restAt text c) with
  | true =>
    rw [foreignAt] at hforeign
    rw [if_pos hforeign]
    exact ⟨by simp, by simp⟩
  | false =>
    rw [foreignAt] at hforeign
    rw [if_neg (by rw [hforeign]; exact Bool.false_ne_true)]
    cases gShellArithmeticOps.find? fun op => op.text.isPrefixOf (restAt text c) with
    | none =>
      refine ⟨fun h => ?_, fun h => ?_⟩
      · cases h
        exact ⟨rfl, rfl, rfl⟩
      · rw [h.2.1, h.2.2]
    | some found =>
      dsimp only
      split
      · refine ⟨fun h => ?_, fun h => ?_⟩
        · cases h
          exact ⟨rfl, rfl, rfl⟩
        · rw [h.2.1, h.2.2]
      · refine ⟨fun h => ?_, fun h => ?_⟩
        · cases h
          exact ⟨rfl, rfl, rfl⟩
        · rw [h.2.1, h.2.2]

theorem peekAssignment_eq :
    shellArithmeticPeekAssignment text c = assignmentAt (text.drop c.pos) := rfl

end

theorem table_op : ∀ op ∈ gShellArithmeticOps,
    op.text = op.op.symbol ∧ op.precedence = op.op.level ∧ 1 ≤ op.op.level ∧ op.op.level ≤ 11 := by
  decide +kernel

variable {s : Bytes} {b : UInt8} {base n : Nat}

theorem binaryOpAt_some {op : ShellArithmeticBinaryOp} (h : binaryOpAt s = some op) :
    op.text = op.op.symbol ∧ op.precedence = op.op.level ∧ 1 ≤ op.op.level ∧ op.op.level ≤ 11 ∧
      ∃ s', s = op.op.symbol ++ s' := by
  rw [binaryOpAt] at h
  split at h
  · cases h
  · next found hfind =>
    split at h
    · cases h
    · cases h
      obtain ⟨htext, hlevel, hlow, hhigh⟩ := table_op op (mem_of_find?_eq_some hfind)
      have hfound := find?_some hfind
      obtain ⟨s', hs'⟩ := isPrefixOf_iff_prefix.mp hfound
      exact ⟨htext, hlevel, hlow, hhigh, s', by rw [← htext, hs']⟩

theorem symbol_eq (op : ArithmeticOp) :
    op.symbol =
      match op with
      | .logicalOr => [124, 124]
      | .logicalAnd => [38, 38]
      | .bitOr => [124]
      | .bitXor => [94]
      | .bitAnd => [38]
      | .equal => [61, 61]
      | .notEqual => [33, 61]
      | .less => [60]
      | .lessEqual => [60, 61]
      | .greater => [62]
      | .greaterEqual => [62, 61]
      | .shiftLeft => [60, 60]
      | .shiftRight => [62, 62]
      | .add => [43]
      | .subtract => [45]
      | .multiply => [42]
      | .divide => [47]
      | .modulo => [37]
      | .power => [42, 42] := by
  cases op <;> rfl

def NoTail (s : Bytes) : Prop := ∃ b r, s = b :: r ∧ b ∉ ascii "=<>*&|"

theorem binaryOpAt_symbol (op : ArithmeticOp) (h : NoTail s) :
    binaryOpAt (op.symbol ++ s) = some ⟨op, op.symbol, op.level⟩ ∧
      foreignAt (op.symbol ++ s) = false ∧ assignmentAt (op.symbol ++ s) = none := by
  obtain ⟨b, r, rfl, hb⟩ := h
  have hne : b ≠ 61 ∧ b ≠ 60 ∧ b ≠ 62 ∧ b ≠ 42 ∧ b ≠ 38 ∧ b ≠ 124 := by
    have hlist : ascii "=<>*&|" = [61, 60, 62, 42, 38, 124] := rfl
    rw [hlist] at hb
    simpa using hb
  obtain ⟨h1, h2, h3, h4, h5, h6⟩ := hne
  rw [symbol_eq]
  cases op with
  | logicalOr | logicalAnd | equal | notEqual | lessEqual | greaterEqual | power =>
    exact ⟨rfl, rfl, rfl⟩
  | _ =>
    -- what is behind the symbol decides whether it is a longer one
    simp [binaryOpAt, foreignAt, assignmentAt, gShellArithmeticOps, assignmentOps,
      arithmeticCharacters, isPrefixOf, ShellArithmeticBinaryOp.assigns, ArithmeticOp.level,
      equalsSign, h1.symm, h2.symm, h3.symm, h4.symm, h5.symm, h6.symm, h1]

theorem assignmentOps_symbol : ∀ op ∈ assignmentOps, op.2 = assignmentSymbol (some op.1) := by
  intro op hop
  rw [assignmentSymbol, symbol_eq]
  revert op
  decide

theorem assignmentAt_some {op : Option CompoundOp} {length : Nat}
    (h : assignmentAt s = some (op, length)) :
    ∃ s', s = assignmentSymbol op ++ s' ∧ length = (assignmentSymbol op).length := by
  rw [assignmentAt] at h
  split at h
  · next found hfind =>
    cases h
    have hfound := find?_some hfind
    obtain ⟨s', hs'⟩ := isPrefixOf_iff_prefix.mp hfound
    rw [← assignmentOps_symbol found (mem_of_find?_eq_some hfind)]
    exact ⟨s', hs'.symm, rfl⟩
  · split at h
    · next hequals =>
      cases h
      rw [Bool.and_eq_true] at hequals
      obtain ⟨s', hs'⟩ := isPrefixOf_iff_prefix.mp hequals.1
      exact ⟨s', hs'.symm, rfl⟩
    · cases h

theorem assignmentAt_symbol {op : Option CompoundOp} (h : NoTail s) :
    assignmentAt (assignmentSymbol op ++ s) = some (op, (assignmentSymbol op).length) := by
  obtain ⟨b, r, rfl, hb⟩ := h
  have hne : b ≠ 61 := by
    rintro rfl
    exact hb (by decide)
  cases op with
  | none =>
    have hsymbol : assignmentSymbol none = [61] := rfl
    rw [hsymbol]
    simp [assignmentAt, assignmentOps, isPrefixOf, hne.symm]
  | some op =>
    rw [assignmentSymbol, symbol_eq]
    have hequals : ascii "=" = [61] := rfl
    rw [hequals]
    cases op <;> simp [assignmentAt, assignmentOps, isPrefixOf, CompoundOp.op]

/-! ## what may follow -/

def EndsList (s : Bytes) : Prop := s = [] ∨ ∃ r, s = closeParen :: r ∨ s = 58 :: r

def EndsItem (s : Bytes) : Prop := EndsList s ∨ ∃ r, s = 44 :: r

/-- the end of an operand, or an operator of a level below the bound -/
def Follows (bound : Nat) (s : Bytes) : Prop :=
  EndsItem s ∨ (∃ r, s = 63 :: r) ∨
    ∃ op s₁, s = ArithmeticOp.symbol op ++ s₁ ∧ op.level < bound ∧ NoTail s₁

theorem Follows.mono {bound bound' : Nat} (hle : bound ≤ bound') (h : Follows bound s) :
    Follows bound' s := by
  rcases h with hends | hmark | ⟨op, s₁, hs, hlevel, htail⟩
  · exact .inl hends
  · exact .inr (.inl hmark)
  · exact .inr (.inr ⟨op, s₁, hs, Nat.lt_of_lt_of_le hlevel hle, htail⟩)

theorem Follows.binaryOp {bound : Nat} (h : Follows bound s) :
    foreignAt s = false ∧ (∀ op, binaryOpAt s = some op → op.precedence < bound) ∧
      assignmentAt s = none := by
  rcases h with ((rfl | ⟨r, rfl | rfl⟩) | ⟨r, rfl⟩) | ⟨r, rfl⟩ | ⟨op, s₁, rfl, hlevel, htail⟩
  · exact ⟨rfl, nofun, rfl⟩
  · exact ⟨rfl, nofun, rfl⟩
  · exact ⟨rfl, nofun, rfl⟩
  · exact ⟨rfl, nofun, rfl⟩
  · exact ⟨rfl, nofun, rfl⟩
  · obtain ⟨hop, hforeign, hassign⟩ := binaryOpAt_symbol op htail
    refine ⟨hforeign, fun found hfound => ?_, hassign⟩
    rw [hop] at hfound
    cases hfound
    exact hlevel

theorem EndsItem.follows (h : EndsItem s) (bound : Nat) : Follows bound s := .inl h

/-! ## what an expression starts with -/

def StartsOperand (b : UInt8) : Prop :=
  isDigit b = true ∨ isalpha b = true ∨ b = 95 ∨ 128 ≤ b ∨ b ∈ ascii "(+-!~"

theorem digit_of_lt {d : Nat} (hbase : base ≤ 10) (h : shellArithmeticDigitValue b base = some d)
    (hlt : d < base) : isDigit b = true := by
  rw [shellArithmeticDigitValue] at h
  by_cases hdigit : isDigit b
  · exact hdigit
  · rw [if_neg hdigit] at h
    split at h
    · cases h
      omega
    · split at h
      · split at h
        · cases h
          omega
        · cases h
          omega
      · split at h
        · cases h
          omega
        · split at h
          · cases h
            omega
          · cases h

variable {rest : Bytes}

theorem ConstantAt.head (h : ConstantAt s n rest) : ∃ b r, s = b :: r ∧ isDigit b = true := by
  cases h with
  | @decimal digits _ hne hzero hdigits hend hbase =>
    cases digits with
    | nil => exact absurd rfl hne
    | cons b r =>
      obtain ⟨d, hlt, hd⟩ := hdigits b mem_cons_self
      exact ⟨b, r ++ rest, rfl, digit_of_lt (Nat.le_refl _) hd hlt⟩
  | octal hdigits hend hbase => exact ⟨48, _, rfl, rfl⟩
  | hexadecimal hx hdigits hend => exact ⟨48, _, rfl, rfl⟩
  | @based lead _ _ hlead hlead_ne hlow hhigh hne hdigits hend =>
    cases lead with
    | nil => exact absurd rfl hlead_ne
    | cons b r => exact ⟨b, _, rfl, hlead b mem_cons_self⟩

theorem identifier_head (h : consumeShellIdentifier s false = some n) :
    ∃ b r, s = b :: r ∧ (isalpha b = true ∨ b = 95 ∨ 128 ≤ b) := by
  rw [consumeShellIdentifier] at h
  cases s with
  | nil => cases h
  | cons b r =>
    refine ⟨b, r, rfl, ?_⟩
    by_cases hbyte : b ≤ 0x7F
    · have hdecode : decodeUtf8Codepoint (b :: r) = some (b.toNat, 1) :=
        form_decode (.one (UInt8.le_iff_toNat_le.mp hbyte))
      rw [hdecode] at h
      dsimp only at h
      split at h
      · next hstart =>
        rw [isShellIdentifierStartCodepoint] at hstart
        split at hstart
        · next hunderscore => exact .inr (.inl (UInt8.toNat_inj.mp hunderscore))
        · split at hstart
          · left
            rw [isAsciiAlpha, Bool.or_eq_true, Bool.and_eq_true, Bool.and_eq_true,
              decide_eq_true_eq, decide_eq_true_eq, decide_eq_true_eq, decide_eq_true_eq] at hstart
            rw [isalpha, Bool.or_eq_true, Bool.and_eq_true, Bool.and_eq_true, decide_eq_true_eq,
              decide_eq_true_eq, decide_eq_true_eq, decide_eq_true_eq, UInt8.le_iff_toNat_le,
              UInt8.le_iff_toNat_le, UInt8.le_iff_toNat_le, UInt8.le_iff_toNat_le]
            exact hstart
          · next hhigh => exact absurd (UInt8.le_iff_toNat_le.mp hbyte) hhigh
      · cases h
    · right; right
      rw [UInt8.le_iff_toNat_le] at hbyte ⊢
      simp only [UInt8.reduceToNat] at hbyte ⊢
      omega

theorem Derives.head {level : ExpressionLevel} {s' : Bytes} {tree : ArithmeticTree}
    (h : Derives level s tree s') : ∃ b r, s = b :: r ∧ StartsOperand b := by
  induction h with
  | number h =>
    obtain ⟨b, r, hs, hb⟩ := h.head
    exact ⟨b, r, hs, .inl hb⟩
  | parens h ih => exact ⟨openParen, _, rfl, .inr (.inr (.inr (.inr (by decide))))⟩
  | read h hno =>
    obtain ⟨n, hn⟩ := h.identifier
    obtain ⟨b, r, hs, hb⟩ := identifier_head hn
    exact ⟨b, r, hs, .inr (hb.imp_right fun hb => hb.imp_right .inl)⟩
  | thenStep h hstep =>
    obtain ⟨n, hn⟩ := h.identifier
    obtain ⟨b, r, hs, hb⟩ := identifier_head hn
    exact ⟨b, r, hs, .inr (hb.imp_right fun hb => hb.imp_right .inl)⟩
  | ofPrimary h ih => exact ih
  | @stepped s s' lvalue increment h hno =>
    cases increment with
    | true => exact ⟨43, 43 :: s, rfl, .inr (.inr (.inr (.inr (by decide))))⟩
    | false => exact ⟨45, 45 :: s, rfl, .inr (.inr (.inr (.inr (by decide))))⟩
  | @sign s s' op tree hno h ih =>
    refine ⟨op.symbol, s, rfl, .inr (.inr (.inr (.inr ?_)))⟩
    cases op <;> decide
  | ofUnary h ih => exact ih
  | power hl hr ihl ihr => exact ihl
  | tighter hlevel h ih => exact ih
  | operator hlevel hl hr ihl ihr => exact ihl
  | ofBinary h ih => exact ih
  | conditional hc ht hf ihc iht ihf => exact ihc
  | ofConditional h ih => exact ih
  | assign h hop hr ih =>
    obtain ⟨n, hn⟩ := h.identifier
    obtain ⟨b, r, hs, hb⟩ := identifier_head hn
    exact ⟨b, r, hs, .inr (hb.imp_right fun hb => hb.imp_right .inl)⟩
  | ofAssignment h ih => exact ih
  | comma hf hs ihf ihs => exact ihf

theorem not_mem_of_isspace {a : UInt8} (h : isspace a = true) : a ∉ ascii "=<>*&|" := by
  have hlist : ascii "=<>*&|" = [61, 60, 62, 42, 38, 124] := rfl
  rw [hlist]
  intro hmem
  simp only [mem_cons, not_mem_nil, or_false] at hmem
  rcases hmem with rfl | rfl | rfl | rfl | rfl | rfl <;> exact absurd h (by decide)

theorem not_mem_of_startsOperand (h : StartsOperand b) : b ∉ ascii "=<>*&|" := by
  have hlist : ascii "=<>*&|" = [61, 60, 62, 42, 38, 124] := rfl
  rw [hlist]
  intro hmem
  simp only [mem_cons, not_mem_nil, or_false] at hmem
  rw [StartsOperand] at h
  rcases hmem with rfl | rfl | rfl | rfl | rfl | rfl <;> exact absurd h (by decide)

theorem Derives.noTail {level : ExpressionLevel} {s' : Bytes} {tree : ArithmeticTree}
    (h : Derives level (behindBlanks s) tree s') : NoTail s := by
  obtain ⟨b, r, hs, hb⟩ := h.head
  cases s with
  | nil => cases hs
  | cons a s =>
    refine ⟨a, s, rfl, ?_⟩
    by_cases hspace : isspace a
    · exact not_mem_of_isspace hspace
    · rw [behindBlanks, dropWhile_cons_of_neg hspace] at hs
      cases hs
      exact not_mem_of_startsOperand hb

/-! ## numbers -/

theorem isNumeral_of_digitValue {d : Nat} (h : shellArithmeticDigitValue b base = some d) :
    isNumeral b = true := by
  rw [shellArithmeticDigitValue] at h
  rw [isNumeral, isalnum, isalpha]
  by_cases hdigit : isDigit b
  · simp [hdigit]
  rw [if_neg hdigit] at h
  by_cases hlow : 97 ≤ b && b ≤ 122
  · simp [hlow]
  rw [if_neg hlow] at h
  by_cases hhigh : 65 ≤ b && b ≤ 90
  · simp [hhigh]
  rw [if_neg hhigh] at h
  by_cases hat : b = 64
  · simp [hat]
  rw [if_neg hat] at h
  by_cases hunderscore : b = 95
  · simp [hunderscore]
  rw [if_neg hunderscore] at h
  cases h

theorem digitsValue_eq (base : Nat) (digits : Bytes) :
    digitsValue base digits = digits.foldl (fun n b => n * base + digitOf base b) 0 := by
  rw [digitsValue, Nat.ofDigits_eq_foldr, foldr_reverse, foldl_map]
  congr 1
  funext n b
  simp only [Nat.cast_id]
  ring

theorem numberDigits_ok {digits : Bytes} (h : DigitsTo base digits) (hend : EndsNumber rest)
    (m : Nat) : numberDigits base (BitVec.ofNat 64 m) (digits ++ rest) =
      .ok (BitVec.ofNat 64 (digits.foldl (fun n b => n * base + digitOf base b) m),
        digits.length) := by
  induction digits generalizing m with
  | nil =>
    cases rest with
    | nil => rfl
    | cons b r =>
      have hb : isNumeral b = false := hend b rfl
      rw [nil_append, numberDigits, if_neg (by rw [hb]; exact Bool.false_ne_true)]
      rfl
  | cons b digits ih =>
    obtain ⟨d, hlt, hd⟩ := h b mem_cons_self
    have hdigit : digitOf base b = d := by rw [digitOf, hd, getD_some]
    rw [cons_append, numberDigits, if_pos (isNumeral_of_digitValue hd), hd]
    dsimp only
    rw [if_neg (Nat.not_le.mpr hlt), ← BitVec.ofNat_mul, ← BitVec.ofNat_add,
      ih (fun b hb => h b (mem_cons_of_mem _ hb)), foldl_cons, hdigit]
    rfl

theorem numberDigits_inv {v v' : Word} {k : Nat} (h : numberDigits base v s = .ok (v', k)) :
    ∃ digits rest, s = digits ++ rest ∧ DigitsTo base digits ∧ EndsNumber rest ∧
      k = digits.length := by
  induction s generalizing v v' k with
  | nil =>
    cases h
    exact ⟨[], [], rfl, nofun, nofun, rfl⟩
  | cons b s ih =>
    rw [numberDigits] at h
    split at h
    · split at h
      · cases h
      · next d hd =>
        split at h
        · cases h
        · next hlt =>
          obtain ⟨⟨v₁, k₁⟩, hrest, heq⟩ := Checks.map_ok.mp h
          cases heq
          obtain ⟨digits, rest, rfl, hdigits, hend, rfl⟩ := ih hrest
          refine ⟨b :: digits, rest, rfl, fun b' hb' => ?_, hend, rfl⟩
          rcases mem_cons.mp hb' with rfl | hb'
          · exact ⟨d, Nat.not_le.mp hlt, hd⟩
          · exact hdigits b' hb'
    · next hno =>
      cases h
      refine ⟨[], b :: s, rfl, nofun, fun b' hb' => ?_, rfl⟩
      cases hb'
      exact (Bool.not_eq_true _).mp hno

theorem isDigit_numeral (h : isDigit b = true) : isNumeral b = true := by
  rw [isNumeral, isalnum, h]
  rfl

theorem takeWhile_digits {lead : Bytes} (hlead : ∀ b ∈ lead, isDigit b = true)
    (hrest : ∀ b ∈ rest.head?, isDigit b = false) : (lead ++ rest).takeWhile isDigit = lead := by
  rw [takeWhile_append_of_pos hlead]
  cases rest with
  | nil => exact append_nil lead
  | cons b r =>
    rw [takeWhile_cons_of_neg (by rw [hrest b rfl]; exact Bool.false_ne_true)]
    exact append_nil lead

theorem EndsNumber.noDigit (h : EndsNumber rest) : ∀ b ∈ rest.head?, isDigit b = false := by
  intro b hb
  rw [← Bool.not_eq_true]
  intro hdigit
  have hno := h b hb
  rw [isDigit_numeral hdigit] at hno
  cases hno

theorem DigitsTo.digits (hbase : base ≤ 10) {digits : Bytes} (h : DigitsTo base digits) :
    ∀ b ∈ digits, isDigit b = true := fun b hb => by
  obtain ⟨d, hlt, hd⟩ := h b hb
  exact digit_of_lt hbase hd hlt

theorem strtol_lead {r : Bytes} (hs : s = b :: r) (hb : isDigit b = true) : (strtol s).1 =
      if 2 ^ 63 ≤ value (s.takeWhile isDigit) then (2 ^ 63 - 1 : Int)
      else (value (s.takeWhile isDigit) : Int) := by
  subst hs
  have hdrop : (b :: r).dropWhile isspace = b :: r :=
    dropWhile_cons_of_neg (by rw [isspace_of_isDigit hb]; exact Bool.false_ne_true)
  have hne : b ≠ minusSign ∧ b ≠ plusSign := by
    constructor
    · rintro rfl
      exact absurd hb (by decide)
    · rintro rfl
      exact absurd hb (by decide)
  have hsign : behindSign (b :: r) = b :: r := by
    rw [behindSign, hdrop, head?_cons, if_neg]
    rintro (heq | heq)
    · exact hne.1 (some.inj heq)
    · exact hne.2 (some.inj heq)
  have hminus : hasMinus (b :: r) = false := by
    rw [hasMinus, hdrop, head?_cons, decide_eq_false_iff_not]
    exact fun heq => hne.1 (some.inj heq)
  have hcons : (b :: r).takeWhile isDigit ≠ [] := by
    rw [takeWhile_cons_of_pos hb]
    exact cons_ne_nil _ _
  rw [strtol, hsign, hminus, if_neg hcons, if_neg Bool.false_ne_true]

theorem numberBase_of_constantAt (h : ConstantAt s n rest) :
    ∃ base start based digits, numberBase s = .ok (base, start, based) ∧
      s.drop start = digits ++ rest ∧ start ≤ s.length ∧ DigitsTo base digits ∧
      (based = true → digits ≠ []) ∧ EndsNumber rest ∧ digitsValue base digits = n := by
  cases h with
  | @decimal digits _ hne hzero hdigits hend hbase =>
    have hlead := takeWhile_digits (hdigits.digits (Nat.le_refl _)) hend.noDigit
    refine ⟨10, 0, false, digits, ?_, rfl, Nat.zero_le _, hdigits, nofun, hend, rfl⟩
    have hhash : (digits ++ rest)[digits.length]? = rest.head? := by
      rw [getElem?_append_right (Nat.le_refl _), Nat.sub_self, head?_eq_getElem?]
    have hfirst : (digits ++ rest)[0]? ≠ some 48 := by
      rw [← head?_eq_getElem?, head?_append_of_ne_nil _ hne]
      exact hzero
    simp only [numberBase, hlead, hhash]
    rw [if_neg hbase, if_neg fun h => hfirst h.1, if_neg hfirst]
  | @octal digits _ hdigits hend hbase =>
    have hall : ∀ b ∈ 48 :: digits, isDigit b = true := by
      intro b hb
      rcases mem_cons.mp hb with rfl | hb
      · rfl
      · exact hdigits.digits (by decide) b hb
    have hlead : (48 :: digits ++ rest).takeWhile isDigit = 48 :: digits :=
      takeWhile_digits hall hend.noDigit
    refine ⟨8, 0, false, 48 :: digits, ?_, rfl, Nat.zero_le _, ?_, nofun, hend, ?_⟩
    · have hhash : (48 :: digits ++ rest)[(48 :: digits).length]? = rest.head? := by
        rw [getElem?_append_right (Nat.le_refl _), Nat.sub_self, head?_eq_getElem?]
      have hx :
          ¬ ((48 :: digits ++ rest)[1]? = some 120 ∨ (48 :: digits ++ rest)[1]? = some 88) := by
        have hnumeral : ∀ b, (48 :: digits ++ rest)[1]? = some b →
            isDigit b = true ∨ isNumeral b = false := by
          intro b hb
          cases digits with
          | nil => exact .inr (hend b (by rw [mem_def, ← hb]; cases rest <;> rfl))
          | cons d digits =>
            left
            obtain rfl : d = b := by simpa using hb
            exact hall d (mem_cons_of_mem _ mem_cons_self)
        rintro (h | h)
        · exact absurd (hnumeral _ h) (by decide)
        · exact absurd (hnumeral _ h) (by decide)
      simp only [numberBase, hlead, hhash]
      have hfirst : (48 :: digits ++ rest)[0]? = some 48 := rfl
      rw [if_neg hbase, if_neg fun h => hx h.2, if_pos hfirst]
    · intro b hb
      rcases mem_cons.mp hb with rfl | hb
      · exact ⟨0, by decide, rfl⟩
      · exact hdigits b hb
    · rw [digitsValue_eq, digitsValue_eq]
      rfl
  | @hexadecimal x digits _ hx hdigits hend =>
    have hdigit : isDigit x = false := by rcases hx with rfl | rfl <;> rfl
    refine ⟨16, 2, false, digits, ?_, rfl, by simp, hdigits, nofun, hend, rfl⟩
    have hlead : (48 :: x :: digits ++ rest).takeWhile isDigit = [48] := by
      have h48 : isDigit 48 = true := rfl
      rw [cons_append, takeWhile_cons_of_pos h48, cons_append,
        takeWhile_cons_of_neg (by rw [hdigit]; exact Bool.false_ne_true)]
    have hsecond : (48 :: x :: digits ++ rest)[1]? = some x := rfl
    have hfirst : (48 :: x :: digits ++ rest)[0]? = some 48 := rfl
    have hhash : ¬ some x = some (35 : UInt8) := by rcases hx with rfl | rfl <;> decide
    simp only [numberBase, hlead, length_singleton, hsecond]
    rw [if_neg hhash, if_pos ⟨hfirst, hx.imp (congrArg some) (congrArg some)⟩]
  | @based lead digits _ hlead hlead_ne hlow hhigh hne hdigits hend =>
    have hassoc : lead ++ 35 :: digits ++ rest = lead ++ (35 :: (digits ++ rest)) := by
      rw [append_assoc, cons_append]
    have htake : (lead ++ (35 :: (digits ++ rest))).takeWhile isDigit = lead :=
      takeWhile_digits hlead (by rintro b ⟨⟩; rfl)
    have hhash : (lead ++ (35 :: (digits ++ rest)))[lead.length]? = some 35 := by
      rw [getElem?_append_right (Nat.le_refl _), Nat.sub_self]
      rfl
    obtain ⟨b, l, rfl⟩ := exists_cons_of_ne_nil hlead_ne
    have hstrtol : (strtol (b :: l ++ (35 :: (digits ++ rest)))).1 = value (b :: l) := by
      rw [strtol_lead (cons_append) (hlead b mem_cons_self), htake,
        if_neg (Nat.not_le.mpr (by omega))]
    refine ⟨value (b :: l), (b :: l).length + 1, true, digits, ?_, ?_, ?_, hdigits, fun _ => hne,
      hend, rfl⟩
    · rw [hassoc]
      simp only [numberBase, htake, hhash, hstrtol, if_true, Int.toNat_natCast]
      rw [if_neg (by omega)]
    · rw [hassoc, ← drop_drop, drop_left]
      rfl
    · simp

section
variable {text : Bytes} {c c' : Cursor}

variable {rest digits : Bytes}

theorem parseNumber_of_constantAt {n : Nat} (h : ConstantAt (text.drop c.pos) n rest) :
    ∃ c', shellArithmeticParseNumber text c = .ok (BitVec.ofNat 64 n, c') ∧
      text.drop c'.pos = rest := by
  obtain ⟨base, start, based, digits, hbase, hdrop, hstart, hdigits, hne, hend, hvalue⟩ :=
    numberBase_of_constantAt h
  have hat : text.drop (c.pos + start) = digits ++ rest := by rw [← drop_drop, hdrop]
  have hzero : (0 : Word) = BitVec.ofNat 64 0 := rfl
  refine ⟨c.advance (start + digits.length), ?_, ?_⟩
  · have hnumber : numberDigits base 0 (text.drop (c.pos + start)) =
        .ok (BitVec.ofNat 64 n, digits.length) := by
      rw [hat, hzero, numberDigits_ok hdigits hend 0, ← digitsValue_eq, hvalue]
    refine Checks.bind_ok.mpr ⟨_, hbase, Checks.bind_ok.mpr ⟨_, hnumber, if_neg ?_⟩⟩
    rintro ⟨hlength, hbased⟩
    exact hne hbased (length_eq_zero_iff.mp hlength)
  · rw [drop_advance, ← drop_drop, hdrop, drop_left]

variable {b : UInt8} {r : Bytes}

theorem ne_nil_of_digit (hb : isDigit b = true) (h : b :: r = digits ++ rest)
    (hend : EndsNumber rest) : digits ≠ [] := by
  rintro rfl
  have hno := hend b (by rw [← h.trans (nil_append rest)]; rfl)
  rw [isDigit_numeral hb] at hno
  cases hno

theorem head?_of_getElem?_ne {base : Nat} (hbase : base ≤ 10) (h : DigitsTo base digits)
    (hend : EndsNumber rest)
    (hno : (digits ++ rest)[((digits ++ rest).takeWhile isDigit).length]? ≠ some 35) :
    rest.head? ≠ some 35 := by
  rwa [takeWhile_digits (h.digits hbase) hend.noDigit, getElem?_append_right (Nat.le_refl _),
    Nat.sub_self, ← head?_eq_getElem?] at hno

theorem constantAt_of_numberBase {s : Bytes} {base start : Nat} {based : Bool} (hs : s = b :: r)
    (hb : isDigit b = true) (hbase : numberBase s = .ok (base, start, based))
    (hdrop : s.drop start = digits ++ rest) (hdigits : DigitsTo base digits)
    (hend : EndsNumber rest) (hne : based = true → digits ≠ []) :
    ConstantAt s (digitsValue base digits) rest := by
  simp only [numberBase] at hbase
  split at hbase
  · next hhash =>
    have hsplit : s.takeWhile isDigit ++ s.dropWhile isDigit = s := takeWhile_append_dropWhile
    rw [← head?_drop, drop_takeWhile_length] at hhash
    obtain ⟨behind, hbehind⟩ := head?_eq_some_iff.mp hhash
    split at hbase
    · cases hbase
    · next hrange =>
      cases hbase
      rw [← drop_drop, drop_takeWhile_length, hbehind, drop_succ_cons, drop_zero]
        at hdrop
      have hlead : ∀ b ∈ s.takeWhile isDigit, isDigit b = true := fun b hb =>
        mem_takeWhile_imp hb
      have hlead_ne : s.takeWhile isDigit ≠ [] := by
        rw [hs, takeWhile_cons_of_pos hb]
        exact cons_ne_nil _ _
      rw [hbehind, hdrop] at hsplit
      rw [strtol_lead hs hb] at hrange hdigits ⊢
      generalize s.takeWhile isDigit = lead at hsplit hlead hlead_ne hrange hdigits ⊢
      have hsmall : ¬ 2 ^ 63 ≤ value lead := fun hlarge => by
        rw [if_pos hlarge] at hrange
        omega
      rw [if_neg hsmall] at hrange hdigits ⊢
      rw [Int.toNat_natCast] at hdigits ⊢
      have hassoc : s = lead ++ 35 :: digits ++ rest := by
        rw [← hsplit, append_assoc, cons_append]
      rw [hassoc]
      exact .based hlead hlead_ne (by omega) (by omega) (hne rfl) hdigits hend
  · next hhash =>
    split at hbase
    · next hmark =>
      cases hbase
      obtain ⟨hfirst, hx⟩ := hmark
      cases s with
      | nil => cases hfirst
      | cons a s =>
        obtain rfl : a = 48 := by simpa using hfirst
        cases s with
        | nil => rcases hx with hx | hx <;> cases hx
        | cons x s =>
          have hxs : s = digits ++ rest := hdrop
          subst hxs
          exact .hexadecimal (hx.imp (by simp) (by simp)) hdigits hend
    · split at hbase
      · next hzero =>
        cases hbase
        rw [drop_zero] at hdrop
        rw [hdrop] at hhash hzero ⊢
        have hne' : digits ≠ [] := ne_nil_of_digit hb (hs.symm.trans hdrop) hend
        have hbehind := head?_of_getElem?_ne (by decide) hdigits hend hhash
        obtain ⟨d, digits, rfl⟩ := exists_cons_of_ne_nil hne'
        obtain rfl : d = 48 := by simpa using hzero
        have hvalue : digitsValue 8 (48 :: digits) = digitsValue 8 digits := by
          rw [digitsValue_eq, digitsValue_eq]
          rfl
        rw [hvalue]
        exact .octal (fun b hb => hdigits b (mem_cons_of_mem _ hb)) hend hbehind
      · next hzero =>
        cases hbase
        rw [drop_zero] at hdrop
        rw [hdrop] at hhash hzero ⊢
        have hne' : digits ≠ [] := ne_nil_of_digit hb (hs.symm.trans hdrop) hend
        refine .decimal hne' ?_ hdigits hend
          (head?_of_getElem?_ne (Nat.le_refl _) hdigits hend hhash)
        rwa [← head?_eq_getElem?, head?_append_of_ne_nil _ hne'] at hzero

theorem constantAt_of_parseNumber {v : Word} (h : shellArithmeticParseNumber text c = .ok (v, c'))
    (hs : text.drop c.pos = b :: r) (hb : isDigit b = true) :
    ∃ n, v = BitVec.ofNat 64 n ∧ ConstantAt (text.drop c.pos) n (text.drop c'.pos) := by
  rw [shellArithmeticParseNumber] at h
  obtain ⟨⟨base, start, based⟩, hbase, h⟩ := Checks.bind_ok.mp h
  obtain ⟨⟨v', k⟩, hnumber, h⟩ := Checks.bind_ok.mp h
  obtain ⟨hne, heq⟩ := Checks.ite_error_ok.mp h
  cases heq
  obtain ⟨digits, rest, hdrop, hdigits, hend, rfl⟩ := numberDigits_inv hnumber
  have hzero : (0 : Word) = BitVec.ofNat 64 0 := rfl
  rw [hdrop, hzero, numberDigits_ok hdigits hend, ← digitsValue_eq] at hnumber
  cases hnumber
  have hrest : text.drop (c.advance (start + digits.length)).pos = rest := by
    rw [← @drop_left _ digits rest, ← hdrop, drop_drop, Nat.add_assoc]
    rfl
  rw [hrest]
  rw [← drop_drop] at hdrop
  refine ⟨digitsValue base digits, rfl, constantAt_of_numberBase hs hb hbase hdrop hdigits hend ?_⟩
  rintro hbased rfl
  exact hne ⟨rfl, hbased⟩

end

end Pscal.Shell
