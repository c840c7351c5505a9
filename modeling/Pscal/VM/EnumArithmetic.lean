import Pscal.VM.IntegersSpec

/-!
# Arithmetic with enums

`vm/vm.c`: the branch of `BINARY_OP` for an enum and an integer, and the branch of
`adjustLocalByDelta`, by which `INC_LOCAL` and `DEC_LOCAL` move an enum.

* `moveOrdinal`, `binaryOp`, `adjustLocalByDelta`  the code;
* `Member`  a value of an enum type;
* `Exact`, `Kept`  what a result is to be, and when it is.
-/

namespace Pscal

namespace EnumArithmetic

/-- `memberCount` is that of `enum_meta` (`none`: null). -/
structure EnumObj where
  enumName : Option String
  ordinal : Int32
  memberCount : Option Int32
deriving DecidableEq, Repr

inductive Operand where
  | enum (e : EnumObj)
  | intlike (v : Scalar)

def outOfRange (e : EnumObj) : String :=
  "Runtime Error: Enum '" ++ e.enumName.getD "<anon>" ++ "' out of range."

/-- The arithmetic is that of `int`, in two's complement. -/
def moveOrdinal (op : ArithOp) (enumValue : EnumObj) (intVal : Scalar) : Except String EnumObj :=
  let delta := Int32.ofInt intVal.asI64
  let newOrd := enumValue.ordinal + if op = .add then delta else -delta
  match enumValue.memberCount with
  | some memberCount =>
    if newOrd < 0 ∨ memberCount ≤ newOrd then .error (outOfRange enumValue)
    else .ok { enumValue with ordinal := newOrd }
  | none => .ok { enumValue with ordinal := newOrd }

/-- `none`: the operands are not for this branch. -/
def binaryOp (op : ArithOp) (a b : Operand) : Option (Except String EnumObj) :=
  if op = .multiply then none
  else
    match a, b with
    | .enum e, .intlike v | .intlike v, .enum e => some (moveOrdinal op e v)
    | _, _ => none

def adjustLocalByDelta (slot : EnumObj) (delta : Int) : EnumObj :=
  { slot with ordinal := Int32.ofInt (slot.ordinal.toInt + delta) }

/-! ## exactness -/

/-- a member of an enum type with `n` members -/
structure Member (n : Nat) extends EnumObj where
  low : 0 ≤ ordinal.toInt
  high : ordinal.toInt < n
  counted : ∀ c, memberCount = some c → c.toInt = n
  fits : n < 2 ^ 31

variable {n : Nat}

/-- an error, or the member with the ordinal `k` -/
def Exact (e : Member n) (k : Int) (r : Option (Except String EnumObj)) : Prop :=
  ∃ r', r = some r' ∧ ∀ e', r' = .ok e' →
    e' = { e.toEnumObj with ordinal := e'.ordinal } ∧ e'.ordinal.toInt = k ∧ 0 ≤ k ∧ k < n

/-- The type has the ordinal; or it is known how many it has, and it has none that is the same in
32 bits. -/
def Kept (e : Member n) (k : Int) : Prop :=
  (0 ≤ k ∧ k < n) ∨ e.memberCount ≠ none ∧ n ≤ k % 2 ^ 32

theorem toInt_newOrd (op : ArithOp) (ordinal : Int32) (d : IntegerOperand) :
    (ordinal + if op = .add then Int32.ofInt d.asI64 else -Int32.ofInt d.asI64).toInt =
      (ordinal.toInt + if op = .add then d.value else -d.value).bmod (2 ^ 32) := by
  have hsize : Int32.size = 2 ^ 32 := by decide
  have hread : (Int32.ofInt d.asI64).toInt = d.value.bmod (2 ^ 32) := by
    have h := emod_bmod_of_dvd (m := 2 ^ 32) (M := 2 ^ 64) (by decide) d.value
    rw [Int32.toInt_ofInt, hsize, asI64_eq, ← Int.emod_bmod, h, Int.emod_bmod]
  split
  · rw [Int32.toInt_add, hread, Int.add_bmod_bmod]
  · rw [Int32.toInt_add, Int32.toInt_neg, hread, Int.bmod_neg_bmod, Int.add_bmod_bmod]

theorem bmod_cases (k : Int) :
    0 ≤ k % 2 ^ 32 ∧ k % 2 ^ 32 < 2 ^ 32 ∧ (-2 ^ 31 ≤ k → k < 2 ^ 31 → k.bmod (2 ^ 32) = k) ∧
      k.bmod (2 ^ 32) = if k % 2 ^ 32 < 2 ^ 31 then k % 2 ^ 32 else k % 2 ^ 32 - 2 ^ 32 := by
  rw [Int.bmod_def]
  norm_num
  omega

theorem out_iff {o c : Int32} (hc : c.toInt = n) :
    (o < 0 ∨ c ≤ o) ↔ (o.toInt < 0 ∨ n ≤ o.toInt) := by
  rw [Int32.lt_iff_toInt_lt, Int32.le_iff_toInt_le, hc]
  rfl

theorem moveOrdinal_exact_iff (op : ArithOp) (e : Member n) (d : IntegerOperand) :
    Exact e (e.ordinal.toInt + if op = .add then d.value else -d.value)
        (some (moveOrdinal op e.toEnumObj d.toScalar)) ↔
      Kept e (e.ordinal.toInt + if op = .add then d.value else -d.value) := by
  have hnew := toInt_newOrd op e.ordinal d
  have hfits := e.fits
  unfold Exact Kept moveOrdinal
  dsimp only
  generalize e.ordinal.toInt + (if op = .add then d.value else -d.value) = k at *
  generalize (e.ordinal + if op = .add then Int32.ofInt d.asI64 else -Int32.ofInt d.asI64) = o at *
  obtain ⟨hlow, hhigh, hsmall, hbmod⟩ := bmod_cases k
  rw [← hnew] at hsmall hbmod
  cases hm : e.memberCount with
  | none =>
    constructor
    · rintro ⟨r, hr, h⟩
      cases hr
      obtain ⟨_, _, hk⟩ := h _ rfl
      exact .inl hk
    · rintro (hk | ⟨hne, _⟩)
      · refine ⟨_, rfl, fun e' he => ?_⟩
        cases he
        exact ⟨rfl, hsmall (by omega) (by omega), hk⟩
      · exact absurd rfl hne
  | some c =>
    have hc := e.counted c hm
    dsimp only
    split <;> rename_i hout <;> rw [out_iff hc] at hout
    · refine iff_of_true ⟨_, rfl, fun _ he => by cases he⟩ (.inr ⟨by simp, ?_⟩)
      split at hbmod <;> omega
    · constructor
      · rintro ⟨r, hr, h⟩
        cases hr
        obtain ⟨_, _, hk⟩ := h _ rfl
        exact .inl hk
      · rintro (hk | ⟨_, hk⟩)
        · refine ⟨_, rfl, fun e' he => ?_⟩
          cases he
          exact ⟨rfl, hsmall (by omega) (by omega), hk⟩
        · split at hbmod <;> omega

/-- the ordinal `k`, where the code stores it as it is -/
def Stored (e : Member n) (k : Int) : Prop :=
  match e.memberCount with
  | some _ => 0 ≤ k ∧ k < n
  | none => -2 ^ 31 ≤ k ∧ k < 2 ^ 31

theorem moveOrdinal_subtract_iff (e : Member n) (d : IntegerOperand) :
    (∃ e', moveOrdinal .subtract e.toEnumObj d.toScalar = .ok e' ∧
      e'.ordinal.toInt = e.ordinal.toInt - d.value) ↔ Stored e (e.ordinal.toInt - d.value) := by
  have hnew := toInt_newOrd .subtract e.ordinal d
  have hfits := e.fits
  rw [if_neg (by decide), if_neg (by decide), ← Int.sub_eq_add_neg] at hnew
  unfold Stored moveOrdinal
  dsimp only
  rw [if_neg (by decide)]
  generalize e.ordinal.toInt - d.value = k at *
  generalize e.ordinal + -Int32.ofInt d.asI64 = o at *
  have hlow := o.le_toInt
  have hhigh := o.toInt_lt
  obtain ⟨_, _, hsmall, _⟩ := bmod_cases k
  rw [← hnew] at hsmall
  cases hm : e.memberCount with
  | none =>
    constructor
    · rintro ⟨e', he, hk⟩
      cases he
      dsimp only at hk
      omega
    · rintro ⟨hlow, hhigh⟩
      exact ⟨_, rfl, hsmall hlow hhigh⟩
  | some c =>
    have hc := e.counted c hm
    dsimp only
    split <;> rename_i hout <;> rw [out_iff hc] at hout
    · refine iff_of_false ?_ fun hk => ?_
      · rintro ⟨e', he, _⟩
        cases he
      · have := hsmall (by omega) (by omega)
        omega
    · constructor
      · rintro ⟨e', he, hk⟩
        cases he
        dsimp only at hk
        omega
      · rintro ⟨hlow, hhigh⟩
        exact ⟨_, rfl, hsmall (by omega) (by omega)⟩

theorem adjustLocalByDelta_exact_iff (e : Member n) (delta : Int) :
    Exact e (e.ordinal.toInt + delta) (some (.ok (adjustLocalByDelta e.toEnumObj delta))) ↔
      0 ≤ e.ordinal.toInt + delta ∧ e.ordinal.toInt + delta < n := by
  have hfits := e.fits
  constructor
  · rintro ⟨r, hr, h⟩
    cases hr
    exact (h _ rfl).2.2
  · intro hk
    refine ⟨_, rfl, fun e' he => ?_⟩
    cases he
    exact ⟨rfl, Int32.toInt_ofInt_of_le (by omega) (by omega), hk⟩

theorem enumArithmetic_exact_iff (e : Member n) (d : IntegerOperand) :
    (Exact e (e.ordinal.toInt + d.value)
        (binaryOp .add (.enum e.toEnumObj) (.intlike d.toScalar)) ↔
      Kept e (e.ordinal.toInt + d.value)) ∧
    (Exact e (e.ordinal.toInt + d.value)
        (binaryOp .add (.intlike d.toScalar) (.enum e.toEnumObj)) ↔
      Kept e (e.ordinal.toInt + d.value)) ∧
    (Exact e (e.ordinal.toInt - d.value)
        (binaryOp .subtract (.enum e.toEnumObj) (.intlike d.toScalar)) ↔
      Kept e (e.ordinal.toInt - d.value)) ∧
    ((∀ e', binaryOp .subtract (.intlike d.toScalar) (.enum e.toEnumObj) = some (.ok e') →
        e'.ordinal.toInt ≠ e.ordinal.toInt - d.value) ↔
      ¬ Stored e (e.ordinal.toInt - d.value)) ∧
    ∀ delta, Exact e (e.ordinal.toInt + delta)
        (some (.ok (adjustLocalByDelta e.toEnumObj delta))) ↔
      0 ≤ e.ordinal.toInt + delta ∧ e.ordinal.toInt + delta < n := by
  have hadd := moveOrdinal_exact_iff .add e d
  have hsub := moveOrdinal_exact_iff .subtract e d
  refine ⟨hadd, hadd, hsub, ?_, adjustLocalByDelta_exact_iff e⟩
  rw [← moveOrdinal_subtract_iff]
  constructor
  · rintro h ⟨e', he, hk⟩
    exact h e' (congrArg some he) hk
  · intro h e' he hk
    exact h ⟨e', Option.some.inj he, hk⟩

/-- the last member of a type with three, as the code makes it -/
def lastColor : Member 3 where
  enumName := some "color"
  ordinal := 2
  memberCount := none
  low := by decide
  high := by decide
  counted := fun c hc => by cases hc
  fits := by decide

/-- One behind the last member is no member; and `2 - blue` is `blue - 2`, with ordinal 0. -/
theorem not_exact_lastColor : ¬ Exact lastColor 3 (binaryOp .add (.enum lastColor.toEnumObj)
      (.intlike (Scalar.ofInt .int64 1))) ∧
    binaryOp .subtract (.intlike (Scalar.ofInt .int64 2)) (.enum lastColor.toEnumObj) =
      some (.ok { lastColor.toEnumObj with ordinal := 0 }) := by
  refine ⟨?_, by decide⟩
  rintro ⟨r, hr, h⟩
  cases hr
  obtain ⟨_, _, _, hlt⟩ := h _ rfl
  exact absurd hlt (by decide)

end EnumArithmetic

end Pscal
