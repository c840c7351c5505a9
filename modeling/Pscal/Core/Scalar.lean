import Pscal.Core.Value

/-!
# Int-like values

* `IntType.store`  what `SET_INT_VALUE` (`core/types.h`) keeps of a `long long`;
* `Scalar`  a value of an int-like type, as it is stored.
-/

namespace Pscal

/-- what `SET_INT_VALUE` stores of a `long long` -/
def IntType.store : IntType → Int → Int
  | .boolean, v => if v = 0 then 0 else 1
  | .char, v | .byte, v | .uint8, v => v % 2 ^ 8
  | .word, v | .uint16, v => v % 2 ^ 16
  | .widechar, v | .uint32, v => v % 2 ^ 32
  | .uint64, v => v % 2 ^ 64
  | .int8, v => v.bmod (2 ^ 8)
  | .int16, v => v.bmod (2 ^ 16)
  | .int32, v | .thread, v => v.bmod (2 ^ 32)
  | .int64, v => v.bmod (2 ^ 64)

theorem IntType.store_store (t : IntType) (v : Int) : t.store (t.store v) = t.store v := by
  cases t <;> simp only [IntType.store, Int.emod_emod, Int.bmod_bmod]
  split <;> simp

structure Scalar where
  type : IntType
  value : Int
  stored : type.store value = value
deriving DecidableEq, Repr

/-- `SET_INT_VALUE` -/
def Scalar.ofInt (type : IntType) (v : Int) : Scalar :=
  { type := type, value := type.store v, stored := type.store_store v }

/-! ## through a word -/

theorem emod_bmod_of_dvd {m M : Nat} (h : m ∣ M) (v : Int) : v.bmod M % m = v % m := by
  have hdvd : (m : Int) ∣ M := Int.natCast_dvd_natCast.mpr h
  rw [← Int.emod_emod_of_dvd (v.bmod M) hdvd, Int.bmod_emod, Int.emod_emod_of_dvd v hdvd]

theorem IntType.store_bmod {t : IntType} {v : Int} (h : t.store v = v) :
    t.store (v.bmod (2 ^ 64)) = v := by
  rw [← h]
  cases t with
  | boolean =>
    by_cases hv : v = 0
    · rw [hv]
      decide
    · have hone : IntType.boolean.store v = 1 := if_neg hv
      rw [hone]
      decide
  | char => exact (emod_bmod_of_dvd (m := 2 ^ 8) (by decide) _).trans (Int.emod_emod ..)
  | byte => exact (emod_bmod_of_dvd (m := 2 ^ 8) (by decide) _).trans (Int.emod_emod ..)
  | uint8 => exact (emod_bmod_of_dvd (m := 2 ^ 8) (by decide) _).trans (Int.emod_emod ..)
  | word => exact (emod_bmod_of_dvd (m := 2 ^ 16) (by decide) _).trans (Int.emod_emod ..)
  | uint16 => exact (emod_bmod_of_dvd (m := 2 ^ 16) (by decide) _).trans (Int.emod_emod ..)
  | widechar => exact (emod_bmod_of_dvd (m := 2 ^ 32) (by decide) _).trans (Int.emod_emod ..)
  | uint32 => exact (emod_bmod_of_dvd (m := 2 ^ 32) (by decide) _).trans (Int.emod_emod ..)
  | uint64 => exact (emod_bmod_of_dvd (m := 2 ^ 64) (by decide) _).trans (Int.emod_emod ..)
  | int8 => exact (Int.bmod_bmod_of_dvd (by decide)).trans (Int.bmod_bmod ..)
  | int16 => exact (Int.bmod_bmod_of_dvd (by decide)).trans (Int.bmod_bmod ..)
  | int32 => exact (Int.bmod_bmod_of_dvd (by decide)).trans (Int.bmod_bmod ..)
  | thread => exact (Int.bmod_bmod_of_dvd (by decide)).trans (Int.bmod_bmod ..)
  | int64 => exact (Int.bmod_bmod_of_dvd (by decide)).trans (Int.bmod_bmod ..)

end Pscal
