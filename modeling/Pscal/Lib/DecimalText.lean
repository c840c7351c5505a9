import Mathlib

/-!
# Numbers as decimal text

* `decimal n`  the digits of a number, as bytes;
* `value text`  the number that digits stand for;
* `value_decimal`  reading what was written;
* `isDigit_of_mem_decimal`, `decimal_ne_nil`  what is written.
-/

namespace DecimalText

open List

def isDigit (b : UInt8) : Bool := 48 ≤ b && b ≤ 57

def decimal (n : Nat) : List UInt8 := (Nat.toDigits 10 n).map fun c => UInt8.ofNat c.toNat

def value (text : List UInt8) : Nat := text.foldl (fun n b => 10 * n + (b.toNat - 48)) 0

theorem toNat_of_isDigit {c : Char} (h : c.isDigit) : 48 ≤ c.toNat ∧ c.toNat ≤ 57 := by
  rw [Char.isDigit, Bool.and_eq_true, decide_eq_true_eq, decide_eq_true_eq] at h
  exact ⟨h.1, h.2⟩

theorem toNat_ofNat {c : Char} (h : c.isDigit) : (UInt8.ofNat c.toNat).toNat = c.toNat := by
  obtain ⟨_, hle⟩ := toNat_of_isDigit h
  exact UInt8.toNat_ofNat_of_lt' (Nat.lt_of_le_of_lt hle (by decide))

theorem foldl_ofNat (cs : List Char) (h : ∀ c ∈ cs, c.isDigit) (n : Nat) :
    (cs.map fun c => UInt8.ofNat c.toNat).foldl (fun n b => 10 * n + (b.toNat - 48)) n =
      Nat.ofDigitChars 10 cs n := by
  induction cs generalizing n with
  | nil => rfl
  | cons c cs ih =>
    rw [map_cons, foldl_cons, ih (fun d hd => h d (mem_cons_of_mem _ hd)),
      toNat_ofNat (h c mem_cons_self)]
    rfl

theorem isDigit_of_mem_toDigits {n : Nat} {c : Char} (hc : c ∈ Nat.toDigits 10 n) : c.isDigit :=
  Nat.isDigit_of_mem_toDigits (by decide) (by decide) hc

theorem value_decimal (n : Nat) : value (decimal n) = n := by
  rw [value, decimal, foldl_ofNat _ fun c hc => isDigit_of_mem_toDigits hc]
  exact Nat.ofDigitChars_ten_toDigits

theorem decimal_injective : Function.Injective decimal := fun n m h => by
  rw [← value_decimal n, h, value_decimal]

theorem isDigit_of_mem_decimal {n : Nat} {b : UInt8} (hb : b ∈ decimal n) : isDigit b = true := by
  obtain ⟨c, hc, rfl⟩ := List.mem_map.mp hb
  obtain ⟨hle, hle'⟩ := toNat_of_isDigit (isDigit_of_mem_toDigits hc)
  have hnat := toNat_ofNat (isDigit_of_mem_toDigits hc)
  rw [isDigit, Bool.and_eq_true, decide_eq_true_eq, decide_eq_true_eq, UInt8.le_iff_toNat_le,
    UInt8.le_iff_toNat_le, hnat]
  exact ⟨hle, hle'⟩

theorem decimal_ne_nil (n : Nat) : decimal n ≠ [] := fun h =>
  Nat.toDigits_ne_nil (map_eq_nil_iff.mp h)

theorem head?_decimal {n : Nat} (h : 0 < n) : (decimal n).head? ≠ some 48 := by
  induction n using Nat.strongRecOn with
  | ind n ih =>
    rw [decimal, Nat.toDigits_eq_if (by decide)]
    by_cases hlt : n < 10
    · rw [if_pos hlt]
      interval_cases n <;> decide
    · rw [if_neg hlt, map_append]
      show (decimal (n / 10) ++ _).head? ≠ some 48
      rw [head?_append_of_ne_nil _ (decimal_ne_nil _)]
      exact ih (n / 10) (by omega) (by omega)

end DecimalText
