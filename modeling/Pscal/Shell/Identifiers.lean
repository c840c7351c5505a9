import Pscal.Core.Utf8
import Pscal.Shell.Arithmetic

/-!
# Identifiers of the shell

`consumeShellIdentifier` of `core/utils.c`: the identifier that a text starts with, in UTF-8.
-/

namespace Pscal.Shell

open Wire (Bytes)

/-- `isalpha` of a code point up to `0x7F` -/
def isAsciiAlpha (codepoint : Nat) : Bool :=
  (65 ≤ codepoint && codepoint ≤ 90) || (97 ≤ codepoint && codepoint ≤ 122)

def isShellIdentifierStartCodepoint (codepoint : Nat) : Bool :=
  if codepoint = 95 then true
  else if codepoint ≤ 0x7F then isAsciiAlpha codepoint
  else codepoint ≤ 0x10FFFF

def isShellIdentifierContinueCodepoint (codepoint : Nat) (allowHash : Bool) : Bool :=
  if codepoint = 95 then true
  else if allowHash && codepoint = 35 then true
  else if codepoint ≤ 0x7F then isAsciiAlpha codepoint || (48 ≤ codepoint && codepoint ≤ 57)
  else codepoint ≤ 0x10FFFF

/-- the bytes that go on an identifier; each round takes some, so the length bounds the rounds -/
def continueIdentifier (allowHash : Bool) : Nat → Bytes → Nat
  | 0, _ => 0
  | fuel + 1, text =>
    match decodeUtf8Codepoint text with
    | none => 0
    | some (codepoint, advance) =>
      if isShellIdentifierContinueCodepoint codepoint allowHash then
        advance + continueIdentifier allowHash fuel (text.drop advance)
      else 0

def consumeShellIdentifier (text : Bytes) (allowHash : Bool) : Option Nat :=
  match decodeUtf8Codepoint text with
  | none => none
  | some (codepoint, advance) =>
    if isShellIdentifierStartCodepoint codepoint then
      some (advance + continueIdentifier allowHash text.length (text.drop advance))
    else none

theorem advance_le {text : Bytes} {codepoint advance : Nat}
    (h : decodeUtf8Codepoint text = some (codepoint, advance)) : advance ≤ text.length := by
  obtain ⟨head, rest, rfl, -, rfl⟩ := decode_some h
  rw [List.length_append]
  exact Nat.le_add_right _ _

theorem continueIdentifier_le (allowHash : Bool) (fuel : Nat) (text : Bytes) :
    continueIdentifier allowHash fuel text ≤ text.length := by
  induction fuel generalizing text with
  | zero => exact Nat.zero_le _
  | succ fuel ih =>
    rw [continueIdentifier]
    cases hd : decodeUtf8Codepoint text with
    | none => exact Nat.zero_le _
    | some r =>
      have hle := advance_le hd
      have hrest := ih (text.drop r.2)
      rw [List.length_drop] at hrest
      dsimp only
      split
      · omega
      · exact Nat.zero_le _

def shellIdentifiers : IdentifierScanner where
  consumeShellIdentifier text := consumeShellIdentifier text false
  le := by
    intro text n h
    rw [consumeShellIdentifier] at h
    cases hd : decodeUtf8Codepoint text with
    | none => simp [hd] at h
    | some r =>
      have hle := advance_le hd
      have hrest := continueIdentifier_le false text.length (text.drop r.2)
      rw [List.length_drop] at hrest
      rw [hd] at h
      dsimp only at h
      split at h
      · cases h
        omega
      · cases h

end Pscal.Shell
