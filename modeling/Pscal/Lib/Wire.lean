import Mathlib

/-!
# Byte formats

Numbers and length-prefixed bytes on the wire, and readers for them.  A reader takes the rest of
the input, with a flag that it has run past the end, and a state of its caller; it may give up.

* `le`, `ofLe`, `varint`  little-endian numbers and groups of seven bits;
* `Reader σ α`  the readers, a monad;
* `Reads m bs s a s'`  in the state `s` the reader `m` consumes `bs` and gives `a` and `s'`;
* `ReadsBack m bs a`  it does so in every state;
* `Reads.bind`, `ReadsBack.bind`  how readers compose.
-/

namespace Wire

open List

abbrev Bytes := List UInt8

/-! ## numbers -/

/-- `n` bytes of a number, lowest first -/
def le : Nat → Nat → Bytes
  | 0, _ => []
  | n + 1, v => UInt8.ofNat v :: le n (v / 256)

def ofLe : Bytes → Nat
  | [] => 0
  | b :: bs => b.toNat + 256 * ofLe bs

theorem length_le (n v : Nat) : (le n v).length = n := by
  induction n generalizing v with
  | zero => rfl
  | succ n ih => rw [le, length_cons, ih]

theorem toNat_ofNat (v : Nat) : (UInt8.ofNat v).toNat = v % 256 := UInt8.toNat_ofNat'

theorem ofLe_le (n v : Nat) : ofLe (le n v) = v % 256 ^ n := by
  induction n generalizing v with
  | zero => rw [le, ofLe, Nat.pow_zero, Nat.mod_one]
  | succ n ih => rw [le, ofLe, ih, toNat_ofNat, Nat.pow_succ', Nat.mod_mul]

/-- groups of seven bits, lowest first, at most `n` of them; the top bit says that more follow -/
def varint : Nat → Nat → Bytes
  | 0, _ => []
  | n + 1, v => if v < 128 then [UInt8.ofNat v] else UInt8.ofNat (v % 128 + 128) :: varint n (v / 128)

/-! ## readers -/

structure Input where
  rest : Bytes
  /-- the end was passed; nothing is read from then on -/
  error : Bool := false
deriving DecidableEq, Repr

def Reader (σ α : Type) := Input → σ → Option α × Input × σ

namespace Reader

variable {σ α β : Type}

def pure (a : α) : Reader σ α := fun c s => (some a, c, s)

def bind (m : Reader σ α) (f : α → Reader σ β) : Reader σ β := fun c s =>
  match m c s with
  | (some a, c, s) => f a c s
  | (none, c, s) => (none, c, s)

instance : Monad (Reader σ) where
  pure := pure
  bind := bind

/-- the reader gives up -/
def fail : Reader σ α := fun c s => (none, c, s)

def overrun : Reader σ Unit := fun c s => (some (), { c with error := true }, s)

/-- whether the end was passed -/
def hasError : Reader σ Bool := fun c s => (some c.error, c, s)

/-- the reader gives up unless the condition holds -/
def guard (p : Prop) [Decidable p] : Reader σ Unit := if p then pure () else fail

/-- how many bytes are left -/
def remaining : Reader σ Nat := fun c s => (some c.rest.length, c, s)

/-- the caller's state -/
def get : Reader σ σ := fun c s => (some s, c, s)

def set (s : σ) : Reader σ Unit := fun c _ => (some (), c, s)

/-- the next `n` bytes, or none past the end -/
def bytes (n : Nat) : Reader σ (Option Bytes) := fun c s =>
  if c.error ∨ c.rest.length < n then (some none, { c with error := true }, s)
  else (some (some (c.rest.take n)), { c with rest := c.rest.drop n }, s)

/-- a number of `n` bytes; `0` past the end -/
def number (n : Nat) : Reader σ Nat := do
  let bs ← bytes n
  return bs.elim 0 ofLe

/-- the groups of a `varint` number from the bit `shift` on; `0` past the end -/
def groups : Nat → Nat → Nat → Reader σ Nat
  | 0, _, _ => do
    overrun
    return 0
  | n + 1, shift, result => do
    let byte ← number 1
    let result := (result + byte % 128 * 2 ^ shift) % 2 ^ 64
    if ← hasError then
      return 0
    else if byte < 128 then
      return result
    else
      groups n (shift + 7) result

/-- one after the other -/
def times (m : Reader σ α) : Nat → Reader σ (List α)
  | 0 => pure []
  | n + 1 => do
    let a ← m
    let as ← times m n
    return a :: as

end Reader

/-! ## what a reader consumes -/

section
variable {σ α β : Type}

def Reads (m : Reader σ α) (bs : Bytes) (s : σ) (a : α) (s' : σ) : Prop :=
  ∀ rest, m { rest := bs ++ rest } s = (some a, { rest := rest }, s')

theorem Reads.pure (a : α) (s : σ) : Reads (Pure.pure a) [] s a s := fun _ => rfl

variable {a : α} {b : β} {bs : Bytes} {f : α → Reader σ β} {m : Reader σ α} {s s' s'' : σ} {v : Nat}

theorem Reads.bind {bs' : Bytes} (h : Reads m bs s a s') (h' : Reads (f a) bs' s' b s'') :
    Reads (m >>= f) (bs ++ bs') s b s'' := by
  intro rest
  show Reader.bind m f _ s = _
  rw [Reader.bind, append_assoc, h]
  exact h' rest

theorem Reads.goesOn (h : Reads m bs s a s') (f : α → Reader σ β) (rest : Bytes) :
    (m >>= f) { rest := bs ++ rest } s = f a { rest := rest } s' := by
  show Reader.bind m f _ s = _
  rw [Reader.bind, h]

theorem fails_bind {c c' : Input} (h : m c s = (none, c', s')) (f : α → Reader σ β) :
    (m >>= f) c s = (none, c', s') := by
  show Reader.bind m f c s = _
  rw [Reader.bind, h]

theorem get_bind (f : σ → Reader σ β) (c : Input) (s : σ) : (Reader.get >>= f) c s = f s c s := rfl

theorem set_bind (f : Unit → Reader σ β) (c : Input) (s s' : σ) :
    (Reader.set s' >>= f) c s = f () c s' := rfl

theorem Reads.then (h : Reads m [] s a s') (h' : Reads (f a) bs s' b s'') :
    Reads (m >>= f) bs s b s'' :=
  Reads.bind h h'

theorem Reads.last (h : Reads m bs s a s') (h' : Reads (f a) [] s' b s'') :
    Reads (m >>= f) bs s b s'' := by
  have h'' := Reads.bind h h'
  rwa [append_nil] at h''

theorem Reads.map {m : Reader σ α} {bs : Bytes} {s s' : σ} {a : α} (h : Reads m bs s a s')
    (f : α → β) : Reads (m >>= fun a => Pure.pure (f a)) bs s (f a) s' :=
  Reads.last h (Reads.pure (f a) s')

theorem reads_hasError (s : σ) : Reads (Reader.hasError (σ := σ)) [] s false s := fun _ => rfl

theorem reads_get (s : σ) : Reads Reader.get [] s s s := fun _ => rfl

theorem reads_set (s s' : σ) : Reads (Reader.set s') [] s () s' := fun _ => rfl

theorem Reads.remaining {f : Nat → Reader σ β} {m : Reader σ β} (h : Reads m bs s b s')
    (hf : ∀ n, bs.length ≤ n → f n = m) : Reads (Reader.remaining >>= f) bs s b s' := by
  intro rest
  show f (bs ++ rest).length _ s = _
  rw [hf _ (by rw [length_append]; omega)]
  exact h rest

theorem reads_bytes (bs : Bytes) (s : σ) : Reads (Reader.bytes bs.length) bs s (some bs) s := by
  intro rest
  have hlt : ¬ (false = true ∨ (bs ++ rest).length < bs.length) := by
    rw [length_append]
    simp
  rw [Reader.bytes, if_neg hlt, take_left, drop_left]

theorem reads_number (n v : Nat) (s : σ) : Reads (Reader.number n) (le n v) s (v % 256 ^ n) s := by
  have h := reads_bytes (le n v) s
  rw [length_le] at h
  have h' := h.map fun bs => bs.elim 0 ofLe
  rwa [Option.elim_some, ofLe_le] at h'

theorem reads_number_of_lt {n : Nat} (hv : v < 256 ^ n) (s : σ) :
    Reads (Reader.number n) (le n v) s v s := by
  have h := reads_number n v s
  rwa [Nat.mod_eq_of_lt hv] at h

theorem reads_lastGroup (hv : v < 128) (n shift result : Nat)
    (hlt : result + v * 2 ^ shift < 2 ^ 64) (s : σ) :
    Reads (Reader.groups (n + 1) shift result) [UInt8.ofNat v] s (result + v * 2 ^ shift) s := by
  refine Reads.last (reads_number_of_lt (n := 1) (by omega) s) (Reads.then (reads_hasError s) ?_)
  rw [if_neg Bool.false_ne_true, if_pos hv, Nat.mod_eq_of_lt hv, Nat.mod_eq_of_lt hlt]
  exact Reads.pure _ s

theorem reads_groups {n : Nat} (hv : v < 128 ^ (n + 1)) (shift result : Nat)
    (hlt : result + v * 2 ^ shift < 2 ^ 64) (s : σ) :
    Reads (Reader.groups (n + 1) shift result) (varint (n + 1) v) s
      (result + v * 2 ^ shift) s := by
  induction n generalizing v shift result with
  | zero =>
    have hlast : v < 128 := by omega
    rw [varint, if_pos hlast]
    exact reads_lastGroup hlast 0 shift result hlt s
  | succ n ih =>
    rw [varint]
    by_cases hlast : v < 128
    · rw [if_pos hlast]
      exact reads_lastGroup hlast (n + 1) shift result hlt s
    rw [if_neg hlast]
    -- the groups below and from this one on
    have hsplit : result + v % 128 * 2 ^ shift + v / 128 * 2 ^ (shift + 7)
        = result + v * 2 ^ shift := by
      calc result + v % 128 * 2 ^ shift + v / 128 * 2 ^ (shift + 7)
          = result + (v % 128 + 128 * (v / 128)) * 2 ^ shift := by ring
        _ = result + v * 2 ^ shift := by rw [Nat.mod_add_div]
    have hbyte : v % 128 + 128 < 256 ^ 1 := by omega
    refine Reads.bind (reads_number_of_lt hbyte s) (Reads.then (reads_hasError s) ?_)
    have hlow : result + v % 128 * 2 ^ shift < 2 ^ 64 := by omega
    have hmod : (v % 128 + 128) % 128 = v % 128 := by omega
    rw [if_neg Bool.false_ne_true, if_neg (by omega), hmod, Nat.mod_eq_of_lt hlow, ← hsplit]
    refine ih ?_ (shift + 7) _ (by omega)
    rw [Nat.div_lt_iff_lt_mul (by omega), ← Nat.pow_succ]
    exact hv

theorem reads_times {bss : List Bytes} {as : List α}
    (h : Forall₂ (fun bs a => Reads m bs s a s) bss as) :
    Reads (Reader.times m as.length) bss.flatten s as s := by
  induction h with
  | nil => exact Reads.pure [] s
  | cons h _ ih => exact Reads.bind h (Reads.map ih _)

/-! ## in every state -/

def ReadsBack (m : Reader σ α) (bs : Bytes) (a : α) : Prop := ∀ s, ∃ s', Reads m bs s a s'

theorem Reads.back {m : Reader σ α} {bs : Bytes} {a : α} (h : ∀ s, Reads m bs s a s) :
    ReadsBack m bs a := fun s => ⟨s, h s⟩

theorem ReadsBack.pure (a : α) : ReadsBack (σ := σ) (Pure.pure a) [] a :=
  Reads.back (Reads.pure a)

theorem ReadsBack.bind {bs' : Bytes} (h : ReadsBack m bs a) (h' : ReadsBack (f a) bs' b) :
    ReadsBack (m >>= f) (bs ++ bs') b := by
  intro s
  obtain ⟨s', hm⟩ := h s
  obtain ⟨s'', hf⟩ := h' s'
  exact ⟨s'', hm.bind hf⟩

theorem ReadsBack.then (h : ReadsBack m [] a) (h' : ReadsBack (f a) bs b) :
    ReadsBack (m >>= f) bs b :=
  ReadsBack.bind h h'

theorem ReadsBack.last (h : ReadsBack m bs a) (h' : ReadsBack (f a) [] b) :
    ReadsBack (m >>= f) bs b := by
  have h'' := ReadsBack.bind h h'
  rwa [append_nil] at h''

theorem ReadsBack.map {m : Reader σ α} {bs : Bytes} {a : α} (h : ReadsBack m bs a) (f : α → β) :
    ReadsBack (m >>= fun a => Pure.pure (f a)) bs (f a) :=
  .last h (.pure (f a))

theorem readsBack_hasError : ReadsBack (Reader.hasError (σ := σ)) [] false :=
  Reads.back reads_hasError

theorem ReadsBack.remaining {f : Nat → Reader σ β} {m : Reader σ β} (h : ReadsBack m bs b)
    (hf : ∀ n, bs.length ≤ n → f n = m) : ReadsBack (Reader.remaining >>= f) bs b := fun s =>
  (h s).imp fun _ hm => hm.remaining hf

/-- values that are each read back, but for `R`, are read back one after the other -/
theorem readsBack_times {w : β → Bytes} {R : β → α → Prop} {l : List β}
    (h : ∀ b ∈ l, ∃ a, R b a ∧ ReadsBack m (w b) a) :
    ∃ as, Forall₂ R l as ∧ ReadsBack (Reader.times m l.length) (l.flatMap w) as := by
  induction l with
  | nil => exact ⟨[], Forall₂.nil, .pure []⟩
  | cons b l ih =>
    obtain ⟨a, hR, ha⟩ := h b mem_cons_self
    obtain ⟨as, hRs, has⟩ := ih fun b hb => h b (mem_cons_of_mem _ hb)
    exact ⟨a :: as, Forall₂.cons hR hRs, .bind ha (.map has _)⟩

theorem readsBack_times_map {w : β → Bytes} {f : β → α} {l : List β}
    (h : ∀ b ∈ l, ReadsBack m (w b) (f b)) :
    ReadsBack (Reader.times m l.length) (l.flatMap w) (l.map f) := by
  induction l with
  | nil => exact .pure []
  | cons b l ih =>
    have hl := ih fun b hb => h b (mem_cons_of_mem _ hb)
    exact .bind (h b mem_cons_self) (.map hl _)

end

end Wire
