import Pscal.Lib.Wire

/-!
# Readers of a buffer

A reader as it runs on a part of a buffer, with a position that it checks before each read, and
with a log of what it does: its reads, the counts that it allocates or loops for, and how deep it
nests.  It may run out of fuel.

* `Cursor`, `Event`, `Traced ι σ α`  the position, the log and the readers, a monad;
* `Policy`, `Event.Sound`  which counts and which depths are allowed;
* `Sound p buf d Q m m'`  from the depth `d`, the reader `m` does only what is allowed, does not run
  out of fuel, and gives what the reader `m'` of the bytes gives, with `Q`;
* `Sound.bind`, `Sound.ite`, …  how sound readers compose.
-/

namespace Wire

open List

/-! ## positions -/

structure Cursor where
  /-- where the part starts in the buffer -/
  base : Nat
  size : Nat
  pos : Nat := 0
  error : Bool := false
  depth : Nat := 0
  tooDeep : Bool := false
deriving DecidableEq, Repr

def Cursor.left (c : Cursor) : Nat := c.size - c.pos

/-- the position is in the part, and the part in the buffer, unless it is empty -/
def Cursor.Inside (buf : Bytes) (c : Cursor) : Prop :=
  c.pos ≤ c.size ∧ (c.size = 0 ∨ c.base + c.size ≤ buf.length)

/-- what is left to read -/
def Cursor.input (buf : Bytes) (c : Cursor) : Input where
  rest := (buf.drop (c.base + c.pos)).take c.left
  error := c.error

theorem Cursor.Inside.length_rest {buf : Bytes} {c : Cursor} (h : c.Inside buf) :
    (c.input buf).rest.length = c.left := by
  obtain ⟨hpos, hsize⟩ := h
  rw [Cursor.input, Cursor.left, length_take, length_drop]
  omega

/-! ## what readers do -/

inductive Event (ι : Type) where
  /-- bytes of the part from `base` on are read -/
  | read (base size offset n : Nat)
  /-- something is allocated, or a loop entered, for a count from the input -/
  | count (kind : ι) (n left : Nat)
  | enter (depth : Nat)
deriving DecidableEq, Repr

inductive Outcome (α : Type) where
  | done (a : α)
  | failed
  /-- out of fuel -/
  | stuck
deriving DecidableEq, Repr

structure Run (ι σ α : Type) where
  outcome : Outcome α
  cursor : Cursor
  state : σ
  events : List (Event ι) := []

def Traced (ι σ α : Type) := Bytes → Cursor → σ → Run ι σ α

namespace Traced

variable {ι σ α β : Type}

def pure (a : α) : Traced ι σ α := fun _ c s => { outcome := .done a, cursor := c, state := s }

def bind (m : Traced ι σ α) (f : α → Traced ι σ β) : Traced ι σ β := fun buf c s =>
  let r := m buf c s
  match r.outcome with
  | .done a =>
    let r' := f a buf r.cursor r.state
    { r' with events := r.events ++ r'.events }
  | .failed => { r with outcome := .failed }
  | .stuck => { r with outcome := .stuck }

instance : Monad (Traced ι σ) where
  pure := pure
  bind := bind

def fail : Traced ι σ α := fun _ c s => { outcome := .failed, cursor := c, state := s }

def stuck : Traced ι σ α := fun _ c s => { outcome := .stuck, cursor := c, state := s }

def overrun : Traced ι σ Unit := fun _ c s =>
  { outcome := .done (), cursor := { c with error := true }, state := s }

def hasError : Traced ι σ Bool := fun _ c s => { outcome := .done c.error, cursor := c, state := s }

def remaining : Traced ι σ Nat := fun _ c s => { outcome := .done c.left, cursor := c, state := s }

/-- the size of the whole part -/
def size : Traced ι σ Nat := fun _ c s => { outcome := .done c.size, cursor := c, state := s }

def get : Traced ι σ σ := fun _ c s => { outcome := .done s, cursor := c, state := s }

def set (s : σ) : Traced ι σ Unit := fun _ c _ => { outcome := .done (), cursor := c, state := s }

/-- an allocation or a loop for a count -/
def allot (kind : ι) (n : Nat) : Traced ι σ Unit := fun _ c s =>
  { outcome := .done (), cursor := c, state := s, events := [.count kind n c.left] }

/-- the next `n` bytes, or none if they are not all there -/
def bytes (n : Nat) : Traced ι σ (Option Bytes) := fun buf c s =>
  if c.error then { outcome := .done none, cursor := c, state := s }
  else if c.left < n then
    { outcome := .done none, cursor := { c with error := true }, state := s }
  else
    { outcome := .done (some ((buf.drop (c.base + c.pos)).take n))
      cursor := { c with pos := c.pos + n }
      state := s
      events := if n = 0 then [] else [.read c.base c.size (c.base + c.pos) n] }

def number (n : Nat) : Traced ι σ Nat := do
  let bs ← bytes n
  return bs.elim 0 ofLe

/-- the groups of a `varint` number -/
def groups : Nat → Nat → Nat → Traced ι σ Nat
  | 0, _, _ => stuck
  | fuel + 1, shift, result => do
    if (← hasError) ∨ 63 < shift then
      overrun
      return 0
    let byte ← number 1
    let result := (result + byte % 128 * 2 ^ shift) % 2 ^ 64
    if ← hasError then
      return 0
    else if byte < 128 then
      return result
    else
      groups fuel (shift + 7) result

def times (m : Traced ι σ α) : Nat → Traced ι σ (List α)
  | 0 => pure []
  | n + 1 => do
    let a ← m
    let as ← times m n
    return a :: as

/-- one level down, unless that is too deep -/
def nested (limit : Nat) (deep m : Traced ι σ α) : Traced ι σ α := fun buf c s =>
  if limit ≤ c.depth then deep buf { c with error := true, tooDeep := true } s
  else
    let r := m buf { c with depth := c.depth + 1 } s
    { r with
      cursor := { r.cursor with depth := r.cursor.depth - 1 }
      events := .enter (c.depth + 1) :: r.events }

/-- a reader with a cursor of its own -/
def inPart (base size : Nat) (m : Traced ι σ α) : Traced ι σ α := fun buf c s =>
  { m buf { base := base, size := size } s with cursor := c }

end Traced

/-! ## what is allowed -/

structure Policy (ι : Type) where
  limit : Nat
  /-- a count of the kind is allowed with so many bytes left -/
  fits : ι → Nat → Nat → Prop

def Event.Sound {ι : Type} (p : Policy ι) (buf : Bytes) : Event ι → Prop
  | .read base size offset n =>
    base ≤ offset ∧ offset + n ≤ base + size ∧ offset + n ≤ buf.length
  | .count kind n left => p.fits kind n left
  | .enter depth => depth ≤ p.limit

section
variable {ι σ α β : Type} {p : Policy ι} {buf : Bytes} {d : Nat}

/-- what a run leaves behind, started at the depth `d` -/
structure Run.Kept (p : Policy ι) (d : Nat) (buf : Bytes) (c : Cursor) (r : Run ι σ α) : Prop where
  events : ∀ e ∈ r.events, e.Sound p buf
  inside : r.cursor.Inside buf
  base : r.cursor.base = c.base
  size : r.cursor.size = c.size
  depth : r.cursor.depth = d

/-- the outcome of a run is the one of a reader of the bytes -/
def Run.Agrees (buf : Bytes) (Q : α → Prop) (r : Run ι σ α) (o : Option α × Input × σ) : Prop :=
  match r.outcome with
  | .done a => Q a ∧ o = (some a, r.cursor.input buf, r.state)
  | .failed => o.1 = none
  | .stuck => False

def Sound (p : Policy ι) (buf : Bytes) (d : Nat) (Q : α → Prop) (m : Traced ι σ α)
    (m' : Reader σ α) : Prop :=
  ∀ c s, c.Inside buf → c.depth = d →
    (m buf c s).Kept p d buf c ∧ (m buf c s).Agrees buf Q (m' (c.input buf) s)

variable {Q : α → Prop} {m : Traced ι σ α} {m' : Reader σ α}

theorem Sound.weaken {R : α → Prop} (h : Sound p buf d Q m m') (hQ : ∀ a, Q a → R a) :
    Sound p buf d R m m' := by
  intro c s hc hd
  obtain ⟨hkept, hagree⟩ := h c s hc hd
  refine ⟨hkept, ?_⟩
  unfold Run.Agrees at hagree ⊢
  split at hagree
  · exact ⟨hQ _ hagree.1, hagree.2⟩
  · exact hagree
  · exact hagree

theorem Sound.still (a : Cursor → α) (hQ : ∀ c, Q (a c))
    (hm : ∀ c s, m buf c s = { outcome := .done (a c), cursor := c, state := s })
    (hm' : ∀ c s, m' (c.input buf) s = (some (a c), c.input buf, s)) : Sound p buf d Q m m' := by
  intro c s hc hd
  rw [hm, hm']
  exact ⟨⟨fun _ he => absurd he not_mem_nil, hc, rfl, rfl, hd⟩, hQ c, rfl⟩

theorem Sound.pure {a : α} (h : Q a) : Sound (σ := σ) p buf d Q (Pure.pure a) (Pure.pure a) :=
  .still (fun _ => a) (fun _ => h) (fun _ _ => rfl) fun _ _ => rfl

theorem Sound.bind {R : β → Prop} {f : α → Traced ι σ β} {f' : α → Reader σ β}
    (h : Sound p buf d Q m m') (hf : ∀ a, Q a → Sound p buf d R (f a) (f' a)) :
    Sound p buf d R (m >>= f) (m' >>= f') := by
  intro c s hc hd
  obtain ⟨hkept, hagree⟩ := h c s hc hd
  show (Traced.bind m f buf c s).Kept p d buf c ∧
    (Traced.bind m f buf c s).Agrees buf R (Reader.bind m' f' (c.input buf) s)
  rw [Traced.bind, Reader.bind]
  unfold Run.Agrees at hagree
  split at hagree
  · -- the second reader starts where the first one stopped
    rename_i a hdone
    obtain ⟨hQ, hread⟩ := hagree
    obtain ⟨hkept', hagree'⟩ := hf a hQ _ (m buf c s).state hkept.inside hkept.depth
    rw [hread]
    refine ⟨⟨fun e he => ?_, hkept'.inside, hkept'.base.trans hkept.base,
      hkept'.size.trans hkept.size, hkept'.depth⟩, hagree'⟩
    rcases mem_append.mp he with he | he
    · exact hkept.events e he
    · exact hkept'.events e he
  · refine ⟨⟨hkept.events, hkept.inside, hkept.base, hkept.size, hkept.depth⟩, ?_⟩
    generalize m' (c.input buf) s = o at hagree
    obtain ⟨_, c', s'⟩ := o
    obtain rfl := hagree
    rfl
  · exact hagree.elim

theorem Sound.ite {c : Prop} [Decidable c] {n : Traced ι σ α} {n' : Reader σ α}
    (hm : c → Sound p buf d Q m m') (hn : ¬ c → Sound p buf d Q n n') :
    Sound p buf d Q (if c then m else n) (if c then m' else n') := by
  by_cases hc : c
  · rw [if_pos hc, if_pos hc]
    exact hm hc
  · rw [if_neg hc, if_neg hc]
    exact hn hc

theorem Sound.fail : Sound (σ := σ) p buf d Q Traced.fail Reader.fail :=
  fun _ _ hc hd => ⟨⟨fun _ he => absurd he not_mem_nil, hc, rfl, rfl, hd⟩, rfl⟩

theorem Sound.fail_bind {Q : β → Prop} {f : α → Traced ι σ β} {f' : α → Reader σ β} :
    Sound p buf d Q (Traced.fail >>= f) (Reader.fail >>= f') :=
  .bind (.fail (Q := fun _ => False)) fun _ h => h.elim

/-! ## the primitive readers -/

theorem sound_hasError : Sound (σ := σ) p buf d (fun _ => True) Traced.hasError Reader.hasError :=
  .still Cursor.error (fun _ => trivial) (fun _ _ => rfl) fun _ _ => rfl

theorem sound_get : Sound (σ := σ) p buf d (fun _ => True) Traced.get Reader.get :=
  fun _ _ hc hd =>
    ⟨⟨fun _ he => absurd he not_mem_nil, hc, rfl, rfl, hd⟩, trivial, rfl⟩

theorem sound_set (s : σ) : Sound p buf d (fun _ => True) (Traced.set s) (Reader.set s) :=
  fun _ _ hc hd =>
    ⟨⟨fun _ he => absurd he not_mem_nil, hc, rfl, rfl, hd⟩, trivial, rfl⟩

theorem sound_overrun : Sound (σ := σ) p buf d (fun _ => True) Traced.overrun Reader.overrun :=
  fun _ _ hc hd =>
    ⟨⟨fun _ he => absurd he not_mem_nil, hc, rfl, rfl, hd⟩, trivial, rfl⟩

theorem Sound.allot {kind : ι} {n : Nat} (hfits : ∀ left, p.fits kind n left)
    (h : Sound p buf d Q m m') : Sound p buf d Q (Traced.allot kind n >>= fun _ => m) m' := by
  intro c s hc hd
  obtain ⟨hkept, hagree⟩ := h c s hc hd
  refine ⟨⟨fun e he => ?_, hkept.inside, hkept.base, hkept.size, hkept.depth⟩, hagree⟩
  rcases mem_cons.mp he with rfl | he
  · exact hfits _
  · exact hkept.events e he

theorem Sound.checked {kind : ι} {n : Nat} {P : Nat → Prop} [DecidablePred P] {f : Traced ι σ α}
    {f' : Reader σ α} (hfits : ∀ left, ¬ P left → p.fits kind n left) (hm : Sound p buf d Q m m')
    (hf : Sound p buf d Q f f') : Sound p buf d Q
      (Traced.remaining >>= fun left => if P left then m else Traced.allot kind n >>= fun _ => f)
      (Reader.remaining >>= fun left => if P left then m' else f') := by
  intro c s hc hd
  show Run.Kept p d buf c ((if P c.left then m else _) buf c s) ∧
    Run.Agrees buf Q ((if P c.left then m else _) buf c s)
      ((if P (c.input buf).rest.length then m' else _) (c.input buf) s)
  rw [hc.length_rest]
  by_cases hP : P c.left
  · rw [if_pos hP, if_pos hP]
    exact hm c s hc hd
  · rw [if_neg hP, if_neg hP]
    obtain ⟨hkept, hagree⟩ := hf c s hc hd
    refine ⟨⟨fun e he => ?_, hkept.inside, hkept.base, hkept.size, hkept.depth⟩, hagree⟩
    rcases mem_cons.mp he with rfl | he
    · exact hfits _ hP
    · exact hkept.events e he

theorem sound_bytes (n : Nat) :
    Sound (σ := σ) p buf d (fun bs => ∀ b ∈ bs, b.length = n) (Traced.bytes n) (Reader.bytes n) := by
  intro c s hc hd
  have hlen := hc.length_rest
  rw [Traced.bytes, Reader.bytes, hlen, show (c.input buf).error = c.error from rfl]
  by_cases herror : c.error
  · rw [if_pos herror, if_pos (Or.inl herror)]
    refine ⟨⟨fun _ he => absurd he not_mem_nil, hc, rfl, rfl, hd⟩, ?_, ?_⟩
    · intro b hb
      cases hb
    · simp only [Cursor.input, herror]
  rw [if_neg herror]
  by_cases hleft : c.left < n
  · rw [if_pos hleft, if_pos (Or.inr hleft)]
    refine ⟨⟨fun _ he => absurd he not_mem_nil, hc, rfl, rfl, hd⟩, ?_, rfl⟩
    intro b hb
    cases hb
  have hok : ¬ (c.error = true ∨ c.left < n) := not_or.mpr ⟨herror, hleft⟩
  rw [if_neg hleft, if_neg hok]
  have hn : n ≤ c.size - c.pos := Nat.le_of_not_lt hleft
  have hpos := hc.1
  have hsize := hc.2
  refine ⟨⟨?_, ⟨?_, hsize⟩, rfl, rfl, hd⟩, ?_, ?_⟩
  · intro e he
    by_cases hzero : n = 0
    · rw [if_pos hzero] at he
      exact absurd he not_mem_nil
    · rw [if_neg hzero] at he
      obtain rfl := mem_singleton.mp he
      refine ⟨Nat.le_add_right _ _, ?_, ?_⟩
      · omega
      · omega
  · show c.pos + n ≤ c.size
    omega
  · intro b hb
    obtain rfl := Option.some.inj hb
    rw [length_take, length_drop]
    omega
  · have htake : (c.input buf).rest.take n = (buf.drop (c.base + c.pos)).take n := by
      rw [Cursor.input, Cursor.left, take_take, Nat.min_eq_left hn]
    have hdrop : (c.input buf).rest.drop n
        = (buf.drop (c.base + (c.pos + n))).take (c.size - (c.pos + n)) := by
      rw [Cursor.input, Cursor.left, drop_take, drop_drop, Nat.sub_sub, Nat.add_assoc]
    rw [htake, hdrop]
    rfl

theorem sound_number (n : Nat) :
    Sound (σ := σ) p buf d (fun _ => True) (Traced.number n) (Reader.number n) :=
  .bind (sound_bytes n) fun _ _ => .pure trivial

theorem Sound.stops {P : Prop} [Decidable P] {stop : Traced ι σ α} (hP : ¬ P)
    (hstop : ∀ c s, Cursor.Inside buf c → c.depth = d → c.error = true → (stop buf c s).Kept p d buf
      c ∧ (stop buf c s).Agrees buf Q (m' (c.input buf) s)) (h : Sound p buf d Q m m') :
    Sound p buf d Q (Traced.hasError >>= fun e => if e = true ∨ P then stop else m) m' := by
  intro c s hc hd
  show Run.Kept p d buf c ((if c.error = true ∨ P then stop else m) buf c s) ∧
    Run.Agrees buf Q ((if c.error = true ∨ P then stop else m) buf c s) _
  by_cases herror : c.error = true
  · rw [if_pos (Or.inl herror)]
    exact hstop c s hc hd herror
  · rw [if_neg (not_or.mpr ⟨herror, hP⟩)]
    exact h c s hc hd

theorem sound_groups {fuel rounds : Nat} (hrounds : rounds ≤ 10) (hfuel : rounds < fuel)
    (result : Nat) :
    Sound (σ := σ) p buf d (fun _ => True) (Traced.groups fuel (7 * (10 - rounds)) result)
      (Reader.groups rounds (7 * (10 - rounds)) result) := by
  obtain ⟨fuel, rfl⟩ := Nat.exists_eq_succ_of_ne_zero (Nat.ne_zero_of_lt hfuel)
  induction rounds generalizing fuel result with
  | zero =>
    -- the ten rounds are over
    have hsteps : Reader.groups (σ := σ) 0 (7 * (10 - 0)) result
        = Reader.hasError >>= fun _ => Reader.groups 0 (7 * (10 - 0)) result := rfl
    rw [hsteps, Traced.groups]
    refine .bind sound_hasError fun _ _ => ?_
    rw [if_pos (Or.inr (by decide))]
    exact .bind sound_overrun fun _ _ => .pure trivial
  | succ rounds ih =>
    obtain ⟨fuel, rfl⟩ := Nat.exists_eq_succ_of_ne_zero (n := fuel) (by omega)
    rw [Traced.groups, Reader.groups]
    refine .stops (by omega) (fun c s hc hd herror => ?_) ?_
    · refine ⟨⟨fun _ he => absurd he not_mem_nil, hc, rfl, rfl, hd⟩, trivial, ?_⟩
      have hnone : Reader.bytes 1 (c.input buf) s = (some none, { c.input buf with error := true }, s) :=
        if_pos (Or.inl herror)
      show Reader.bind (Reader.bind (Reader.bytes 1) _) _ (c.input buf) s = _
      rw [Reader.bind, Reader.bind, hnone]
      rfl
    · refine .bind (sound_number 1) fun byte _ => .bind sound_hasError fun e _ => ?_
      refine .ite (fun _ => .pure trivial) fun _ => ?_
      refine .ite (fun _ => .pure trivial) fun _ => ?_
      have hshift : 7 * (10 - (rounds + 1)) + 7 = 7 * (10 - rounds) := by omega
      rw [hshift]
      exact ih (by omega) _ _ (by omega)

theorem sound_times (h : Sound p buf d Q m m') (n : Nat) :
    Sound p buf d (fun as => as.length = n ∧ ∀ a ∈ as, Q a) (Traced.times m n) (Reader.times m' n) := by
  induction n with
  | zero => exact .pure ⟨rfl, fun _ ha => absurd ha not_mem_nil⟩
  | succ n ih =>
    refine .bind h fun a ha => .bind ih fun as has => .pure ⟨?_, ?_⟩
    · rw [length_cons, has.1]
    · exact forall_mem_cons.mpr ⟨ha, has.2⟩

theorem Sound.nested_deep {deep : Traced ι σ α} {deep' : Reader σ α} (hd : p.limit ≤ d)
    (h : Sound p buf d Q deep deep') :
    Sound p buf d Q (Traced.nested p.limit deep m) (Reader.overrun >>= fun _ => deep') := by
  intro c s hc hdepth
  rw [Traced.nested, if_pos (hdepth ▸ hd)]
  obtain ⟨hkept, hagree⟩ := h { c with error := true, tooDeep := true } s hc hdepth
  exact ⟨⟨hkept.events, hkept.inside, hkept.base, hkept.size, hkept.depth⟩, hagree⟩

theorem Sound.nested {Q : α → Prop} {deep m : Traced ι σ α} {m' : Reader σ α} (hd : d < p.limit)
    (h : Sound p buf (d + 1) Q m m') : Sound p buf d Q (Traced.nested p.limit deep m) m' := by
  intro c s hc hdepth
  subst hdepth
  rw [Traced.nested, if_neg (Nat.not_le.mpr hd)]
  obtain ⟨hkept, hagree⟩ := h { c with depth := c.depth + 1 } s hc rfl
  refine ⟨⟨fun e he => ?_, hkept.inside, hkept.base, hkept.size, ?_⟩, hagree⟩
  · rcases mem_cons.mp he with rfl | he
    · exact hd
    · exact hkept.events e he
  · show Cursor.depth _ - 1 = _
    rw [hkept.depth, Nat.add_sub_cancel]

theorem Sound.inPart {base size : Nat} (hpart : size = 0 ∨ base + size ≤ buf.length)
    (h : Sound p buf 0 Q m m') :
    Sound p buf d Q (Traced.inPart base size m) fun c s =>
      match m' { rest := (buf.drop base).take size } s with
      | (a, _, s) => (a, c, s) := by
  intro c s hc hd
  obtain ⟨hkept, hagree⟩ := h { base := base, size := size } s ⟨Nat.zero_le _, hpart⟩ rfl
  refine ⟨⟨hkept.events, hc, rfl, rfl, hd⟩, ?_⟩
  show Run.Agrees buf Q { m buf { base := base, size := size } s with cursor := c }
    (match m' { rest := (buf.drop base).take size } s with
      | (a, _, s) => (a, c.input buf, s))
  have hinput : Cursor.input buf { base := base, size := size }
      = { rest := (buf.drop base).take size } := rfl
  rw [hinput] at hagree
  generalize m' { rest := (buf.drop base).take size } s = o at hagree ⊢
  unfold Run.Agrees at hagree ⊢
  dsimp only
  split at hagree
  · obtain ⟨hQ, rfl⟩ := hagree
    exact ⟨hQ, rfl⟩
  · exact hagree
  · exact hagree

end

end Wire
