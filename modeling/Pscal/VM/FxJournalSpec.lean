import Pscal.Cache.ValuesSpec
import Pscal.VM.FxJournal

/-!
# What the journal brings back

* `Brings`  a reader of the journal that leaves the memory as it is;
* `RecordedCall.Storable`, `SameCall`  what a record can hold, and when two calls are the same;
* `ArgLeft`  an argument leads to what the recorded call left;
* `reads_replayRun`  every call of a second run gets back what the first run left;
* `replayCall_mismatch`  another call fails, and no argument is changed;
* `journal_whole`  the records of concurrent callers are whole.
-/

namespace Pscal

open List

namespace Fx

open Wire Wire.Reader

section
variable {σ κ α β : Type} {ops : CodecOps σ κ}

/-! ## frames -/

/-- in every state the reader gives `a`, and leaves the memory as it is -/
def Brings (m : FxReader σ κ α) (bs : Bytes) (a : α) : Prop :=
  ∀ s mem, ∃ t, Reads m bs (s, mem) a (t, mem)

variable {a : α} {bs : Bytes} {m : FxReader σ κ α} {v : CacheValue κ} {args : List FxArg}
  {ws : List (Nat × FxWriteback κ)}

theorem Brings.of_reads (h : ∀ s, Reads m bs s a s) : Brings m bs a :=
  fun s mem => ⟨s, h (s, mem)⟩

theorem Brings.bind {f : α → FxReader σ κ β} {bs' : Bytes} {b : β} (h : Brings m bs a)
    (h' : Brings (f a) bs' b) : Brings (m >>= f) (bs ++ bs') b := by
  intro s mem
  obtain ⟨t, hm⟩ := h s mem
  obtain ⟨t', hf⟩ := h' t mem
  exact ⟨t', hm.bind hf⟩

theorem Brings.last {f : α → FxReader σ κ β} {b : β} (h : Brings m bs a) (h' : Brings (f a) [] b) :
    Brings (m >>= f) bs b := by
  have h'' := Brings.bind h h'
  rwa [append_nil] at h''

theorem Brings.pure (a : α) : Brings (σ := σ) (κ := κ) (Pure.pure a) [] a :=
  .of_reads (.pure a)

def FrameFits (ops : CodecOps σ κ) (v : CacheValue κ) : Prop :=
  v.Storable ops cacheMaxNesting ∧ ∃ bs, writeValue ops v = some bs ∧ bs.length ≤ fxFrameLimit

theorem brings_frame (h : FrameFits ops v) :
    ∃ v', SameValue ops v v' ∧ Brings (readValueFramed ops) (writeValueFramed ops v).flatten v' := by
  obtain ⟨hv, bs, hw, hlen⟩ := h
  obtain ⟨v', hsame, hread⟩ := readsBack_value cacheMaxNesting v bs hv hw
  refine ⟨v', hsame, fun s mem => ?_⟩
  obtain ⟨t, ht⟩ := hread s
  have hlimit : fxFrameLimit < 2 ^ 64 := by decide
  have hcount : (UInt64.ofNat bs.length).toNat = bs.length :=
    UInt64.toNat_ofNat_of_lt' (Nat.lt_of_le_of_lt hlen hlimit)
  refine ⟨t, ?_⟩
  have hframe : Reads (inFrame bs (readValue ops cacheMaxNesting)) [] (s, mem) v' (t, mem) := by
    intro rest
    have hbody := ht []
    rw [append_nil] at hbody
    rw [inFrame, hbody]
    rfl
  rw [writeValueFramed, hw]
  show Reads _ ((bufVarint (UInt64.ofNat bs.length) ++ bs) ++ []) _ _ _
  rw [append_nil]
  refine .bind (reads_curVarint _ _) (.then (reads_hasError _) ?_)
  rw [if_neg Bool.false_ne_true, hcount, if_neg (Nat.not_lt.mpr hlen)]
  exact .last (reads_bytes bs _) hframe

theorem sameValue_scalar {s : Scalar} (h : SameValue ops (.scalar s) v) : v = .scalar s := by
  cases h
  rfl

theorem brings_framedInt (ops : CodecOps σ κ) {type : IntType} {s : Scalar} (hs : s.type = type)
    (hfits : FrameFits ops (.scalar s)) :
    Brings (readFramedInt ops type) (writeValueFramed ops (.scalar s)).flatten s.value := by
  obtain ⟨v', hsame, hread⟩ := brings_frame hfits
  obtain rfl := sameValue_scalar hsame
  refine .last hread ?_
  rw [scalarOfType, if_pos hs]
  exact .pure _

theorem frameFits_scalar (s : Scalar) : FrameFits ops (.scalar s) := by
  refine ⟨trivial, _, rfl, ?_⟩
  have hpayload : (writeScalar s).length ≤ 8 := by
    rw [writeScalar]
    split
    · rw [bufU32LE, length_le]
      decide
    · rw [bufU64LE, length_le]
  rw [length_append, bufU32LE, length_le]
  exact Nat.le_trans (Nat.add_le_add_left hpayload 4) (by decide)

theorem brings_makeInt (ops : CodecOps σ κ) {n : Nat} (hn : n < 2 ^ 31) :
    Brings (readFramedInt ops .int32) (writeValueFramed ops (makeInt n)).flatten (n : Int) := by
  have hvalue : (Scalar.ofInt .int32 n).value = n := by
    simp only [Scalar.ofInt, IntType.store]
    exact Int.bmod_eq_of_le (by omega) (by omega)
  have h := brings_framedInt ops (s := Scalar.ofInt .int32 n) rfl (frameFits_scalar _)
  rwa [hvalue] at h

theorem brings_makeBoolean (ops : CodecOps σ κ) (b : Bool) :
    Brings (readFramedInt ops .boolean) (writeValueFramed ops (makeBoolean b)).flatten
      (if b then 1 else 0) := by
  have h := brings_framedInt ops (s := Scalar.ofInt .boolean (if b then 1 else 0)) rfl
    (frameFits_scalar _)
  cases b <;> exact h

theorem brings_makeString {text : CString} (h : FrameFits ops (makeString text)) :
    Brings (readFramedString ops) (writeValueFramed ops (makeString text)).flatten (some text) := by
  obtain ⟨v', hsame, hread⟩ := brings_frame h
  refine .last hread ?_
  cases hsame with
  | str hobj =>
    show Brings (Pure.pure _) [] (some text)
    rw [← hobj]
    exact .pure _

theorem brings_rawBlob {data : Bytes} (h : data.length ≤ fxFrameLimit) :
    Brings (σ := σ) (κ := κ) readRawBlob (writeRawBlob data).flatten data := by
  have hcount : (UInt32.ofNat data.length).toNat = data.length := by
    refine UInt32.toNat_ofNat_of_lt' (Nat.lt_of_le_of_lt h (by decide))
  have hflatten : (writeRawBlob data).flatten = bufU32LE (UInt32.ofNat data.length) ++ data := by
    rw [writeRawBlob]
    split
    · rename_i hempty
      rw [hempty]
      rfl
    · simp
  rw [hflatten]
  refine .bind (.of_reads (reads_curU32LE _)) ?_
  refine .of_reads fun s => .then (reads_hasError s) ?_
  rw [if_neg Bool.false_ne_true, hcount, if_neg (Nat.not_lt.mpr h)]
  exact .last (reads_bytes data s) (.pure _ s)

/-! ## what is written back -/

/-- what is in a cell or a stream that an argument leads to is what the recorded call left -/
structure ArgLeft (ops : CodecOps σ κ) (after mem : FxMemory κ) (arg : FxArg) : Prop where
  stream : ∀ ms, fxResolveMStreamArg after arg = some ms → mem.streams ms = after.streams ms
  cell : ∀ cell v, arg = .pointer cell → after.cells cell = .value v →
    ∃ v', mem.cells cell = .value v' ∧ SameValue ops v v'

/-- the memory streams that the arguments lead to after the recorded call are there -/
def StreamsLive (args : List FxArg) (after mem : FxMemory κ) : Prop :=
  ∀ arg ∈ args, ∀ ms, fxResolveMStreamArg after arg = some ms →
    fxResolveMStreamArg mem arg = some ms

/-- a writeback is one of an argument, and can be read back -/
inductive WbRecorded (ops : CodecOps σ κ) (args : List FxArg) (after : FxMemory κ) :
    Nat × FxWriteback κ → Prop where
  | generic {i cell : Nat} {v : CacheValue κ} (harg : args[i]? = some (.pointer cell))
      (hcell : after.cells cell = .value v) (hfits : FrameFits ops v) :
      WbRecorded ops args after (i, .generic v)
  | mstream {i ms : Nat} {arg : FxArg} (harg : args[i]? = some arg)
      (hms : fxResolveMStreamArg after arg = some ms)
      (hlen : (after.streams ms).length ≤ fxFrameLimit) :
      WbRecorded ops args after (i, .mstream (after.streams ms))

theorem fxArg_ofNat (args : List FxArg) (i : Nat) : fxArg args (i : Int) = args[i]? := by
  rw [fxArg, if_pos (Int.natCast_nonneg i), Int.toNat_natCast]

variable {after mem : FxMemory κ} {call : FxCall}

theorem resolve_setCell {cell : Nat} {v' : CacheValue κ} {arg : FxArg} {ms : Nat}
    (hcell : after.cells cell = .value v) (harg : fxResolveMStreamArg after arg = some ms)
    (hmem : fxResolveMStreamArg mem arg = some ms) :
    fxResolveMStreamArg (mem.setCell cell v') arg = some ms := by
  cases arg with
  | stream => exact hmem
  | other => cases hmem
  | pointer other =>
    have hne : other ≠ cell := by
      rintro rfl
      rw [fxResolveMStreamArg, hcell] at harg
      cases harg
    show FxCell.asStream (if other = cell then _ else _) = some ms
    rw [if_neg hne]
    exact hmem

/-- one writeback: the memory after it has what was recorded, and what was restored before -/
structure Restores (ops : CodecOps σ κ) (args : List FxArg) (after mem mem' : FxMemory κ) : Prop where
  live : StreamsLive args after mem'
  keeps : ∀ arg ∈ args, ArgLeft ops after mem arg → ArgLeft ops after mem' arg

theorem restores_setCell {cell : Nat} {v' : CacheValue κ} (hlive : StreamsLive args after mem)
    (hcell : after.cells cell = .value v) (hsame : SameValue ops v v') :
    Restores ops args after mem (mem.setCell cell v') where
  live arg harg ms hms := resolve_setCell hcell hms (hlive arg harg ms hms)
  keeps arg _ h := by
    refine ⟨h.stream, fun other w hother hw => ?_⟩
    show ∃ w', (if other = cell then FxCell.value v' else mem.cells other) = _ ∧ _
    by_cases heq : other = cell
    · subst heq
      rw [hcell] at hw
      obtain rfl := FxCell.value.inj hw
      exact ⟨v', if_pos rfl, hsame⟩
    · rw [if_neg heq]
      exact h.cell other w hother hw

theorem restores_setStream (ms : Nat) (hlive : StreamsLive args after mem) :
    Restores ops args after mem (mem.setStream ms (after.streams ms)) where
  live := hlive
  keeps arg _ h := by
    refine ⟨fun other hother => ?_, h.cell⟩
    show (if other = ms then after.streams ms else mem.streams other) = _
    by_cases heq : other = ms
    · rw [if_pos heq, heq]
    · rw [if_neg heq]
      exact h.stream other hother

theorem reads_writeback {w : Nat × FxWriteback κ} (hargs : args.length < 2 ^ 31)
    (hw : WbRecorded ops args after w) (hlive : StreamsLive args after mem) (s : σ) :
    ∃ t mem', Reads (readWriteback ops args) (writeWriteback ops w).flatten (s, mem) ()
        (t, mem') ∧
      Restores ops args after mem mem' ∧ ∀ arg, args[w.1]? = some arg → ArgLeft ops after mem' arg := by
  have hindex : w.1 < 2 ^ 31 := by
    cases hw with
    | generic harg => exact Nat.lt_trans (List.getElem?_eq_some_iff.mp harg).1 hargs
    | mstream harg => exact Nat.lt_trans (List.getElem?_eq_some_iff.mp harg).1 hargs
  obtain ⟨t₁, hidx⟩ := brings_makeInt ops hindex s mem
  have hkindLt : w.2.kind < 2 ^ 31 := by
    cases w.2 with
    | generic v => exact Nat.two_pow_pos 31
    | mstream contents => exact Nat.one_lt_two_pow (by decide)
  obtain ⟨t₂, hkind⟩ := brings_makeInt ops hkindLt t₁ mem
  rw [writeWriteback, flatten_append, flatten_append, append_assoc]
  cases hw with
  | @generic i cell v harg hcell hfits =>
    obtain ⟨v', hsame, hread⟩ := brings_frame hfits
    obtain ⟨t₃, hvalue⟩ := hread t₂ mem
    refine ⟨t₃, mem.setCell cell v', ?_, restores_setCell hlive hcell hsame, ?_⟩
    · refine hidx.bind (hkind.bind ?_)
      show Reads (if ((0 : Nat) : Int) = (1 : Nat) then _ else _) _ _ _ _
      rw [if_neg (by decide)]
      refine .last hvalue (.then (reads_get _) ?_)
      rw [fxArg_ofNat, harg]
      exact reads_set _ _
    · intro arg harg'
      rw [harg] at harg'
      obtain rfl := Option.some.inj harg'
      refine ⟨fun ms hms => ?_, fun other u hother hu => ?_⟩
      · rw [fxResolveMStreamArg, hcell] at hms
        cases hms
      · obtain rfl := FxArg.pointer.inj hother
        rw [hcell] at hu
        obtain rfl := FxCell.value.inj hu
        exact ⟨v', if_pos rfl, hsame⟩
  | @mstream i ms arg harg hms hlen =>
    have hresolve := hlive arg (mem_of_getElem? harg) ms hms
    obtain ⟨t₃, hblob⟩ := brings_rawBlob (σ := σ) (κ := κ) hlen t₂ mem
    refine ⟨t₃, mem.setStream ms (after.streams ms), ?_, restores_setStream ms hlive, ?_⟩
    · refine hidx.bind (hkind.bind ?_)
      show Reads (if ((1 : Nat) : Int) = (1 : Nat) then _ else _) _ _ _ _
      rw [if_pos rfl]
      refine .last hblob (.then (reads_get _) ?_)
      rw [fxArg_ofNat, harg, Option.bind_some, hresolve]
      exact reads_set _ _
    · intro arg' harg'
      rw [harg] at harg'
      obtain rfl := Option.some.inj harg'
      refine ⟨fun other hother => ?_, fun cell v hcell hv => ?_⟩
      · rw [hms] at hother
        obtain rfl := Option.some.inj hother
        exact if_pos rfl
      · subst hcell
        rw [fxResolveMStreamArg, hv] at hms
        cases hms

theorem reads_writebacks (hargs : args.length < 2 ^ 31)
    (hws : ∀ w ∈ ws, WbRecorded ops args after w) (hlive : StreamsLive args after mem) (s : σ) :
    ∃ t mem' us, Reads (times (readWriteback ops args) ws.length)
        (ws.flatMap (writeWriteback ops)).flatten (s, mem) us (t, mem') ∧
      Restores ops args after mem mem' ∧
      ∀ w ∈ ws, ∀ arg, args[w.1]? = some arg → ArgLeft ops after mem' arg := by
  induction ws generalizing s mem with
  | nil =>
    exact ⟨s, mem, [], .pure _ _, ⟨hlive, fun _ _ h => h⟩, fun _ hw => absurd hw not_mem_nil⟩
  | cons w ws ih =>
    obtain ⟨hw, hws⟩ := forall_mem_cons.mp hws
    obtain ⟨t, mem', hread, hrestores, hleft⟩ := reads_writeback hargs hw hlive s
    obtain ⟨t', mem'', us, hreads, hrestores', hlefts⟩ := ih hws hrestores.live t
    refine ⟨t', mem'', () :: us, ?_, ⟨hrestores'.live, fun arg harg h =>
        hrestores'.keeps arg harg (hrestores.keeps arg harg h)⟩,
      forall_mem_cons.mpr ⟨fun arg harg => ?_, hlefts⟩⟩
    · rw [flatMap_cons, flatten_append]
      exact hread.bind (hreads.map _)
    · exact hrestores'.keeps arg (mem_of_getElem? harg) (hleft arg harg)

/-! ## which writebacks are made -/

/-- what the arguments lead to is within the limits of a record -/
structure ArgsFit (ops : CodecOps σ κ) (args : List FxArg) (after : FxMemory κ) : Prop where
  stream : ∀ arg ∈ args, ∀ ms, fxResolveMStreamArg after arg = some ms →
    (after.streams ms).length ≤ fxFrameLimit
  cell : ∀ cell v, .pointer cell ∈ args → after.cells cell = .value v →
    valueIsGenericSerializable ops v = true → FrameFits ops v

theorem fxWritebacks_cons {room i : Nat} {arg : FxArg} {args : List (FxArg × Nat)}
    (h : fxWritebacks ops after (room + 1) ((arg, i) :: args) = some ws) :
    (∃ ms rest, fxResolveMStreamArg after arg = some ms ∧
      fxWritebacks ops after room args = some rest ∧
      ws = (i, .mstream (after.streams ms)) :: rest) ∨
    (∃ cell v rest, arg = .pointer cell ∧ after.cells cell = .value v ∧
      valueIsGenericSerializable ops v = true ∧ fxWritebacks ops after room args = some rest ∧
      ws = (i, .generic v) :: rest) ∨
    ((∀ mem, ArgLeft ops after mem arg) ∧ fxWritebacks ops after (room + 1) args = some ws) := by
  unfold fxWritebacks at h
  cases hresolve : fxResolveMStreamArg after arg with
  | some ms =>
    rw [hresolve] at h
    obtain ⟨rest, hrest, hws⟩ := Option.bind_eq_some_iff.mp h
    exact .inl ⟨ms, rest, rfl, hrest, (Option.some.inj hws).symm⟩
  | none =>
    rw [hresolve] at h
    cases arg with
    | pointer cell =>
      cases hcell : after.cells cell with
      | stream ms =>
        simp only [hcell] at h
        cases h
      | value v =>
        simp only [hcell] at h
        by_cases hv : valueIsGenericSerializable ops v = true
        · rw [if_pos hv] at h
          obtain ⟨rest, hrest, hws⟩ := Option.bind_eq_some_iff.mp h
          exact .inr (.inl ⟨cell, v, rest, rfl, hcell, hv, hrest, (Option.some.inj hws).symm⟩)
        · rw [if_neg hv] at h
          cases h
    | stream ms =>
      refine .inr (.inr ⟨fun mem => ⟨fun ms' hms => ?_, fun _ _ hcell => nomatch hcell⟩, h⟩)
      rw [hresolve] at hms
      cases hms
    | other =>
      exact .inr (.inr ⟨fun mem => ⟨fun _ hms => (nomatch hms), fun _ _ hcell => (nomatch hcell)⟩, h⟩)

/-- The pre-pass, where the room suffices: each writeback can be read back, and an argument without
one leads to nothing. -/
theorem fxWritebacks_spec (hfit : ArgsFit ops args after) {l : List (FxArg × Nat)}
    (hl : ∀ p ∈ l, args[p.2]? = some p.1) {room : Nat} (hroom : l.length ≤ room)
    (h : fxWritebacks ops after room l = some ws) :
    (∀ w ∈ ws, WbRecorded ops args after w) ∧ ws.length ≤ l.length ∧
      ∀ p ∈ l, (∃ w ∈ ws, w.1 = p.2) ∨ ∀ mem, ArgLeft ops after mem p.1 := by
  induction l generalizing room ws with
  | nil =>
    have hws : ws = [] := by
      cases room <;> exact (Option.some.inj h).symm
    subst hws
    exact ⟨fun _ hw => absurd hw not_mem_nil, Nat.le_refl 0, fun _ hp => absurd hp not_mem_nil⟩
  | cons p l ih =>
    obtain ⟨harg, hargs⟩ := forall_mem_cons.mp hl
    obtain ⟨arg, i⟩ := p
    cases room with
    | zero => exact absurd hroom (Nat.not_succ_le_zero _)
    | succ room =>
      have hroom' : l.length ≤ room := Nat.le_of_succ_le_succ hroom
      rcases fxWritebacks_cons h with ⟨ms, rest, hms, hrest, rfl⟩ |
        ⟨cell, v, rest, rfl, hcell, hv, hrest, rfl⟩ | ⟨hleft, hrest⟩
      · obtain ⟨hrec, hlen, hcover⟩ := ih hargs hroom' hrest
        have hlen' := hfit.stream arg (mem_of_getElem? harg) ms hms
        refine ⟨forall_mem_cons.mpr ⟨.mstream harg hms hlen', hrec⟩, Nat.succ_le_succ hlen,
          forall_mem_cons.mpr ⟨.inl ⟨_, mem_cons_self, rfl⟩, fun p hp => ?_⟩⟩
        exact (hcover p hp).imp_left fun ⟨w, hw, hi⟩ => ⟨w, mem_cons_of_mem _ hw, hi⟩
      · obtain ⟨hrec, hlen, hcover⟩ := ih hargs hroom' hrest
        have hfits := hfit.cell cell v (mem_of_getElem? harg) hcell hv
        refine ⟨forall_mem_cons.mpr ⟨.generic harg hcell hfits, hrec⟩, Nat.succ_le_succ hlen,
          forall_mem_cons.mpr ⟨.inl ⟨_, mem_cons_self, rfl⟩, fun p hp => ?_⟩⟩
        exact (hcover p hp).imp_left fun ⟨w, hw, hi⟩ => ⟨w, mem_cons_of_mem _ hw, hi⟩
      · obtain ⟨hrec, hlen, hcover⟩ := ih hargs (Nat.le_succ_of_le hroom') hrest
        exact ⟨hrec, Nat.le_succ_of_le hlen, forall_mem_cons.mpr ⟨.inr hleft, hcover⟩⟩

/-! ## a call -/

structure RecordedCall.Fits (ops : CodecOps σ κ) (c : RecordedCall κ) : Prop where
  name : FrameFits ops (makeString c.call.name)
  count : c.call.args.length ≤ fxMaxWritebacks
  result : valueIsGenericSerializable ops c.result = true → FrameFits ops c.result
  args : ArgsFit ops c.call.args c.after

/-- whether the record has the result and what is written back -/
def RecordedCall.substitutable (ops : CodecOps σ κ) (c : RecordedCall κ) : Bool :=
  (fxSubstitutable ops c.call c.after (some c.result)).isSome

theorem fxMaxWritebacks_lt : fxMaxWritebacks < 2 ^ 31 := by decide

def recordHead (ops : CodecOps σ κ) (call : FxCall) : Bytes :=
  (writeValueFramed ops (makeString call.name)).flatten ++
    (writeValueFramed ops (makeInt call.args.length)).flatten

theorem brings_matchCall {call' : FxCall} (hname : FrameFits ops (makeString call.name))
    (hcount : call.args.length ≤ fxMaxWritebacks)
    (hsame : strcasecmp call.name.bytes call'.name.bytes = true) (hargs : call'.args = call.args) :
    Brings (matchCall ops call') (recordHead ops call) () := by
  refine .bind (brings_makeString hname) ?_
  refine .last (brings_makeInt ops (Nat.lt_of_le_of_lt hcount fxMaxWritebacks_lt)) ?_
  rw [if_neg]
  · exact .pure ()
  · rintro (h | h)
    · exact h hsame
    · exact h (by rw [hargs])

/-- **another call than the recorded one fails, and the memory stays as it is** -/
theorem matchCall_mismatch {call' : FxCall} (hname : FrameFits ops (makeString call.name))
    (hcount : call.args.length ≤ fxMaxWritebacks)
    (hother : strcasecmp call.name.bytes call'.name.bytes = false ∨ call.args.length ≠
      call'.args.length) (rest : Bytes) (s : σ) (mem : FxMemory κ) :
    ∃ c t, matchCall ops call' { rest := recordHead ops call ++ rest } (s, mem) =
      (none, c, (t, mem)) := by
  obtain ⟨t, hread⟩ := brings_makeString hname s mem
  obtain ⟨t', hread'⟩ := brings_makeInt ops (Nat.lt_of_le_of_lt hcount fxMaxWritebacks_lt) t mem
  refine ⟨{ rest := rest }, t', ?_⟩
  rw [matchCall, recordHead, append_assoc, hread.goesOn, hread'.goesOn, if_pos]
  · rfl
  · rcases hother with h | h
    · exact .inl fun hsame => Bool.false_ne_true (h.symm.trans hsame)
    · exact .inr fun hsame => h (Int.ofNat_inj.mp hsame)

theorem recordCall_head (ops : CodecOps σ κ) (call : FxCall) (after : FxMemory κ) (result : Option (CacheValue κ)) :
    ∃ bs, (recordCall ops call after result).flatten = recordHead ops call ++ bs := by
  rw [recordCall, flatten_append, flatten_append]
  exact ⟨_, rfl⟩

theorem brings_replayLive {c : RecordedCall κ} (hc : c.Fits ops)
    (hsame : strcasecmp c.call.name.bytes call.name.bytes = true) (hargs : call.args = c.call.args)
    (hlive : c.substitutable ops = false) :
    Brings (replayCall ops call) (recordCall ops c.call c.after (some c.result)).flatten none := by
  have hnone : fxSubstitutable ops c.call c.after (some c.result) = none :=
    Option.isNone_iff_eq_none.mp (Option.isSome_eq_false_iff.mp hlive)
  rw [recordCall, hnone, flatten_append, flatten_append]
  refine .bind (brings_matchCall hc.name hc.count hsame hargs) ?_
  refine .last (brings_makeBoolean ops false) ?_
  exact .pure none

theorem reads_replaySubstituted {c : RecordedCall κ} (hc : c.Fits ops)
    (hsame : strcasecmp c.call.name.bytes call.name.bytes = true) (hargs : call.args = c.call.args)
    (hlive : StreamsLive c.call.args c.after mem) (hsub : c.substitutable ops = true) (s : σ) :
    ∃ t mem' result, Reads (replayCall ops call)
        (recordCall ops c.call c.after (some c.result)).flatten (s, mem) (some result) (t, mem') ∧
      SameValue ops c.result result ∧ ∀ arg ∈ c.call.args, ArgLeft ops c.after mem' arg := by
  obtain ⟨ws, hws⟩ := Option.isSome_iff_exists.mp hsub
  have hresult : valueIsGenericSerializable ops c.result = true := by
    by_contra hnot
    rw [fxSubstitutable, if_neg (by exact hnot)] at hws
    cases hws
  have hpass : fxWritebacks ops c.after fxMaxWritebacks c.call.args.zipIdx = some ws := by
    rwa [fxSubstitutable, if_pos (by exact hresult)] at hws
  obtain ⟨hrec, hlen, hcover⟩ := fxWritebacks_spec hc.args
    (fun p hp => mem_zipIdx_iff_getElem?.mp hp)
    (by rw [length_zipIdx]; exact hc.count) hpass
  rw [length_zipIdx] at hlen
  have hcount : c.call.args.length < 2 ^ 31 := Nat.lt_of_le_of_lt hc.count fxMaxWritebacks_lt
  -- the parts of the record, one after the other
  obtain ⟨t₁, hhead⟩ := brings_matchCall hc.name hc.count hsame hargs s mem
  obtain ⟨t₂, hflag⟩ := brings_makeBoolean ops true t₁ mem
  obtain ⟨t₃, hpresent⟩ := brings_makeBoolean ops true t₂ mem
  obtain ⟨result, hsameResult, hbrings⟩ := brings_frame (hc.result hresult)
  obtain ⟨t₄, hvalue⟩ := hbrings t₃ mem
  obtain ⟨t₅, hnum⟩ := brings_makeInt ops (Nat.lt_of_le_of_lt hlen hcount) t₄ mem
  obtain ⟨t₆, mem', us, hwritebacks, -, hleft⟩ := reads_writebacks hcount hrec hlive t₅
  refine ⟨t₆, mem', result, ?_, hsameResult, fun arg harg => ?_⟩
  · rw [recordCall, hws]
    simp only [flatten_append, append_assoc]
    rw [← append_assoc]
    refine hhead.bind (hflag.bind ?_)
    rw [if_neg (by decide)]
    refine hpresent.bind ?_
    refine .bind (a := result) hvalue (hnum.bind ?_)
    rw [hargs, Int.toNat_natCast]
    exact hwritebacks.map fun _ => some result
  · obtain ⟨i, hi⟩ := mem_iff_getElem?.mp harg
    rcases hcover (arg, i) (mem_zipIdx_iff_getElem?.mpr hi) with ⟨w, hw, rfl⟩ | hnothing
    · exact hleft w hw arg hi
    · exact hnothing mem'

/-! ## a run -/

/-- a call of the second run is that of the first one, and the streams that are written are there -/
structure SameCall (c : RecordedCall κ) (d : ReplayedCall κ) : Prop where
  id : d.id = c.id
  name : strcasecmp c.call.name.bytes d.call.name.bytes = true
  args : d.call.args = c.call.args
  live : StreamsLive c.call.args c.after d.before

/-- what a call of the second run gives -/
def Replays (ops : CodecOps σ κ) (isJournaled : Nat → Bool) (c : RecordedCall κ)
    (d : ReplayedCall κ) (o : FxOutcome κ) : Prop :=
  if isJournaled c.id = true ∧ c.substitutable ops = true then
    o.replayed = true ∧ SameValue ops c.result o.result ∧
      ∀ arg ∈ c.call.args, ArgLeft ops c.after o.after arg
  else
    o = d.invoke

section
variable {isJournaled : Nat → Bool} {c : RecordedCall κ} {d : ReplayedCall κ}

theorem reads_replayStep (hsame : SameCall c d) (hfits : isJournaled c.id = true → c.Fits ops)
    (s : σ) (mem : FxMemory κ) : ∃ t mem' o, Reads (replayStep ops isJournaled d)
        (if isJournaled c.id then (recordCall ops c.call c.after (some c.result)).flatten else [])
        (s, mem) o (t, mem') ∧ Replays ops isJournaled c d o := by
  by_cases hj : isJournaled c.id = true
  · rw [if_pos hj]
    have hc := hfits hj
    have hstep : ∀ {r : Option (CacheValue κ)} {t : σ} {mem' : FxMemory κ},
        Reads (replayCall ops d.call) (recordCall ops c.call c.after (some c.result)).flatten
          (s, d.before) r (t, mem') →
        Reads (replayStep ops isJournaled d)
          (recordCall ops c.call c.after (some c.result)).flatten (s, mem)
          (r.elim d.invoke fun result => { replayed := true, result := result, after := mem' })
          (t, mem') := by
      intro r t mem' hread
      refine .then (reads_get _) (.then (reads_set _ _) ?_)
      rw [hsame.id, if_pos hj]
      refine .last hread ?_
      cases r with
      | none => exact .pure _ _
      | some result => exact .then (reads_get _) (.pure _ _)
    cases hsub : c.substitutable ops with
    | false =>
      obtain ⟨t, hread⟩ := brings_replayLive hc hsame.name hsame.args hsub s d.before
      refine ⟨t, d.before, d.invoke, hstep hread, ?_⟩
      rw [Replays, if_neg fun h => Bool.false_ne_true (hsub.symm.trans h.2)]
    | true =>
      obtain ⟨t, mem', result, hread, hresult, hleft⟩ :=
        reads_replaySubstituted hc hsame.name hsame.args hsame.live hsub s
      refine ⟨t, mem', _, hstep hread, ?_⟩
      rw [Replays, if_pos ⟨hj, hsub⟩]
      exact ⟨rfl, hresult, hleft⟩
  · rw [if_neg hj]
    refine ⟨s, d.before, d.invoke, ?_, ?_⟩
    · refine .then (reads_get _) (.then (reads_set _ _) ?_)
      rw [hsame.id, if_neg hj]
      exact .pure _ _
    · rw [Replays, if_neg fun h => hj h.1]

theorem reads_replayRun {cs : List (RecordedCall κ)} {ds : List (ReplayedCall κ)}
    (hsame : Forall₂ SameCall cs ds)
    (hfits : ∀ c ∈ cs, isJournaled c.id = true → c.Fits ops) (s : σ) (mem : FxMemory κ) :
    ∃ t mem' os, Reads (replayRun ops isJournaled ds) (recordRun ops isJournaled cs) (s, mem) os
        (t, mem') ∧
      Forall₂ (fun p o => Replays ops isJournaled p.1 p.2 o) (cs.zip ds) os := by
  induction hsame generalizing s mem with
  | nil => exact ⟨s, mem, [], .pure _ _, .nil⟩
  | cons hcall _ ih =>
    obtain ⟨hc, hcs⟩ := forall_mem_cons.mp hfits
    obtain ⟨t, mem', o, hread, ho⟩ := reads_replayStep hcall hc s mem
    obtain ⟨t', mem'', os, hreads, hos⟩ := ih hcs t mem'
    exact ⟨t', mem'', o :: os, hread.bind (hreads.map _), .cons ho hos⟩

/-- **after calls that match, another call than the next record's ends the run** -/
theorem replayRun_mismatch {cs : List (RecordedCall κ)} {ds : List (ReplayedCall κ)}
    (hsame : Forall₂ SameCall cs ds)
    (hfits : ∀ c ∈ cs, isJournaled c.id = true → c.Fits ops) (hd : isJournaled d.id = true)
    {call : FxCall} (hname : FrameFits ops (makeString call.name))
    (hcount : call.args.length ≤ fxMaxWritebacks)
    (hother : strcasecmp call.name.bytes d.call.name.bytes = false ∨
      call.args.length ≠ d.call.args.length) (after : FxMemory κ) (result : Option (CacheValue κ))
    (ds' : List (ReplayedCall κ)) (rest : Bytes) (s : σ) (mem : FxMemory κ) :
    ∃ inp t, replayRun ops isJournaled (ds ++ d :: ds')
      { rest := recordRun ops isJournaled cs ++
          ((recordCall ops call after result).flatten ++ rest) } (s, mem) =
      (none, inp, (t, d.before)) := by
  induction hsame generalizing s mem with
  | nil =>
    obtain ⟨bs, hbs⟩ := recordCall_head ops call after result
    obtain ⟨inp, t, hfail⟩ := matchCall_mismatch hname hcount hother (bs ++ rest) s d.before
    refine ⟨inp, t, ?_⟩
    have hstep : replayStep ops isJournaled d { rest := recordHead ops call ++ (bs ++ rest) }
        (s, mem) = (none, inp, (t, d.before)) := by
      rw [replayStep, get_bind, set_bind, if_pos hd]
      exact fails_bind (fails_bind hfail _) _
    rw [hbs, append_assoc, recordRun, flatMap_nil, nil_append, nil_append, replayRun]
    exact fails_bind hstep _
  | cons hcall _ ih =>
    obtain ⟨hc, hcs⟩ := forall_mem_cons.mp hfits
    obtain ⟨t, mem', o, hread, -⟩ := reads_replayStep hcall hc s mem
    obtain ⟨inp, t', hfail⟩ := ih hcs t mem'
    refine ⟨inp, t', ?_⟩
    rw [recordRun, flatMap_cons, append_assoc, cons_append, replayRun, hread.goesOn]
    exact fails_bind hfail _

end

end

/-! ## the gate -/

/-- what `pscalFxReplayCall` reports of the reader's end -/
def replayOutcome {κ : Type} : Option (Option (CacheValue κ)) → FxReplayOutcome
  | none => .mismatch
  | some none => .runLive
  | some (some _) => .substituted

/-- **a call that is not denied meets the journal as `replayStep` has it** -/
theorem vmApplyFxPolicy_replaying {κ : Type} {ss : Session} {kind : FrontendKind}
    {cli : EffectMask} {id : Nat} (hreplaying : ss.replaying = true)
    (hdenies : fxDenies ss kind cli id = false) (outcome : Option (Option (CacheValue κ))) :
    vmApplyFxPolicy ss kind cli id (replayOutcome outcome) =
      if journaled ss.registry kind id = true then
        match outcome with
        | none => .error
        | some none => .invoke
        | some (some _) => .substituted
      else .invoke := by
  have hactive : ¬ pscalFxPolicyActive ss cli = false := by
    intro h
    exact of_decide_eq_false h (.inr (.inr hreplaying))
  unfold vmApplyFxPolicy
  rw [if_neg hactive, if_pos hreplaying]
  by_cases hpure : getVmBuiltinEffectMaskById ss.registry kind id = fxPure
  · rw [if_pos hpure, if_neg]
    exact fun hj => (of_decide_eq_true hj).1 hpure
  rw [if_neg hpure, if_neg (by rw [hdenies]; exact Bool.false_ne_true)]
  by_cases hexempt : pscalFxBuiltinIsJournalExempt (getVmBuiltinNameById ss.registry id) = true
  · rw [if_pos hexempt, if_neg]
    intro hj
    exact Bool.false_ne_true ((of_decide_eq_true hj).2.symm.trans hexempt)
  · have hj : journaled ss.registry kind id = true :=
      decide_eq_true ⟨hpure, Bool.eq_false_iff.mpr hexempt⟩
    rw [if_neg hexempt, if_pos hj]
    cases outcome with
    | none => rfl
    | some result => cases result <;> rfl

/-! ## concurrent callers -/

/-- **The records are whole.**  The file has the records of the callers in the order in which they
got the lock, but for what the one that holds it still writes. -/
theorem journal_whole {head : Bytes} {tr : List JournalEvent} {s : JournalState}
    (h : Transitions.Run JournalStep { file := head, holder := none } tr s) :
    s.file ++ (s.holder.elim [] Prod.snd).flatten =
      head ++ ((lockedRecords tr).map flatten).flatten := by
  refine Transitions.Run.invariant
    (I := fun tr s => s.file ++ (s.holder.elim [] Prod.snd).flatten =
      head ++ ((lockedRecords tr).map flatten).flatten) rfl ?_ h
  intro tr s e s' hI hstep
  rw [lockedRecords, filterMap_append, map_append, flatten_append,
    ← append_assoc, ← lockedRecords, ← hI]
  cases hstep with
  | lock file caller pieces =>
    show file ++ pieces.flatten = file ++ [] ++ (pieces.flatten ++ [])
    rw [append_nil, append_nil]
  | write file caller piece pieces =>
    show file ++ piece ++ pieces.flatten = file ++ (piece :: pieces).flatten ++ []
    rw [append_nil, flatten_cons, append_assoc]
  | unlock file caller => exact (append_nil _).symm

/-! ## record and replay -/

theorem kEffectClassifiedNames_impure : ∀ e ∈ kEffectClassifiedNames, e.2 ≠ fxPure := by
  decide +kernel

theorem strcasecmp_self (n : Name) : strcasecmp n n = true := decide_eq_true rfl

theorem effectMask_classified {s : String} {mask : EffectMask}
    (he : (s, mask) ∈ kEffectClassifiedNames) : pscalBuiltinNameEffectMask (cName s) ≠ fxPure := by
  have hany : (kEffectClassifiedNames.find? fun e => strcasecmp (cName e.1) (cName s)).isSome :=
    find?_isSome.mpr ⟨(s, mask), he, strcasecmp_self (cName s)⟩
  obtain ⟨found, hfound⟩ := Option.isSome_iff_exists.mp hany
  rw [pscalBuiltinNameEffectMask, hfound]
  exact kEffectClassifiedNames_impure found (mem_of_find?_eq_some hfound)

theorem journaled_classified {r : Registry} {kind : FrontendKind} {id : Nat}
    {m : VmBuiltinMapping} {s : String} {mask : EffectMask}
    (hview : shellViewOfId r kind id = .none) (hoverride : r.effectOverrides id = none)
    (hid : id < r.numVmBuiltins) (hm : r.mappings[id]? = some m) (hname : m.name = cName s)
    (he : (s, mask) ∈ kEffectClassifiedNames)
    (hexempt : pscalFxBuiltinIsJournalExempt (some m.name) = false) :
    journaled r kind id = true := by
  have hmask : getVmBuiltinEffectMaskById r kind id = pscalBuiltinNameEffectMask (cName s) := by
    rw [getVmBuiltinEffectMaskById, hview, if_neg (by decide), effectMaskByIdAsRegistered,
      hoverride, ← hname]
    simp only [hid, hm, if_true]
  have hbyId : getVmBuiltinNameById r id = some m.name := congrArg (Option.map _) hm
  refine decide_eq_true ⟨?_, by rw [hbyId, hexempt]⟩
  rw [hmask]
  exact effectMask_classified he

/-! ## two calls -/

def journalRegistry : Registry :=
  registered [(cName "gettime", some 1), (cName "httprequest", some 2)] []

def httpRequestCall : FxCall where
  name := { bytes := cName "httprequest", noNul := by decide }
  args := [.other, .other, .other, .other, .stream (some 0)]

def httpRequestRecorded : RecordedCall Unit where
  id := 1
  call := httpRequestCall
  result := makeInt 200
  after := { cells := fun _ => .stream none, streams := fun _ => [72, 105] }

def httpRequestReplayed : ReplayedCall Unit where
  id := 1
  call := httpRequestCall
  before := { cells := fun _ => .stream none, streams := fun _ => [] }
  live := (makeInt 503, { cells := fun _ => .stream none, streams := fun _ => [63] })

theorem httpRequestRecorded_fits : httpRequestRecorded.Fits wideLongDouble where
  name := ⟨fun buf hbuf => by obtain rfl := Option.some.inj hbuf; decide, _, rfl, by decide⟩
  count := by decide
  result _ := frameFits_scalar _
  args := {
    stream := fun _ _ _ _ => show 2 ≤ fxFrameLimit by decide
    cell := fun cell v harg _ _ => by
      simp [httpRequestRecorded, httpRequestCall] at harg }

def getTimeCall : FxCall where
  name := { bytes := cName "gettime", noNul := by decide }
  args := [.pointer 0, .pointer 1, .pointer 2, .pointer 3]

def clockCells (hour : Nat) : FxMemory Unit where
  cells := fun i => .value (makeInt (if i = 0 then hour else 0))
  streams := fun _ => []

def getTimeRecorded : RecordedCall Unit where
  id := 0
  call := getTimeCall
  result := .void
  after := clockCells 9

def getTimeReplayed : ReplayedCall Unit where
  id := 0
  call := getTimeCall
  before := clockCells 0
  live := (.void, clockCells 17)

theorem getTimeRecorded_fits : getTimeRecorded.Fits wideLongDouble where
  name := ⟨fun buf hbuf => by obtain rfl := Option.some.inj hbuf; decide, _, rfl, by decide⟩
  count := by decide
  result h := nomatch h
  args := {
    stream := fun _ _ _ _ => Nat.zero_le _
    cell := fun cell v _ hcell _ => by
      obtain rfl := FxCell.value.inj hcell
      exact frameFits_scalar _ }

end Fx

end Pscal
