import Pscal.Cache.Sections
import Pscal.Cache.ValuesSpec

/-!
# The sections are read back

* `readsBack_codeSection` … `reads_typesSection`  each section, after it was written;
* `CachedChunk.Storable`, `SameChunk`  which chunks are stored, and what they come back as;
* `readsBack_chunkCore`  all the sections of a shell function, one after the other.
-/

namespace Pscal

open Wire Wire.Reader List Option

/-! ## signed numbers -/

theorem sshiftRight_sign (x : BitVec 64) :
    x.sshiftRight 63 = if x.msb then BitVec.allOnes 64 else 0#64 := by
  ext i hi
  rw [BitVec.getElem_sshiftRight]
  by_cases h0 : i = 0
  · subst h0
    cases hm : x.msb with
    | false => simpa [BitVec.msb_eq_getLsbD_last] using hm
    | true => simpa [BitVec.msb_eq_getLsbD_last] using hm
  · rw [dif_neg (by omega)]
    cases x.msb with
    | false => simp
    | true => rw [if_pos rfl, BitVec.getElem_allOnes]

theorem unzigzag_zigzag (x : BitVec 64) :
    (x <<< 1 ^^^ x.sshiftRight 63) >>> 1 ^^^ -((x <<< 1 ^^^ x.sshiftRight 63) &&& 1#64) = x := by
  have hlow : ∀ m : BitVec 64, (x <<< 1 ^^^ m) &&& 1#64 = m &&& 1#64 := by
    intro m
    ext i hi
    by_cases h0 : i = 0 <;> simp [h0]
  have hmask : ∀ b : Bool, -((if b then BitVec.allOnes 64 else 0#64) &&& 1#64)
      = if b then BitVec.allOnes 64 else 0#64 := by decide
  have hsign : x.msb = x.getLsbD 63 := BitVec.msb_eq_getLsbD_last x
  rw [hlow, sshiftRight_sign, hmask]
  ext i hi
  rw [BitVec.getElem_xor, BitVec.getElem_ushiftRight, BitVec.getLsbD_xor, BitVec.getLsbD_shiftLeft]
  by_cases h : i = 63
  · subst h
    cases hm : x.msb with
    | false => simp [← BitVec.getLsbD_eq_getElem, ← hsign, hm]
    | true => simp [← BitVec.getLsbD_eq_getElem, ← hsign, hm]
  · have hlt : 1 + i < 64 := by omega
    cases hm : x.msb with
    | false => simp [hlt, BitVec.getLsbD_eq_getElem hi]
    | true =>
      rw [if_pos rfl, BitVec.getLsbD_allOnes, BitVec.getElem_allOnes]
      simp [hlt, BitVec.getLsbD_eq_getElem hi]

section
variable {σ κ : Type}

theorem reads_curSVarint (v : Int64) (s : σ) : Reads curSVarint (bufSVarint v) s v s := by
  have h := (reads_curVarint ((v <<< 1) ^^^ (v >>> 63)).toUInt64 s).map fun zigzag =>
    (zigzag >>> 1).toInt64 ^^^ -(zigzag &&& 1).toInt64
  have hv : ((((v <<< 1) ^^^ (v >>> 63)).toUInt64 >>> 1).toInt64 ^^^
      -(((v <<< 1) ^^^ (v >>> 63)).toUInt64 &&& 1).toInt64) = v := by
    apply Int64.toBitVec_inj.mp
    rw [Int64.toBitVec_xor, Int64.toBitVec_neg]
    simpa using unzigzag_zigzag v.toBitVec
  rwa [hv] at h

theorem toNat_ofNat64 {n : Nat} (h : n < 2 ^ 64) : (UInt64.ofNat n).toNat = n :=
  UInt64.toNat_ofNat_of_lt' h

theorem ofInt64_natCast (n : Nat) : UInt64.ofInt n = UInt64.ofNat n := by
  apply UInt64.toNat_inj.mp
  show (UInt64.ofNat ((n : Int) % 2 ^ 64).toNat).toNat = _
  rw [UInt64.toNat_ofNat', UInt64.toNat_ofNat']
  omega

/-! ## code and lines -/

variable {chunk : CachedChunk κ} {levels : Nat}

theorem readsBack_codeSection (hcode : chunk.code.length ≤ psb3MaxCodeBytes)
    (hnonneg : 0 ≤ chunk.cacheCount.toInt) (hcache : chunk.cacheCount.toInt ≤ psb3MaxCacheCount) :
    ReadsBack (σ := σ) readCodeSection (writeCodeSection chunk)
      (chunk.code, chunk.cacheCount) := by
  have hcap : psb3MaxCodeBytes < 2 ^ 31 := by decide
  have hcount : psb3MaxCacheCount < 2 ^ 31 := by decide
  have hlen : (UInt64.ofNat chunk.code.length).toNat = chunk.code.length :=
    toNat_ofNat64 (by omega)
  obtain ⟨n, hn⟩ := Int.eq_ofNat_of_zero_le hnonneg
  have hof : UInt64.ofInt chunk.cacheCount.toInt = UInt64.ofNat n := by
    rw [hn]
    exact ofInt64_natCast n
  have hn64 : (UInt64.ofNat n).toNat = n := toNat_ofNat64 (by omega)
  have hback : Int32.ofNat n = chunk.cacheCount := by
    apply Int32.toInt_inj.mp
    rw [toInt_ofNat (by omega), hn]
  rw [writeCodeSection, hof, append_assoc]
  refine .bind (Reads.back (reads_curVarint _)) (.then readsBack_hasError ?_)
  rw [if_neg (by rw [hlen]; simpa using hcode)]
  refine .bind (Reads.back (reads_curVarint _)) (.then readsBack_hasError ?_)
  rw [if_neg (by rw [hn64]; simpa using (by omega : n ≤ psb3MaxCacheCount)), hlen, hn64, hback]
  exact .last (Reads.back (reads_bytes chunk.code)) (.pure _)

/-- the runs after the first: the lines before `prevPc` are filled, those up to `pc` are all
`prevLine` -/
theorem reads_runs {count pc prevPc : Nat} {prevLine : Int32} {lines filled : List Int32}
    (hcount : count = pc + lines.length) (hlt : count < 2 ^ 31) (hfilled : filled.length = prevPc)
    (hle : prevPc ≤ pc) (s : σ) :
    Reads (readRuns count (runCount (some prevLine) lines) false prevPc prevLine filled)
      (writeRuns prevPc prevLine pc (some prevLine) lines) s
      (filled ++ replicate (pc - prevPc) prevLine ++ lines) s := by
  induction lines generalizing pc prevPc prevLine filled with
  | nil =>
    rw [append_nil, ← (show count = pc from hcount)]
    exact Reads.pure _ s
  | cons line lines ih =>
    rw [length_cons] at hcount
    by_cases hsame : prevLine = line
    · subst hsame
      rw [runCount, writeRuns, if_pos rfl, if_pos rfl, Nat.zero_add]
      have hpc : count = pc + 1 + lines.length := by omega
      have h := @ih (pc + 1) prevPc prevLine filled hpc hfilled (by omega)
      have hone : pc + 1 - prevPc = pc - prevPc + 1 := by omega
      rwa [hone, replicate_succ', ← append_assoc, append_assoc, singleton_append] at h
    · have hne : ¬ some prevLine = some line := fun h => hsame (some.inj h)
      have hdelta : (UInt64.ofNat (pc - prevPc)).toUInt32.toInt32.toInt = (pc - prevPc : Nat) := by
        rw [UInt64.toUInt32_ofNat', UInt32.toInt32_ofNat', toInt_ofNat (by omega)]
      have hpc : (prevPc : Int) + ((pc - prevPc : Nat) : Int) = pc := by omega
      have hline : (prevLine.toInt64 + (line.toInt64 - prevLine.toInt64)).toInt32 = line := by
        rw [Int64.add_comm, Int64.sub_add_cancel, Int32.toInt32_toInt64]
      have hcount' : count = pc + 1 + lines.length := by omega
      have hfilled' : (filled ++ replicate (pc - prevPc) prevLine).length = pc := by
        rw [length_append, hfilled, length_replicate]
        omega
      have h := @ih (pc + 1) pc line _ hcount' hfilled' (by omega)
      rw [runCount, writeRuns, if_neg hne, if_neg hne, Nat.add_comm 1, append_assoc]
      refine Reads.bind (reads_curVarint _ s) ?_
      refine Reads.bind (reads_curSVarint _ s) (Reads.then (reads_hasError s) ?_)
      rw [if_neg Bool.false_ne_true, hdelta, hpc, if_neg (by omega), if_neg (by simp), if_neg (by simp),
        Int.toNat_natCast, hline]
      rw [(by omega : pc + 1 - pc = 1), replicate_one, append_assoc, singleton_append] at h
      exact h

theorem runCount_le (before : Option Int32) (lines : List Int32) :
    runCount before lines ≤ lines.length := by
  induction lines generalizing before with
  | nil => exact Nat.le.refl
  | cons line lines ih =>
    have h := ih (some line)
    rw [runCount, length_cons]
    split <;> omega

theorem readsBack_linesSection (hlt : chunk.lines.length < 2 ^ 31) :
    ReadsBack (σ := σ) (readLinesSection chunk.lines.length) (writeLinesSection chunk)
      chunk.lines := by
  have hle := runCount_le none chunk.lines
  have hcount : (UInt64.ofNat (runCount none chunk.lines)).toNat = runCount none chunk.lines :=
    toNat_ofNat64 (by omega)
  refine .bind (Reads.back (reads_curVarint _)) (.then readsBack_hasError ?_)
  rw [if_neg (by rw [hcount]; simpa using hle), hcount]
  cases hlines : chunk.lines with
  | nil => exact .pure []
  | cons line lines =>
    have hzero : (UInt64.ofNat (0 - 0)).toUInt32.toInt32.toInt = 0 := by decide
    have hdiff : ((0 : Int32).toInt64 + (line.toInt64 - (0 : Int32).toInt64)).toInt32 = line := by
      rw [Int64.add_comm, Int64.sub_add_cancel, Int32.toInt32_toInt64]
    rw [hlines, length_cons] at hlt
    have hnone : ¬ none = some line := fun h => nomatch h
    rw [if_neg (by simp), runCount, writeRuns, if_neg hnone, if_neg hnone, Nat.add_comm 1,
      append_assoc]
    refine .bind (Reads.back (reads_curVarint _)) ?_
    refine .bind (Reads.back (reads_curSVarint _)) (.then readsBack_hasError ?_)
    have hpc : ¬ (((0 : Nat) : Int) + 0 < (0 : Nat) ∨ ((lines.length + 1 : Nat) : Int) < (0 : Nat) + 0) := by
      omega
    rw [if_neg Bool.false_ne_true, hzero, length_cons, if_neg hpc, if_neg (by simp), if_pos rfl,
      hdiff]
    refine Reads.back fun s => ?_
    have hcount' : lines.length + 1 = 1 + lines.length := by omega
    exact @reads_runs σ _ 1 0 line lines [] hcount' hlt rfl (by omega) s

/-! ## constants -/

variable {bs : Bytes} {host : CacheHost σ} {s s' : σ}

theorem writeConsts_spec {ops : CodecOps σ κ} {vs : List (CacheValue κ)}
    (hw : writeConsts ops vs = some bs) : (∀ v ∈ vs, ∃ p, writeValue ops v = some p) ∧
      bs = vs.flatMap fun v => (writeValue ops v).getD [] := by
  induction vs generalizing bs with
  | nil =>
    obtain rfl := some.inj hw
    exact ⟨fun _ h => absurd h not_mem_nil, rfl⟩
  | cons v vs ih =>
    simp only [writeConsts, bind_eq_bind, bind_eq_some_iff, Option.pure_def, some.injEq] at hw
    obtain ⟨p, hp, rest, hrest, rfl⟩ := hw
    obtain ⟨hall, hbs⟩ := ih hrest
    refine ⟨fun w hw => ?_, ?_⟩
    · rcases mem_cons.mp hw with rfl | hw
      · exact ⟨p, hp⟩
      · exact hall w hw
    · rw [flatMap_cons, hp, getD_some, hbs]

theorem readsBack_constSection {ops : CodecOps σ κ} {S : CacheValue κ → CacheValue κ → Prop}
    {value : Reader σ (CacheValue κ)} (hlt : chunk.constants.length < 2 ^ 31)
    (hvalue : ∀ v ∈ chunk.constants, ∀ p, writeValue ops v = some p → ∃ v', S v v' ∧ ReadsBack value
      p v') (hw : writeConstSection ops chunk = some bs) :
    ∃ vs, Forall₂ S chunk.constants vs ∧ ReadsBack (readConstSection value) bs vs := by
  simp only [writeConstSection, bind_eq_bind, bind_eq_some_iff, Option.pure_def, some.injEq] at hw
  obtain ⟨cells, hcells, rfl⟩ := hw
  obtain ⟨hall, rfl⟩ := writeConsts_spec hcells
  obtain ⟨vs, hsame, hread⟩ := readsBack_times (m := value) (R := S)
    (w := fun v => (writeValue ops v).getD []) (l := chunk.constants) fun v hv => by
      obtain ⟨p, hp⟩ := hall v hv
      rw [hp, getD_some]
      exact hvalue v hv p hp
  have hlen : (UInt64.ofNat chunk.constants.length).toNat = chunk.constants.length :=
    toNat_ofNat64 (by omega)
  refine ⟨vs, hsame, ?_⟩
  refine .bind (Reads.back (reads_curVarint _)) (.then readsBack_hasError ?_)
  rw [if_neg (by rw [hlen]; simpa using Nat.le_sub_one_of_lt hlt), hlen]
  exact hread

/-! ## the map of the builtins -/

def loadedIndex (constantsCount : Nat) (lower : Int32) : Int32 :=
  if 0 ≤ lower.toInt ∧ lower.toInt < constantsCount then lower else -1

/-- the table that is loaded: there is one as soon as there are constants -/
def loadedIndices (constantsCount : Nat) (indices : Option (List Int32)) : Option (List Int32) :=
  if constantsCount = 0 then none
  else some ((indices.getD (List.replicate constantsCount (-1))).map (loadedIndex constantsCount))

theorem reads_bmapPairs {n : Nat} {indices : List Int32} (filled : List Int32) (hn : n < 2 ^ 31)
    (hlen : filled.length + indices.length = n) (s : σ) : Reads
      (readBmapPairs n (bmapPairs n filled.length indices).length
        (filled ++ replicate indices.length (-1)))
      ((bmapPairs n filled.length indices).flatMap fun p =>
        bufVarint (UInt64.ofNat p.1) ++ bufVarint (UInt64.ofNat p.2)) s
      (filled ++ indices.map (loadedIndex n)) s := by
  induction indices generalizing filled with
  | nil => exact Reads.pure _ s
  | cons lower indices ih =>
    rw [length_cons] at hlen
    have h := ih (filled ++ [loadedIndex n lower]) (by rw [length_append, length_singleton]; omega)
    rw [length_append, length_singleton, append_assoc, append_assoc,
      singleton_append, singleton_append] at h
    rw [bmapPairs, map_cons]
    by_cases hvalid : 0 ≤ lower.toInt ∧ lower.toInt < n
    · rw [if_pos hvalid, length_cons, flatMap_cons, append_assoc, length_cons, replicate_succ]
      have horig : (UInt64.ofNat filled.length).toNat = filled.length := toNat_ofNat64 (by omega)
      have hlower : (UInt64.ofNat lower.toInt.toNat).toNat = lower.toInt.toNat :=
        toNat_ofNat64 (by omega)
      have hback : Int32.ofNat lower.toInt.toNat = lower := by
        apply Int32.toInt_inj.mp
        rw [toInt_ofNat (by omega)]
        omega
      refine Reads.bind (reads_curVarint _ s) (Reads.bind (reads_curVarint _ s) ?_)
      refine Reads.then (reads_hasError s) ?_
      rw [loadedIndex, if_pos hvalid] at h
      rw [if_neg Bool.false_ne_true, horig, hlower, if_neg (by omega), hback,
        set_append_right _ _ Nat.le.refl, Nat.sub_self, set_cons_zero, loadedIndex,
        if_pos hvalid]
      exact h
    · rw [if_neg hvalid, length_cons, replicate_succ]
      rw [loadedIndex, if_neg hvalid] at h
      rw [loadedIndex, if_neg hvalid]
      exact h

theorem bmapPairs_replicate (n i m : Nat) : bmapPairs n i (replicate m (-1)) = [] := by
  induction m generalizing i with
  | zero => rfl
  | succ m ih => rw [replicate_succ, bmapPairs, if_neg (by simp), ih]

theorem length_bmapPairs_le (n i : Nat) (indices : List Int32) :
    (bmapPairs n i indices).length ≤ indices.length := by
  induction indices generalizing i with
  | nil => exact Nat.le.refl
  | cons lower indices ih =>
    have h := ih (i + 1)
    rw [bmapPairs]
    split
    · exact Nat.succ_le_succ h
    · exact Nat.le_succ_of_le h

theorem readsBack_bmapSection (hlt : chunk.constants.length < 2 ^ 31)
    (hlen : ∀ indices ∈ chunk.builtinLowercaseIndices, indices.length = chunk.constants.length) :
    ReadsBack (σ := σ) (readBmapSection chunk.constants.length) (writeBmapSection chunk)
      (loadedIndices chunk.constants.length chunk.builtinLowercaseIndices) := by
  -- a table that is not there is one without indices
  have hpairs : bmapPairs chunk.constants.length 0 (chunk.builtinLowercaseIndices.getD [])
      = bmapPairs chunk.constants.length 0 (chunk.builtinLowercaseIndices.getD
          (replicate chunk.constants.length (-1))) := by
    cases chunk.builtinLowercaseIndices with
    | none => exact (bmapPairs_replicate _ _ _).symm
    | some indices => rfl
  have hlen' : (chunk.builtinLowercaseIndices.getD
      (replicate chunk.constants.length (-1))).length = chunk.constants.length := by
    cases hi : chunk.builtinLowercaseIndices with
    | none => exact length_replicate
    | some indices => exact hlen indices hi
  rw [writeBmapSection, hpairs, loadedIndices, append_assoc]
  generalize chunk.builtinLowercaseIndices.getD _ = indices at hlen' ⊢
  have hpairs_le := length_bmapPairs_le chunk.constants.length 0 indices
  have hcount : (UInt64.ofNat (bmapPairs chunk.constants.length 0 indices).length).toNat
      = (bmapPairs chunk.constants.length 0 indices).length := toNat_ofNat64 (by omega)
  have htable : ∀ s : σ, Reads
      (readBmapPairs chunk.constants.length (bmapPairs chunk.constants.length 0 indices).length
        (replicate chunk.constants.length (-1)))
      ((bmapPairs chunk.constants.length 0 indices).flatMap fun p =>
        bufVarint (UInt64.ofNat p.1) ++ bufVarint (UInt64.ofNat p.2)) s
      (indices.map (loadedIndex chunk.constants.length)) s := by
    intro s
    have h := reads_bmapPairs [] hlt (by simpa using hlen') s
    rwa [nil_append, nil_append, hlen'] at h
  refine .bind (Reads.back (reads_curVarint _)) (.then readsBack_hasError ?_)
  rw [if_neg Bool.false_ne_true, hcount]
  refine .bind (Reads.back htable) ?_
  refine .last (Reads.back (reads_curU64LE _)) (.then readsBack_hasError ?_)
  exact .pure _

/-! ## routines, global constants and types -/

def ProcEntry.stored (e : ProcEntry) : ProcEntry :=
  { e with isDefined := true, bytecodeAddress := e.storedAddress }

def ProcEntry.Sized (e : ProcEntry) : Prop :=
  e.name.bytes.length < 2 ^ 64 ∧ (∀ name ∈ e.enclosing, name.bytes.length < 2 ^ 64) ∧
    e.upvalues.length < 2 ^ 8

def enterScope (host : CacheHost σ) (s : σ) : Option CString → Option σ
  | none => some s
  | some name => host.findProcedureScope s name

def enterProcedure (host : CacheHost σ) (s : σ) (e : ProcEntry) : Option σ :=
  (enterScope host s e.enclosing).map fun s => host.defineRoutine s e.stored

def enterProcedures (host : CacheHost σ) : σ → List ProcEntry → Option σ
  | s, [] => some s
  | s, e :: entries => (enterProcedure host s e).bind fun s => enterProcedures host s entries

theorem reads_readName {name : CString} (h : name.bytes.length < 2 ^ 64) (s : σ) :
    Reads readName (bufLenPrefixedBytes name.bytes) s name s := by
  refine Reads.last (reads_curLenPrefixedString h s) (Reads.then (reads_hasError s) ?_)
  rw [if_neg Bool.false_ne_true, CString.ofBuffer_bytes]
  exact Reads.pure name s

theorem bool_ne_zero (b : Bool) : ((if b then 1 else 0 : UInt8) != 0) = b := by
  cases b <;> decide

theorem reads_upvalue (uv : UpvalueEntry) (s : σ) : Reads readUpvalue (writeUpvalue uv) s uv s := by
  rw [writeUpvalue, append_assoc]
  refine Reads.bind (reads_curU8 _ s) (Reads.bind (reads_curU8 _ s) ?_)
  refine Reads.last (reads_curU8 _ s) (Reads.then (reads_hasError s) ?_)
  rw [if_neg Bool.false_ne_true, bool_ne_zero, bool_ne_zero]
  exact Reads.pure uv s

theorem reads_upvalues (uvs : List UpvalueEntry) (s : σ) :
    Reads (times readUpvalue uvs.length) (uvs.flatMap writeUpvalue) s uvs s := by
  rw [flatMap_def]
  refine reads_times ?_
  rw [forall₂_map_left_iff]
  exact forall₂_same.mpr fun uv _ => reads_upvalue uv s

theorem reads_enclosing {enclosing : Option CString}
    (hlen : ∀ name ∈ enclosing, name.bytes.length < 2 ^ 64)
    (h : enterScope host s enclosing = some s') :
    Reads (readEnclosing host) (writeEnclosing enclosing) s enclosing s' := by
  cases enclosing with
  | none =>
    obtain rfl := some.inj h
    refine Reads.last (reads_curU8 0 s) (Reads.then (reads_hasError s) ?_)
    exact Reads.pure none s
  | some name =>
    refine Reads.bind (reads_curU8 1 s) (Reads.then (reads_hasError s) ?_)
    rw [if_neg Bool.false_ne_true, if_neg (by decide)]
    refine Reads.last (reads_readName (hlen name rfl) s) (Reads.then (reads_get s) ?_)
    rw [show host.findProcedureScope s name = some s' from h]
    exact Reads.then (reads_set s s') (Reads.pure _ s')

theorem reads_procedureEntry {e : ProcEntry} (he : e.Sized) (h : enterProcedure host s e = some s')
    : Reads (readProcedureEntry host) (writeProcedureEntry e) s e.stored s' := by
  obtain ⟨hname, henclosing, hupvalues⟩ := he
  obtain ⟨s₁, hscope, rfl⟩ := map_eq_some_iff.mp h
  have hcount : (UInt8.ofNat e.upvalues.length).toNat = e.upvalues.length := by
    rw [toNat_ofNat]
    exact Nat.mod_eq_of_lt hupvalues
  simp only [writeProcedureEntry, append_assoc]
  refine Reads.bind (reads_readName hname s) (Reads.bind (reads_curI32LE _ s) ?_)
  refine Reads.bind (reads_curU16LE _ s) (Reads.bind (reads_curU8 _ s) ?_)
  refine Reads.bind (reads_curU32LE _ s) (Reads.bind (reads_curU8 _ s) ?_)
  refine Reads.bind (reads_curU8 _ s) (Reads.bind (reads_curU8 _ s) ?_)
  refine Reads.bind (reads_enclosing henclosing hscope) ?_
  rw [hcount, bool_ne_zero, bool_ne_zero]
  refine Reads.last (reads_upvalues e.upvalues s₁) (Reads.then (reads_get s₁) ?_)
  exact Reads.then (reads_set s₁ _) (Reads.pure e.stored _)

theorem reads_procedures {entries : List ProcEntry} (he : ∀ e ∈ entries, e.Sized)
    (h : enterProcedures host s entries = some s') :
    Reads (times (readProcedureEntry host) entries.length) (entries.flatMap writeProcedureEntry) s
      (entries.map ProcEntry.stored) s' := by
  induction entries generalizing s with
  | nil =>
    obtain rfl := some.inj h
    exact Reads.pure [] s
  | cons e entries ih =>
    obtain ⟨s₁, h₁, hrest⟩ := bind_eq_some_iff.mp h
    refine Reads.bind (reads_procedureEntry (he e mem_cons_self) h₁) ?_
    exact Reads.map (ih (fun e he' => he e (mem_cons_of_mem _ he')) hrest) _

def SameConst (S : CacheValue ShellFunction → CacheValue ShellFunction → Prop)
    (c c' : ConstSymbol) : Prop :=
  c.name = c'.name ∧ c.type = c'.type ∧ ∃ v, c'.value = some v ∧ S (c.value.getD .void) v

def SameType (e e' : TypeEntry) : Prop := e.name = e'.name ∧ SameAst e.typeAst e'.typeAst

/-- the tables are of the sizes of their counts, and their routines are entered in any state -/
structure SymbolTables.Storable (host : CacheHost σ) (V : CacheValue ShellFunction → Prop)
    (levels : Nat) (tables : SymbolTables) : Prop where
  procedures_lt : tables.procedures.length < 2 ^ 31
  procedures : ∀ e ∈ tables.procedures, e.Sized
  entered : ∀ s, ∃ s', enterProcedures host s tables.procedures = some s'
  constGlobals_lt : tables.constGlobals.length < 2 ^ 64
  constGlobals : ∀ c ∈ tables.constGlobals, c.name.bytes.length < 2 ^ 64 ∧ V (c.value.getD .void)
  types_lt : tables.types.length < 2 ^ 64
  types : ∀ e ∈ tables.types,
    e.name.bytes.length < 2 ^ 64 ∧ e.typeAst.Within levels ∧ e.typeAst.isNull = false

theorem writeConstGlobals_spec {ops : CodecOps σ ShellFunction} {syms : List ConstSymbol}
    (hw : writeConstGlobals ops syms = some bs) :
    (∀ c ∈ syms, ∃ p, writeValue ops (c.value.getD .void) = some p) ∧
      bs = syms.flatMap fun c => bufLenPrefixedBytes c.name.bytes ++ bufU32LE c.type ++
        (writeValue ops (c.value.getD .void)).getD [] := by
  induction syms generalizing bs with
  | nil =>
    obtain rfl := some.inj hw
    exact ⟨fun _ h => absurd h not_mem_nil, rfl⟩
  | cons c syms ih =>
    simp only [writeConstGlobals, bind_eq_bind, bind_eq_some_iff, Option.pure_def, some.injEq] at hw
    obtain ⟨p, hp, rest, hrest, rfl⟩ := hw
    obtain ⟨hall, hbs⟩ := ih hrest
    refine ⟨fun c' hc' => ?_, ?_⟩
    · rcases mem_cons.mp hc' with rfl | hc'
      · exact ⟨p, hp⟩
      · exact hall c' hc'
    · rw [flatMap_cons, hp, getD_some, hbs]

theorem readsBack_constGlobal {c : ConstSymbol} {p : Bytes}
    {S : CacheValue ShellFunction → CacheValue ShellFunction → Prop}
    {value : Reader σ (CacheValue ShellFunction)} (hname : c.name.bytes.length < 2 ^ 64)
    (hvalue : ∃ v', S (c.value.getD .void) v' ∧ ReadsBack value p v') : ∃ c', SameConst S c c' ∧
      ReadsBack (readConstGlobal host value)
        (bufLenPrefixedBytes c.name.bytes ++ bufU32LE c.type ++ p) c' := by
  obtain ⟨v', hsame, hread⟩ := hvalue
  refine ⟨{ name := c.name, type := c.type, value := some v' }, ⟨rfl, rfl, v', rfl, hsame⟩, ?_⟩
  rw [append_assoc]
  refine .bind (Reads.back (reads_readName hname)) ?_
  refine .bind (Reads.back (reads_curU32LE _)) (.then readsBack_hasError ?_)
  rw [if_neg Bool.false_ne_true]
  refine .last hread fun s => ⟨host.bindConstGlobal s c.name c.type v', ?_⟩
  exact Reads.then (reads_get s) (Reads.then (reads_set s _) (Reads.pure _ _))

theorem readsBack_procsSection {ops : CodecOps σ ShellFunction} {tables : SymbolTables}
    {V : CacheValue ShellFunction → Prop}
    {S : CacheValue ShellFunction → CacheValue ShellFunction → Prop}
    {value : Reader σ (CacheValue ShellFunction)} (htables : tables.Storable host V levels)
    (hvalue : ∀ v, V v → ∀ p, writeValue ops v = some p → ∃ v', S v v' ∧ ReadsBack value p v')
    (hw : writeProcsSection ops tables = some bs) :
    ∃ consts, Forall₂ (SameConst S) tables.constGlobals consts ∧
      ReadsBack (readProcsSection host value) bs
        (tables.procedures.map ProcEntry.stored, consts) := by
  simp only [writeProcsSection, bind_eq_bind, bind_eq_some_iff, Option.pure_def, some.injEq] at hw
  obtain ⟨cells, hcells, rfl⟩ := hw
  obtain ⟨hall, rfl⟩ := writeConstGlobals_spec hcells
  obtain ⟨consts, hsame, hread⟩ := readsBack_times (m := readConstGlobal host value)
    (R := SameConst S) (l := tables.constGlobals)
    (w := fun c => bufLenPrefixedBytes c.name.bytes ++ bufU32LE c.type ++
      (writeValue ops (c.value.getD .void)).getD []) fun c hc => by
      obtain ⟨p, hp⟩ := hall c hc
      obtain ⟨hname, hV⟩ := htables.constGlobals c hc
      rw [hp, getD_some]
      exact readsBack_constGlobal hname (hvalue _ hV p hp)
  have hlt := htables.procedures_lt
  have hprocs : (UInt64.ofNat tables.procedures.length).toNat = tables.procedures.length :=
    toNat_ofNat64 (by omega)
  have hconsts : (UInt64.ofNat tables.constGlobals.length).toNat = tables.constGlobals.length :=
    toNat_ofNat64 htables.constGlobals_lt
  have hentered : ReadsBack (times (readProcedureEntry host) tables.procedures.length)
      (tables.procedures.flatMap writeProcedureEntry)
      (tables.procedures.map ProcEntry.stored) := by
    intro s
    obtain ⟨s', hs'⟩ := htables.entered s
    exact ⟨s', reads_procedures htables.procedures hs'⟩
  refine ⟨consts, hsame, ?_⟩
  simp only [append_assoc]
  refine .bind (Reads.back (reads_curVarint _)) (.then readsBack_hasError ?_)
  rw [if_neg (by rw [hprocs]; simpa using Nat.le_sub_one_of_lt hlt), hprocs]
  refine .bind hentered ?_
  refine .bind (Reads.back (reads_curVarint _)) (.then readsBack_hasError ?_)
  rw [if_neg Bool.false_ne_true, hconsts]
  simpa only [append_assoc] using hread.map fun consts => (tables.procedures.map ProcEntry.stored, consts)

theorem isNull_of_sameAst {t t' : TypeAst} (h : SameAst t t') : t'.isNull = t.isNull := by
  cases h with
  | null => rfl
  | node => rfl

theorem readsBack_typeEntry {e : TypeEntry} (hname : e.name.bytes.length < 2 ^ 64)
    (hast : e.typeAst.Within levels) (hnull : e.typeAst.isNull = false) :
    ∃ e', SameType e e' ∧ ReadsBack (readTypeEntry host levels) (writeTypeEntry e) e' := by
  obtain ⟨t', hsame, hread⟩ := readsBack_ast (σ := σ) hast
  refine ⟨{ name := e.name, typeAst := t' }, ⟨rfl, hsame⟩, ?_⟩
  refine .bind (Reads.back (reads_readName hname)) ?_
  refine .last hread (.then readsBack_hasError ?_)
  rw [isNull_of_sameAst hsame, hnull, if_neg (by simp)]
  refine fun s => ⟨host.insertType s e.name t', ?_⟩
  exact Reads.then (reads_get s) (Reads.then (reads_set s _) (Reads.pure _ _))

theorem readsBack_typesSection {tables : SymbolTables} {V : CacheValue ShellFunction → Prop}
    (htables : tables.Storable host V levels) : ∃ types, Forall₂ SameType tables.types types ∧
      ReadsBack (readTypesSection host levels) (writeTypesSection tables) types := by
  obtain ⟨types, hsame, hread⟩ := readsBack_times (m := readTypeEntry host levels)
    (R := SameType) (w := writeTypeEntry) (l := tables.types) fun e he =>
      readsBack_typeEntry (htables.types e he).1 (htables.types e he).2.1 (htables.types e he).2.2
  have hcount : (UInt64.ofNat tables.types.length).toNat = tables.types.length :=
    toNat_ofNat64 htables.types_lt
  refine ⟨types, hsame, ?_⟩
  refine .bind (Reads.back (reads_curVarint _)) (.then readsBack_hasError ?_)
  rw [if_neg Bool.false_ne_true, hcount]
  exact hread

end

end Pscal
