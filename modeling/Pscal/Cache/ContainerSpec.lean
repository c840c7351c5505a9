import Pscal.Cache.Container
import Pscal.Cache.FunctionsSpec

/-!
# A written container is read back

* `Placed`  bodies at their offsets in a file, one after the other;
* `psb3Bodies_placed`  the writer places the bodies where its directory says;
* `psb3ParseHeader_layout`  the parser accepts the file and reports that directory;
* `psb3FindSection_layout`  each section is found again;
* `readsBack_psb3ReadChunk`  the chunk is read from its sections.
-/

namespace Pscal

open Wire Wire.Reader List Option

/-! ## boundaries -/

theorem le_psb3Align (n : Nat) : n ≤ psb3Align n := by
  simp only [psb3Align, psb3SectionAlign]
  omega

theorem psb3Align_psb3Align (n : Nat) : psb3Align (psb3Align n) = psb3Align n := by
  simp only [psb3Align, psb3SectionAlign]
  omega

/-! ## the bodies in the file -/

/-- The bodies are in the file at their offsets, from `start` on, in order and apart. -/
structure Placed (file : Bytes) (start : Nat) (sections : List (UInt32 × UInt32 × Bytes)) :
    Prop where
  inside : ∀ p ∈ sections, p.1.toNat + p.2.2.length ≤ file.length
  found : ∀ p ∈ sections, (file.drop p.1.toNat).take p.2.2.length = p.2.2
  start_le : ∀ p ∈ sections, start ≤ p.1.toNat
  apart : sections.Pairwise fun p q => p.1.toNat + p.2.2.length ≤ q.1.toNat

theorem Placed.cons {file : Bytes} {start next : Nat} {p : UInt32 × UInt32 × Bytes}
    {sections : List (UInt32 × UInt32 × Bytes)} (hinside : p.1.toNat + p.2.2.length ≤ file.length)
    (hfound : (file.drop p.1.toNat).take p.2.2.length = p.2.2) (hstart : start = p.1.toNat)
    (hnext : start + p.2.2.length ≤ next) (h : Placed file next sections) :
    Placed file start (p :: sections) where
  inside := forall_mem_cons.mpr ⟨hinside, h.inside⟩
  found := forall_mem_cons.mpr ⟨hfound, h.found⟩
  start_le := forall_mem_cons.mpr ⟨Nat.le_of_eq hstart, fun q hq => by
    have hle := h.start_le q hq
    omega⟩
  apart := pairwise_cons.mpr ⟨fun q hq => by
    have hle := h.start_le q hq
    omega, h.apart⟩

theorem length_psb3Zeros (n : Nat) : (psb3Zeros n).length = n := length_replicate

variable {sections : List (UInt32 × Bytes)} {version : UInt32}

theorem psb3Bodies_placed {front : Bytes} {written running : Nat} (hfront : front.length = written)
    (hrunning : running = psb3Align written) (hlt : running < 2 ^ 32)
    (hsize : (front ++ psb3Bodies written ((psb3Offsets running sections).zip (sections.map
      Prod.snd))).length < 2 ^ 32) :
    Placed (front ++ psb3Bodies written
      ((psb3Offsets running sections).zip (sections.map Prod.snd))) running
      ((psb3Offsets running sections).zip sections) := by
  induction sections generalizing front written running with
  | nil =>
    exact ⟨fun _ h => absurd h not_mem_nil, fun _ h => absurd h not_mem_nil,
      fun _ h => absurd h not_mem_nil, List.Pairwise.nil⟩
  | cons p sections ih =>
    obtain ⟨id, body⟩ := p
    have hoffset : (UInt32.ofNat running).toNat = running := UInt32.toNat_ofNat_of_lt' hlt
    have hle : written ≤ running := hrunning ▸ le_psb3Align written
    have hstop : written + (running - written) + body.length = running + body.length := by omega
    have hnext := le_psb3Align (running + body.length)
    rw [psb3Offsets, map_cons, zip_cons_cons, zip_cons_cons, psb3Bodies] at *
    simp only [hoffset, hstop, ← append_assoc] at hsize ⊢
    generalize hfront' : front ++ psb3Zeros (running - written) ++ body ++
      psb3Zeros (psb3Align (running + body.length) - (running + body.length)) = front' at hsize ⊢
    have hlen' : front'.length = psb3Align (running + body.length) := by
      rw [← hfront', length_append, length_append, length_append, length_psb3Zeros,
        length_psb3Zeros, hfront]
      omega
    have hlt' : psb3Align (running + body.length) < 2 ^ 32 := by
      rw [length_append] at hsize
      omega
    have hrest := ih hlen' (psb3Align_psb3Align _).symm hlt' hsize
    refine Placed.cons ?_ ?_ hoffset.symm hnext hrest
    · show (UInt32.ofNat running).toNat + body.length ≤ _
      rw [hoffset, length_append]
      omega
    · have hskip : (front ++ psb3Zeros (running - written)).length = running := by
        rw [length_append, length_psb3Zeros, hfront]
        omega
      rw [hoffset, ← hfront', append_assoc, append_assoc, drop_left' hskip, take_left' rfl]

/-! ## the directory -/

theorem length_writeHeader (version : UInt32) (kind : FrontendKind) (count : Nat) :
    (writeHeader version kind count).length = psb3HeaderSize := by
  simp only [writeHeader, length_append, bufU32LE, bufU16LE, length_le]
  rfl

theorem length_flatMap_writeSectionEntry (entries : List Psb3SectionEntry) :
    (entries.flatMap writeSectionEntry).length = entries.length * psb3DirEntrySize := by
  induction entries with
  | nil => rfl
  | cons e entries ih =>
    rw [flatMap_cons, length_append, ih, length_cons, Nat.succ_mul, Nat.add_comm]
    simp only [writeSectionEntry, length_append, bufU32LE, length_le]
    rfl

theorem length_psb3Offsets (running : Nat) (sections : List (UInt32 × Bytes)) :
    (psb3Offsets running sections).length = sections.length := by
  induction sections generalizing running with
  | nil => rfl
  | cons p sections ih => rw [psb3Offsets, length_cons, ih, length_cons]

theorem length_psb3Directory (sections : List (UInt32 × Bytes)) :
    (psb3Directory sections).length = sections.length := by
  rw [psb3Directory, length_map, length_zip, length_psb3Offsets, Nat.min_self]

def psb3Start (sections : List (UInt32 × Bytes)) : Nat :=
  psb3HeaderSize + sections.length * psb3DirEntrySize

def psb3Places (sections : List (UInt32 × Bytes)) : List (UInt32 × UInt32 × Bytes) :=
  (psb3Offsets (psb3Align (psb3Start sections)) sections).zip sections

variable {kind : FrontendKind}

theorem psb3Layout_placed (hcount : sections.length ≤ psb3MaxSections)
    (hsize : (psb3Layout version kind sections).length < 2 ^ 32) :
    Placed (psb3Layout version kind sections) (psb3Align (psb3Start sections))
      (psb3Places sections) := by
  refine psb3Bodies_placed ?_ rfl ?_ hsize
  · rw [length_append, length_writeHeader, length_flatMap_writeSectionEntry, length_psb3Directory]
  · simp only [psb3MaxSections] at hcount
    simp only [psb3Align, psb3SectionAlign, psb3HeaderSize, psb3DirEntrySize]
    omega

/-! ## the checks of the parser -/

theorem psb3CheckOverlap_ok {e : Psb3SectionEntry} {sections : List Psb3SectionEntry}
    (h : ∀ other ∈ sections, e.stop ≤ other.offset.toNat) :
    psb3CheckOverlap e sections = .ok () := by
  induction sections with
  | nil => rfl
  | cons other sections ih =>
    have hle := h other mem_cons_self
    rw [psb3CheckOverlap, if_neg (by omega)]
    exact ih fun o ho => h o (mem_cons_of_mem _ ho)

theorem psb3CheckSections_ok {fileSize : Nat} {sections : List Psb3SectionEntry}
    (hinside : ∀ e ∈ sections, e.stop ≤ fileSize)
    (hapart : sections.Pairwise fun e other => e.stop ≤ other.offset.toNat) :
    psb3CheckSections fileSize sections = .ok () := by
  induction sections with
  | nil => rfl
  | cons e sections ih =>
    have hstop := hinside e mem_cons_self
    obtain ⟨hfirst, hrest⟩ := pairwise_cons.mp hapart
    rw [Psb3SectionEntry.stop] at hstop
    rw [psb3CheckSections, if_neg (by omega), psb3CheckOverlap_ok hfirst]
    exact ih (fun e he => hinside e (mem_cons_of_mem _ he)) hrest

def placeEntry (p : UInt32 × UInt32 × Bytes) : Psb3SectionEntry :=
  { id := p.2.1, offset := p.1, length := UInt32.ofNat p.2.2.length }

theorem Placed.length_toNat {file : Bytes} {start : Nat}
    {sections : List (UInt32 × UInt32 × Bytes)} (h : Placed file start sections)
    (hsize : file.length < 2 ^ 32) {p : UInt32 × UInt32 × Bytes} (hp : p ∈ sections) :
    (placeEntry p).length.toNat = p.2.2.length := by
  have hle := h.inside p hp
  exact UInt32.toNat_ofNat_of_lt' (Nat.lt_of_le_of_lt (by omega) hsize)

theorem Placed.checked {file : Bytes} {start : Nat} {sections : List (UInt32 × UInt32 × Bytes)}
    (h : Placed file start sections) (hsize : file.length < 2 ^ 32) :
    (∀ e ∈ sections.map placeEntry, e.stop ≤ file.length) ∧
      (sections.map placeEntry).Pairwise fun e other => e.stop ≤ other.offset.toNat := by
  constructor
  · intro e he
    obtain ⟨p, hp, rfl⟩ := List.mem_map.mp he
    rw [Psb3SectionEntry.stop, h.length_toNat hsize hp]
    exact h.inside p hp
  · rw [pairwise_map]
    refine h.apart.imp_of_mem fun hp _ hle => ?_
    rw [Psb3SectionEntry.stop, h.length_toNat hsize hp]
    exact hle

/-! ## the header -/

theorem reads_sectionEntry (e : Psb3SectionEntry) (s : Unit) :
    Reads readSectionEntry (writeSectionEntry e) s e s := by
  rw [writeSectionEntry, append_assoc]
  refine Reads.bind (reads_curU32LE _ s) (Reads.bind (reads_curU32LE _ s) ?_)
  exact (reads_curU32LE e.length s).map fun length => { e with length := length }

theorem reads_directory (entries : List Psb3SectionEntry) (s : Unit) :
    Reads (times readSectionEntry entries.length) (entries.flatMap writeSectionEntry) s entries
      s := by
  rw [flatMap_def]
  refine reads_times ?_
  rw [forall₂_map_left_iff]
  exact forall₂_same.mpr fun e _ => reads_sectionEntry e s

theorem reads_header (version : UInt32) (kind : FrontendKind) (count : Nat) (s : Unit) :
    Reads readHeader (writeHeader version kind count) s
      (psb3Magic, psb3FormatVersion, version.toUInt16, kind.code &&& psb3FlagFrontendMask,
        UInt32.ofNat count) s := by
  simp only [writeHeader, append_assoc]
  refine Reads.bind (reads_curU32LE _ s) (Reads.bind (reads_curU16LE _ s) ?_)
  refine Reads.bind (reads_curU16LE _ s) (Reads.bind (reads_curU32LE _ s) ?_)
  exact (reads_curU32LE _ s).map _

theorem frontendKind_ofCode (kind : FrontendKind) :
    FrontendKind.ofCode (kind.code &&& psb3FlagFrontendMask &&& psb3FlagFrontendMask)
      = some kind := by
  cases kind <;> rfl

theorem psb3ParseDirectory_ok {pf : Psb3File} {entries : List Psb3SectionEntry} {count : Nat}
    (hcount : count = entries.length) (rest : Bytes)
    (hchecked : psb3CheckSections pf.fileData.length entries = .ok ()) :
    psb3ParseDirectory pf count { rest := entries.flatMap writeSectionEntry ++ rest }
      = .ok { pf with sections := entries } := by
  subst hcount
  rw [psb3ParseDirectory, reads_directory entries () rest]
  show (psb3CheckSections pf.fileData.length entries >>= fun _ => _) = _
  rw [hchecked]
  rfl

theorem psb3ParseHeader_header {count : Nat} (hcount : count ≤ psb3MaxSections) (rest : Bytes) :
    psb3ParseHeader (writeHeader version kind count ++ rest) = psb3ParseDirectory
      { fileData := writeHeader version kind count ++ rest, formatVersion := psb3FormatVersion
        vmVersion := version.toUInt16, flags := kind.code &&& psb3FlagFrontendMask
        frontendKind := kind, sections := [] } count { rest := rest } := by
  have hcount' : (UInt32.ofNat count).toNat = count :=
    UInt32.toNat_ofNat_of_lt' (Nat.lt_of_le_of_lt hcount (by decide))
  rw [psb3ParseHeader, reads_header version kind count () rest]
  simp only [ne_eq, not_true_eq_false, if_false, hcount', if_neg (Nat.not_lt.mpr hcount),
    frontendKind_ofCode]

theorem psb3ParseHeader_layout (hcount : sections.length ≤ psb3MaxSections)
    (hsize : (psb3Layout version kind sections).length < 2 ^ 32) :
    psb3ParseHeader (psb3Layout version kind sections) = .ok
      { fileData := psb3Layout version kind sections, formatVersion := psb3FormatVersion
        vmVersion := version.toUInt16, flags := kind.code &&& psb3FlagFrontendMask
        frontendKind := kind, sections := psb3Directory sections } := by
  obtain ⟨hinside, hapart⟩ := (psb3Layout_placed hcount hsize).checked hsize
  have hchecked : psb3CheckSections (psb3Layout version kind sections).length
      (psb3Directory sections) = .ok () := psb3CheckSections_ok hinside hapart
  rw [psb3Layout, append_assoc] at hchecked ⊢
  rw [psb3ParseHeader_header hcount]
  refine psb3ParseDirectory_ok (length_psb3Directory sections).symm _ ?_
  exact hchecked

/-! ## the sections -/

theorem find?_of_nodup {entries : List Psb3SectionEntry} {e : Psb3SectionEntry}
    (hnodup : (entries.map Psb3SectionEntry.id).Nodup) (he : e ∈ entries) :
    entries.find? (fun e' => e'.id = e.id) = some e := by
  induction entries with
  | nil => exact absurd he not_mem_nil
  | cons e' entries ih =>
    obtain ⟨hnew, hrest⟩ := nodup_cons.mp hnodup
    rcases mem_cons.mp he with rfl | he
    · rw [find?_cons_of_pos (by simp)]
    · have hne : ¬ e'.id = e.id := fun h => hnew (h ▸ List.mem_map_of_mem he)
      rw [find?_cons_of_neg (by simpa using hne)]
      exact ih hrest he

theorem mem_psb3Places {id : UInt32} {body : Bytes} (h : (id, body) ∈ sections) :
    ∃ offset, (offset, id, body) ∈ psb3Places sections := by
  obtain ⟨i, hi, hget⟩ := mem_iff_getElem.mp h
  have hoff : i < (psb3Offsets (psb3Align (psb3Start sections)) sections).length := by
    rw [length_psb3Offsets]
    exact hi
  refine ⟨(psb3Offsets (psb3Align (psb3Start sections)) sections)[i], ?_⟩
  rw [← hget]
  refine mem_iff_getElem.mpr ⟨i, ?_, ?_⟩
  · rw [psb3Places, length_zip]
    omega
  · exact getElem_zip

theorem psb3Directory_ids (sections : List (UInt32 × Bytes)) :
    (psb3Directory sections).map Psb3SectionEntry.id = sections.map Prod.fst := by
  have hle : sections.length
      ≤ (psb3Offsets (psb3Align (psb3Start sections)) sections).length := by
    rw [length_psb3Offsets]
  calc (psb3Directory sections).map Psb3SectionEntry.id
      = ((psb3Places sections).map Prod.snd).map Prod.fst := by
        rw [psb3Directory, List.map_map, List.map_map]
        rfl
    _ = sections.map Prod.fst := by rw [psb3Places, map_snd_zip hle]

theorem psb3FindSection_layout {pf : Psb3File} (hcount : sections.length ≤ psb3MaxSections)
    (hnodup : (sections.map Prod.fst).Nodup)
    (hsize : (psb3Layout version kind sections).length < 2 ^ 32)
    (hdata : pf.fileData = psb3Layout version kind sections)
    (hdir : pf.sections = psb3Directory sections) {id : UInt32} {body : Bytes}
    (h : (id, body) ∈ sections) : psb3FindSection pf id = some body := by
  have hplaced := psb3Layout_placed hcount hsize
  obtain ⟨offset, hmem⟩ := mem_psb3Places h
  have hentry : placeEntry (offset, id, body) ∈ psb3Directory sections := List.mem_map_of_mem hmem
  have hfind := find?_of_nodup (by rw [psb3Directory_ids]; exact hnodup) hentry
  rw [psb3FindSection, hdir, show id = (placeEntry (offset, id, body)).id from rfl, hfind,
    map_some, hplaced.length_toNat hsize hmem, hdata]
  exact congrArg some (hplaced.found _ hmem)

section
variable {σ α : Type}

variable {pf : Psb3File} {ops : CodecOps σ ShellFunction} {sections : List (UInt32 × Bytes)}
  {source : Option MetaSection} {data : MetaSection}

theorem ReadsBack.inSection {id : UInt32} {m : Reader σ α} {body : Bytes} {a : α}
    (hfind : psb3FindSection pf id = some body) (h : ReadsBack m body a) :
    ReadsBack (inSection pf id m) [] a := by
  intro s
  obtain ⟨s', hread⟩ := h s
  have hrun := hread []
  rw [append_nil] at hrun
  refine ⟨s', fun rest => ?_⟩
  rw [Pscal.inSection, hfind]
  simp only [hrun, nil_append]

/-- what the tables of the process take in of the stored ones -/
structure SameTables (S : CacheValue ShellFunction → CacheValue ShellFunction → Prop)
    (tables tables' : SymbolTables) : Prop where
  procedures : tables'.procedures = tables.procedures.map ProcEntry.stored
  constGlobals : List.Forall₂ (SameConst S) tables.constGlobals tables'.constGlobals
  types : List.Forall₂ SameType tables.types tables'.types

variable {chunk : CachedChunk ShellFunction} {tables : SymbolTables}

/-- The chunk is read from a file whose sections are those the writer puts there. -/
theorem readsBack_psb3ReadChunk {host : CacheHost σ} {V : CacheValue ShellFunction → Prop}
    {levels : Nat} {S : CacheValue ShellFunction → CacheValue ShellFunction → Prop}
    (hchunk : chunk.Storable V) (htables : tables.Storable host V levels)
    (hvalue : ∀ v, V v → ∀ p, writeValue ops v = some p → ∃ v', S v v' ∧ ReadsBack (readValue ops
      levels) p v') (hversion : pf.vmVersion.toUInt32 = chunk.version)
    (hkind : pf.frontendKind = chunk.frontendKind)
    (hw : psb3Sections ops tables chunk source = some sections)
    (hfind : ∀ p ∈ sections, psb3FindSection pf p.1 = some p.2) :
    ∃ chunk' tables', SameChunk S chunk chunk' ∧ chunk'.frontendKind = chunk.frontendKind ∧
      SameTables S tables tables' ∧
      ReadsBack (psb3ReadChunk host ops levels pf) [] (chunk', tables') := by
  simp only [psb3Sections, bind_eq_bind, bind_eq_some_iff, Option.pure_def, some.injEq] at hw
  obtain ⟨consts, hconsts, procs, hprocs, rfl⟩ := hw
  simp only [forall_mem_append, forall_mem_cons] at hfind
  obtain ⟨⟨fcode, fline, fcons, fbmap, fproc, ftype, -⟩, -⟩ := hfind
  have hcap : psb3MaxCodeBytes < 2 ^ 31 := by decide
  have hlines : chunk.lines.length < 2 ^ 31 := by
    have hle := hchunk.code_le
    rw [hchunk.lines_length]
    omega
  have hread_lines := readsBack_linesSection (σ := σ) hlines
  rw [hchunk.lines_length] at hread_lines
  obtain ⟨vs, hsame, hread_consts⟩ := readsBack_constSection hchunk.constants_lt
    (fun v hv => hvalue v (hchunk.constants v hv)) hconsts
  obtain ⟨consts', hconsts', hread_procs⟩ := readsBack_procsSection htables hvalue hprocs
  obtain ⟨types', htypes', hread_types⟩ := readsBack_typesSection htables
  have hrequired : ([psb3SecCode, psb3SecLine, psb3SecCons, psb3SecBmap, psb3SecProc,
      psb3SecType].any fun id => (psb3FindSection pf id).isNone) = false := by
    simp only [any_cons, any_nil, fcode, fline, fcons, fbmap, fproc, ftype,
      isNone_some, Bool.or_false]
  have hbmap := readsBack_bmapSection (σ := σ) hchunk.constants_lt hchunk.indices_length
  refine ⟨{ version := pf.vmVersion.toUInt32, frontendKind := pf.frontendKind, code := chunk.code
            cacheCount := chunk.cacheCount, lines := chunk.lines, constants := vs
            builtinLowercaseIndices :=
              loadedIndices chunk.constants.length chunk.builtinLowercaseIndices },
    { procedures := tables.procedures.map ProcEntry.stored, constGlobals := consts'
      types := types' },
    ⟨hversion, rfl, rfl, rfl, hsame, rfl⟩, hkind, ⟨rfl, hconsts', htypes'⟩, ?_⟩
  rw [psb3ReadChunk, hrequired, if_neg Bool.false_ne_true]
  refine ReadsBack.then (ReadsBack.inSection fcode (readsBack_codeSection hchunk.code_le
    hchunk.cacheCount_nonneg hchunk.cacheCount_le)) ?_
  refine ReadsBack.then (ReadsBack.inSection fline hread_lines) ?_
  refine ReadsBack.then (ReadsBack.inSection fcons hread_consts) ?_
  rw [← hsame.length_eq]
  refine ReadsBack.then (ReadsBack.inSection fbmap hbmap) ?_
  refine ReadsBack.then (ReadsBack.inSection fproc hread_procs) ?_
  refine ReadsBack.then (ReadsBack.inSection ftype hread_types) ?_
  exact .pure _

theorem readsBack_metaSection (h : data.sourcePath.bytes.length < 2 ^ 64) :
    ReadsBack (σ := σ) readMetaSection (writeMetaSection data) data := by
  rw [writeMetaSection, append_assoc]
  refine .bind (Reads.back (reads_curU64LE _)) ?_
  refine .bind (Reads.back (reads_curU64LE _)) ?_
  exact (Reads.back (reads_readName h)).map fun sourcePath => { data with sourcePath := sourcePath }

theorem psb3Sections_ids (hw : psb3Sections ops tables chunk source = some sections) :
    sections.map Prod.fst = [psb3SecCode, psb3SecLine, psb3SecCons, psb3SecBmap, psb3SecProc,
      psb3SecType] ++ source.toList.map fun _ => psb3SecMeta := by
  simp only [psb3Sections, bind_eq_bind, bind_eq_some_iff, Option.pure_def, some.injEq] at hw
  obtain ⟨consts, -, procs, -, rfl⟩ := hw
  rw [map_append, List.map_map]
  rfl

theorem mem_psb3Sections_meta (hw : psb3Sections ops tables chunk (some data) = some sections) :
    (psb3SecMeta, writeMetaSection data) ∈ sections := by
  simp only [psb3Sections, bind_eq_bind, bind_eq_some_iff, Option.pure_def, some.injEq] at hw
  obtain ⟨consts, -, procs, -, rfl⟩ := hw
  exact mem_append_right _ mem_cons_self

theorem nodup_psb3Sections_ids (source : Option MetaSection) :
    ([psb3SecCode, psb3SecLine, psb3SecCons, psb3SecBmap, psb3SecProc, psb3SecType] ++
      source.toList.map fun _ => psb3SecMeta).Nodup := by
  cases source with
  | none => decide
  | some data =>
    rw [toList_some, map_singleton]
    decide

theorem psb3Write_layout {file : Bytes} (hsize : file.length < 2 ^ 32)
    (hw : psb3Write ops tables chunk source = some file) :
    ∃ sections pf, psb3Sections ops tables chunk source = some sections ∧
      psb3ParseHeader file = .ok pf ∧ pf.vmVersion = chunk.version.toUInt16 ∧
      pf.frontendKind = chunk.frontendKind ∧ pf.sections = psb3Directory sections ∧
      Placed file (psb3Align (psb3Start sections)) (psb3Places sections) ∧
      ∀ p ∈ sections, psb3FindSection pf p.1 = some p.2 := by
  obtain ⟨sections, hsections, hfile⟩ := bind_eq_some_iff.mp hw
  obtain rfl := some.inj hfile
  have hids := psb3Sections_ids hsections
  have hcount : sections.length ≤ psb3MaxSections := by
    have hlen := congrArg List.length hids
    rw [length_map, length_append, length_map] at hlen
    rw [hlen]
    cases source with
    | none => decide
    | some data => exact Nat.le_of_ble_eq_true rfl
  refine ⟨sections, _, hsections, psb3ParseHeader_layout hcount hsize, rfl, rfl, rfl,
    psb3Layout_placed hcount hsize, fun p hp => ?_⟩
  exact psb3FindSection_layout hcount (hids ▸ nodup_psb3Sections_ids source) hsize rfl rfl hp

theorem readsBack_psb3ReadMeta {file : Bytes} (hsize : file.length < 2 ^ 32)
    (hsections : psb3Sections ops tables chunk (some data) = some sections)
    (hplaced : Placed file (psb3Align (psb3Start sections)) (psb3Places sections))
    (hfind : ∀ p ∈ sections, psb3FindSection pf p.1 = some p.2) :
    ReadsBack (psb3ReadMeta (σ := σ) pf) [] data := by
  have hmem := mem_psb3Sections_meta hsections
  obtain ⟨offset, hplace⟩ := mem_psb3Places hmem
  have hlen := hplaced.inside _ hplace
  refine ReadsBack.inSection (hfind _ hmem) (readsBack_metaSection ?_)
  have hle : data.sourcePath.bytes.length ≤ (writeMetaSection data).length := by
    rw [writeMetaSection, bufLenPrefixedBytes, length_append, length_append, length_append]
    omega
  have hbody : (writeMetaSection data).length < 2 ^ 32 := by
    refine Nat.lt_of_le_of_lt (Nat.le_trans ?_ hlen) hsize
    exact Nat.le_add_left _ _
  omega

theorem toUInt32_toUInt16 {n : UInt32} (h : n.toNat < 2 ^ 16) : n.toUInt16.toUInt32 = n := by
  apply UInt32.toNat_inj.mp
  rw [UInt16.toNat_toUInt32, UInt32.toNat_toUInt16, Nat.mod_eq_of_lt h]

/-- Whatever is written within the limits of the reader is accepted, with a directory of ranges
that are apart and in the file; every section is found again byte by byte, and the chunk, the
tables and the data of the source come back from them. -/
theorem psb3Write_roundTrip {host : CacheHost σ} {tables : SymbolTables} {depth : Nat}
    {chunk : CachedChunk ShellFunction} {source : Option MetaSection} {file : Bytes}
    (hchunk : chunk.Storable (StorableValue host tables depth cacheMaxNesting))
    (htables : tables.Storable host (StorableValue host tables depth cacheMaxNesting)
      cacheMaxNesting)
    (hversion : chunk.version.toNat < 2 ^ 16) (hsize : file.length < 2 ^ 32)
    (hw : psb3Write (functionOps host tables depth) tables chunk source = some file) :
    ∃ sections pf, psb3Sections (functionOps host tables depth) tables chunk source = some sections ∧
      psb3ParseHeader file = .ok pf ∧
      pf.sections.map Psb3SectionEntry.id = sections.map Prod.fst ∧
      (∀ e ∈ pf.sections, e.stop ≤ file.length) ∧
      (pf.sections.Pairwise fun e other => e.stop ≤ other.offset.toNat) ∧
      (∀ p ∈ sections, psb3FindSection pf p.1 = some p.2) ∧
      (∃ chunk' tables', SameChunk (SameStored host tables depth cacheMaxNesting) chunk chunk' ∧
        chunk'.frontendKind = chunk.frontendKind ∧
        SameTables (SameStored host tables depth cacheMaxNesting) tables tables' ∧
        ReadsBack (psb3ReadChunk host (functionOps host tables depth) cacheMaxNesting pf) []
          (chunk', tables')) ∧
      ∀ data ∈ source, ReadsBack (psb3ReadMeta (σ := σ) pf) [] data := by
  obtain ⟨sections, pf, hsections, hparse, hvm, hkind, hdir, hplaced, hfind⟩ :=
    psb3Write_layout hsize hw
  obtain ⟨hinside, hapart⟩ := hplaced.checked hsize
  rw [show (psb3Places sections).map placeEntry = pf.sections from hdir.symm] at hinside hapart
  refine ⟨sections, pf, hsections, hparse, hdir ▸ psb3Directory_ids sections, hinside, hapart,
    hfind, ?_, ?_⟩
  · refine readsBack_psb3ReadChunk hchunk htables (fun v hv p hp => readsBack_stored hv hp) ?_ hkind
      hsections hfind
    rw [hvm, toUInt32_toUInt16 hversion]
  · intro data hdata
    obtain rfl := hdata
    exact readsBack_psb3ReadMeta hsize hsections hplaced hfind

end

/-- a process whose tables take everything in, on a machine with a wide `long double` -/
def plainHost : CacheHost Unit where
  doubleOfLd := wideLongDouble.doubleOfLd
  ldOfDouble := wideLongDouble.ldOfDouble
  floatOfFloat := wideLongDouble.floatOfFloat
  doubleOfInt := wideLongDouble.doubleOfInt
  narrow_widen _ := UInt64.ofNat_toNat
  frontendGetKind := .shell
  linkAndVerify := some
  findProcedureScope _ _ := some ()
  defineRoutine _ _ := ()
  bindConstGlobal _ _ _ _ := ()
  insertType _ _ _ := ()

/-- the chunk of a function without code -/
def emptyChunk : CachedChunk ShellFunction where
  version := 9
  frontendKind := .shell
  code := []
  cacheCount := 0
  lines := []
  constants := []
  builtinLowercaseIndices := none

/-- a chunk whose constants are a `long double` of more than 64 bits and a function -/
def wideConstant : CachedChunk ShellFunction where
  version := 9
  frontendKind := .pascal
  code := [1]
  cacheCount := 0
  lines := [7]
  constants := [.longDouble (2 ^ 64), .pointer (some (.function (some (.mk emptyChunk))))]
  builtinLowercaseIndices := some [-1, 0]

def nestedTables : SymbolTables where
  procedures :=
    [{ name := CString.ofBuffer [112], bytecodeAddress := 0, localsCount := 2, type := 0, arity := 1
       closureCaptures := false, closureEscapes := false, enclosing := some (CString.ofBuffer [113])
       upvalues := [{ index := 0, isLocal := true, isRef := false }] }]
  types := [{ name := CString.ofBuffer [116], typeAst := recordTypeAst }]

theorem nestedTables_storable (V : CacheValue ShellFunction → Prop) {levels : Nat}
    (h : recordTypeAst.Within levels) : nestedTables.Storable plainHost V levels where
  procedures_lt := by decide
  procedures := by
    intro e he
    obtain rfl := mem_singleton.mp he
    refine ⟨by decide, fun name hname => ?_, by decide⟩
    obtain rfl := some.inj hname
    decide
  entered _ := ⟨(), rfl⟩
  constGlobals_lt := by decide
  constGlobals _ hc := absurd hc not_mem_nil
  types_lt := by decide
  types := by
    intro e he
    obtain rfl := mem_singleton.mp he
    exact ⟨by decide, h, rfl⟩

theorem emptyChunk_storable (V : CacheValue ShellFunction → Prop) : emptyChunk.Storable V where
  code_le := by decide
  cacheCount_nonneg := by decide
  cacheCount_le := by decide
  lines_length := rfl
  constants_lt := by decide
  constants _ hv := absurd hv not_mem_nil
  indices_length _ hl := absurd hl.symm (some_ne_none _)

theorem TypeAst.Within.mono {levels : Nat} {t : TypeAst} (h : t.Within levels) :
    t.Within (levels + 1) := by
  induction levels generalizing t with
  | zero => exact False.elim h
  | succ levels ih =>
    cases t with
    | null => trivial
    | node =>
      obtain ⟨htok, hl, hr, he, hlen, hc⟩ := h
      exact ⟨htok, ih hl, ih hr, ih he, hlen, fun child hmem => ih (hc child hmem)⟩

theorem wideConstant_storable :
    wideConstant.Storable (StorableValue plainHost nestedTables 1 cacheMaxNesting) where
  code_le := by decide
  cacheCount_nonneg := by decide
  cacheCount_le := by decide
  lines_length := rfl
  constants_lt := by decide
  constants := by
    intro v hv
    rcases mem_cons.mp hv with rfl | hv
    · exact ⟨trivial, trivial⟩
    · obtain rfl := mem_singleton.mp hv
      refine ⟨fun p hp => ?_, ?_⟩
      · obtain rfl := some.inj hp
        intro f _ bs hbs
        cases hbs
      · refine ⟨emptyChunk_storable _, nestedTables_storable _ ?_, fun _ _ _ => rfl⟩
        exact within_recordTypeAst.mono
  indices_length := by
    intro l hl
    obtain rfl := some.inj hl
    rfl

theorem within_recordTypeAst_max : recordTypeAst.Within cacheMaxNesting :=
  within_recordTypeAst.mono.mono

theorem not_sameStored_wide {v : CacheValue ShellFunction}
    (h : SameStored plainHost nestedTables 1 cacheMaxNesting (.longDouble (2 ^ 64)) v) :
    v ≠ .longDouble (2 ^ 64) := by
  obtain ⟨w, hw, hsame⟩ := h
  obtain rfl := hw
  cases hsame with
  | longDouble bits =>
    intro heq
    have hbits := CacheValue.longDouble.inj heq
    exact absurd hbits (by decide +kernel)

theorem psb3Write_wideConstant : ∃ file, file.length < 2 ^ 32 ∧
    psb3Write (functionOps plainHost nestedTables 1) nestedTables wideConstant none = some file :=
  ⟨_, by decide +kernel, rfl⟩

theorem psb3ReadChunk_wideConstant : ∃ file pf chunk' tables' s,
      psb3Write (functionOps plainHost nestedTables 1) nestedTables wideConstant none = some file ∧
        psb3ParseHeader file = .ok pf ∧
        psb3ReadChunk plainHost (functionOps plainHost nestedTables 1) cacheMaxNesting pf
          { rest := [] } () = (some (chunk', tables'), { rest := [] }, s) ∧
        chunk' ≠ wideConstant := by
  obtain ⟨file, hsize, hw⟩ := psb3Write_wideConstant
  obtain ⟨sections, pf, hsections, hparse, hvm, hkind, -, -, hfind⟩ := psb3Write_layout hsize hw
  have hversion : pf.vmVersion.toUInt32 = wideConstant.version := by
    rw [hvm, toUInt32_toUInt16 (by decide)]
  obtain ⟨chunk', tables', hsame, -, -, hread⟩ := readsBack_psb3ReadChunk wideConstant_storable
    (nestedTables_storable _ within_recordTypeAst_max) (fun v hv p hp => readsBack_stored hv hp)
    hversion hkind hsections hfind
  obtain ⟨s, hs⟩ := hread ()
  refine ⟨file, pf, chunk', tables', s, hw, hparse, hs [], ?_⟩
  rintro rfl
  cases hsame.constants with
  | cons hwide _ => exact not_sameStored_wide hwide rfl

theorem psb3Write_roundTrip_wideConstant : ∃ file sections pf,
      psb3Write (functionOps plainHost nestedTables 1) nestedTables wideConstant none = some file ∧
      psb3Sections (functionOps plainHost nestedTables 1) nestedTables wideConstant none
        = some sections ∧
      psb3ParseHeader file = .ok pf ∧ (∀ p ∈ sections, psb3FindSection pf p.1 = some p.2) ∧
      ∃ chunk' tables',
        SameChunk (SameStored plainHost nestedTables 1 cacheMaxNesting) wideConstant chunk' ∧
        ReadsBack (psb3ReadChunk plainHost (functionOps plainHost nestedTables 1) cacheMaxNesting
          pf) [] (chunk', tables') := by
  obtain ⟨file, hsize, hw⟩ := psb3Write_wideConstant
  obtain ⟨sections, pf, hsections, hparse, -, -, -, hfind, ⟨chunk', tables', hsame, -, -, hread⟩,
    -⟩ := psb3Write_roundTrip wideConstant_storable
      (nestedTables_storable _ within_recordTypeAst_max) (by decide) hsize hw
  exact ⟨file, sections, pf, hw, hsections, hparse, hfind, chunk', tables', hsame, hread⟩

end Pscal
