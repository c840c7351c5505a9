import Pscal.Paths.Truncate

/-!
# Where a name leads

* `normalizeAbsolute_ok`  the buffer of the normalization holds the normal form;
* `prefixMatch_iff`  a prefix match cuts a path at a slash;
* `Confined`, `WellSpelled`  the places a name may lead to, and the spellings whose raw text is of
  the class of their normal form;
* `pathTruncateExpand_confined`  those lead to one place, and to an allowed one.
-/

namespace Pscal.Paths

open Option
open Wire (Bytes)
open LexicalPath

/-! ## normalization -/

inductive Anchored : List Bytes → List Nat → Prop where
  | root : Anchored [] []
  | push {l : List Bytes} {anchors : List Nat} (s : Bytes) (h : Anchored l anchors) :
      Anchored (l ++ [s]) ((render l).length :: anchors)

variable {anchors : List Nat} {l : List Bytes} {s : Bytes}

theorem Anchored.length (h : Anchored l anchors) : anchors.length = l.length := by
  induction h with
  | root => rfl
  | push s _ ih => rw [List.length_cons, ih, List.length_append]; rfl

theorem render_append (l : List Bytes) (s : Bytes) :
    render (l ++ [s]) = (if l = [] then [slash] else render l ++ [slash]) ++ s := by
  rw [render, if_neg (by simp), tail_append, tail_cons]
  split
  · next h =>
    rw [h]
    show [] ++ (slash :: (s ++ [])) = _
    rw [List.nil_append, List.append_nil]
    rfl
  · next h =>
    rw [render, if_neg h, List.append_assoc]
    show _ ++ (slash :: (s ++ [])) = _
    rw [List.append_nil]
    rfl

theorem one_lt_length_render (h : ∀ s ∈ l, Plain s) : 1 < (render l).length ↔ l ≠ [] := by
  cases l with
  | nil => exact ⟨fun h => absurd h (by decide), fun h => absurd rfl h⟩
  | cons s l =>
    refine ⟨fun _ => List.cons_ne_nil _ _, fun _ => ?_⟩
    rw [render, if_neg (List.cons_ne_nil _ _), tail_cons, List.length_cons, List.length_append]
    have := List.length_pos_iff.mpr (h s List.mem_cons_self).1.1
    omega

theorem take_render_append (l : List Bytes) (s : Bytes) :
    (render (l ++ [s])).take (render l).length = render l := by
  rw [render_append]
  split
  · next h =>
    rw [h]
    rfl
  · rw [List.append_assoc, List.take_left]

variable {pathMax outSize : Nat}

theorem normalizeSegment_plain (hl : ∀ s ∈ l, Plain s) (hs : Plain s) (h : Anchored l anchors) :
    normalizeSegment pathMax outSize ⟨render l, anchors⟩ s =
      if pathMax / 2 ≤ l.length then .error .ENAMETOOLONG
      else if (render (l ++ [s])).length < outSize then
        .ok ⟨render (l ++ [s]), (render l).length :: anchors⟩
      else .error .ENAMETOOLONG := by
  obtain ⟨hseg, hdot, hdotDot⟩ := hs
  have hs0 : 0 < s.length := List.length_pos_iff.mpr hseg.1
  rw [render_append]
  unfold normalizeSegment
  rw [if_neg hdot, if_neg hdotDot]
  simp only [h.length, ge_iff_le]
  by_cases hdepth : pathMax / 2 ≤ l.length
  · rw [if_pos hdepth, if_pos hdepth]
  rw [if_neg hdepth, if_neg hdepth]
  by_cases hnil : l = []
  · subst hnil
    have hlen : (render []).length = 1 := rfl
    simp only [hlen, gt_iff_lt, Nat.lt_irrefl, false_and, if_false, if_true, List.length_append]
    have hone : ([slash] : Bytes).length = 1 := rfl
    have hroot : (render ([] : List Bytes)) = [slash] := rfl
    rw [hroot, hone]
    by_cases hroom : 1 + s.length < outSize
    · rw [if_neg (by omega), if_pos hroom]
    · rw [if_pos (by omega), if_neg hroom]
  · have hone : 1 < (render l).length := (one_lt_length_render hl).mpr hnil
    simp only [hone, gt_iff_lt, true_and, if_true, if_neg hnil, List.length_append,
      List.length_singleton]
    by_cases hroom : (render l).length + 1 + s.length < outSize
    · rw [if_neg (by omega), if_neg (by omega), if_pos (by omega), if_pos hroom]
      rfl
    · rw [if_neg hroom]
      split
      · rfl
      · rw [if_pos (by omega)]

theorem normalizeSegment_ok (hl : ∀ s ∈ l, Plain s) (hs : IsSegment s) (h : Anchored l anchors)
    {st : Normalizing} (hok : normalizeSegment pathMax outSize ⟨render l, anchors⟩ s = .ok st)
    (hbound : (render l).length < outSize ∧ l.length ≤ pathMax / 2) :
    st.out = render (push l s) ∧ Anchored (push l s) st.anchors ∧
      (render (push l s)).length < outSize ∧ (push l s).length ≤ pathMax / 2 := by
  unfold push
  by_cases hdot : s = dot
  · rw [normalizeSegment, if_pos hdot] at hok
    rw [if_pos hdot]
    obtain rfl := Except.ok.inj hok
    exact ⟨rfl, h, hbound⟩
  by_cases hdotDot : s = dotDot
  · rw [normalizeSegment, if_neg hdot, if_pos hdotDot] at hok
    rw [if_neg hdot, if_pos hdotDot]
    cases h with
    | root =>
      obtain rfl := Except.ok.inj hok
      exact ⟨rfl, .root, hbound⟩
    | @push l' anchors' s' h' =>
      obtain rfl := Except.ok.inj hok
      have htake := take_render_append l' s'
      rw [List.dropLast_concat]
      refine ⟨htake, h', ?_, ?_⟩
      · have hlen := congrArg List.length htake
        rw [List.length_take] at hlen
        omega
      · have hdepth := hbound.2
        rw [List.length_append] at hdepth
        omega
  · rw [normalizeSegment_plain hl ⟨hs, hdot, hdotDot⟩ h] at hok
    rw [if_neg hdot, if_neg hdotDot]
    split at hok
    · exact absurd hok (by simp)
    · next hdepth =>
      split at hok
      · next hroom =>
        obtain rfl := Except.ok.inj hok
        refine ⟨rfl, h.push s, hroom, ?_⟩
        rw [List.length_append, List.length_singleton]
        omega
      · exact absurd hok (by simp)

theorem plain_push (hl : ∀ s ∈ l, Plain s) (hs : IsSegment s) : ∀ s' ∈ push l s, Plain s' := by
  show ∀ s' ∈ [s].foldl push l, Plain s'
  exact plain_foldl hl fun s' hs' => List.mem_singleton.mp hs' ▸ hs

theorem normalize_foldlM {segs : List Bytes} (hl : ∀ s ∈ l, Plain s)
    (hsegs : ∀ s ∈ segs, IsSegment s) (h : Anchored l anchors) {st : Normalizing}
    (hok : segs.foldlM (normalizeSegment pathMax outSize) ⟨render l, anchors⟩ = .ok st)
    (hbound : (render l).length < outSize ∧ l.length ≤ pathMax / 2) :
    st.out = render (segs.foldl push l) ∧ (render (segs.foldl push l)).length < outSize ∧
      (segs.foldl push l).length ≤ pathMax / 2 := by
  induction segs generalizing l anchors with
  | nil =>
    obtain rfl := Except.ok.inj hok
    exact ⟨rfl, hbound⟩
  | cons s segs ih =>
    rw [List.foldlM_cons] at hok
    have hs := hsegs s List.mem_cons_self
    cases hstep : normalizeSegment pathMax outSize ⟨render l, anchors⟩ s with
    | error e =>
      rw [hstep] at hok
      exact absurd hok (by simp [bind, Except.bind])
    | ok st' =>
      rw [hstep] at hok
      obtain ⟨hout, hanchors, hbound'⟩ := normalizeSegment_ok hl hs h hstep hbound
      obtain ⟨out, anchors'⟩ := st'
      obtain rfl : out = render (push l s) := hout
      exact ih (plain_push hl hs) (fun s' hs' => hsegs s' (List.mem_cons_of_mem _ hs')) hanchors hok
        hbound'

theorem normalizeAbsolute_ok {input out : Bytes}
    (h : pathTruncateNormalizeAbsolute pathMax input outSize = .ok out) :
    out = normalForm input ∧ input.head? = some slash ∧ out.length < outSize ∧
      (segments out).length ≤ pathMax / 2 := by
  unfold pathTruncateNormalizeAbsolute at h
  split at h
  · exact absurd h (by simp)
  next hsize =>
  split at h
  · exact absurd h (by simp)
  next hslash =>
  cases hfold : (segments input).foldlM (normalizeSegment pathMax outSize) ⟨[slash], []⟩ with
  | error e =>
    rw [hfold] at h
    exact absurd h (by simp [bind, Except.bind])
  | ok st =>
    rw [hfold] at h
    obtain rfl := Except.ok.inj h
    have hone : (render []).length < outSize := by
      show 1 < outSize
      omega
    obtain ⟨hout, hlen, hdepth⟩ := normalize_foldlM (by simp)
      (fun _ hs => isSegment_of_mem hs) Anchored.root hfold ⟨hone, Nat.zero_le _⟩
    refine ⟨hout, not_not.mp hslash, hout ▸ hlen, ?_⟩
    have hsegs : segments st.out = resolve (segments input) := by
      rw [hout]
      exact segments_normalForm input
    rw [hsegs]
    exact hdepth

/-! ## matches -/

theorem atBoundary_iff : atBoundary s = true ↔ AtBoundary s := by
  unfold atBoundary AtBoundary
  cases s.head? <;> simp

theorem prefixMatch_iff {path pre : Bytes} : pathTruncatePrefixMatch path pre = true ↔
    pre ≠ [] ∧ ∃ s, path = pre ++ s ∧ AtBoundary s := by
  unfold pathTruncatePrefixMatch
  rw [Bool.and_eq_true, Bool.and_eq_true, List.isPrefixOf_iff_prefix, atBoundary_iff,
    decide_eq_true_iff]
  constructor
  · rintro ⟨⟨hne, s, rfl⟩, hs⟩
    rw [List.drop_left] at hs
    exact ⟨hne, s, rfl, hs⟩
  · rintro ⟨hne, s, rfl, hs⟩
    rw [List.drop_left]
    exact ⟨⟨hne, List.prefix_append _ _⟩, hs⟩

theorem drop_of_prefixMatch {path pre : Bytes} (hpath : Normal path)
    (h : pathTruncatePrefixMatch path pre = true) :
    ∃ l, path = pre ++ tail l ∧ path.drop pre.length = tail l ∧ ∀ s ∈ l, Plain s := by
  obtain ⟨hne, s, heq, hs⟩ := prefixMatch_iff.mp h
  obtain ⟨l, rfl, hl⟩ := hpath.suffix heq hne hs
  refine ⟨l, heq, ?_, hl⟩
  rw [heq, List.drop_left]

/-! ## places -/

section
variable (w : PathWorld) (stored : StoredPrefix)

/-- where a host path may be, if `path` is what its mount was chosen for -/
inductive Confined (path host : Bytes) : Prop where
  | underPrefix (h : Under host stored.primary)
  | underSource (m : MountEntry) (hm : mountOver w.mounts path = some m) (h : Under host m.source)
  | underEtcRoot (root : Bytes) (hroot : w.etcRoot = some root) (h : Under host root)
  | passes (h : w.passesThrough (normalForm host) = true)

/-- the raw text is of the class of its normal form, and the buffers hold it -/
inductive WellSpelled (p : Bytes) : Prop where
  | passes (h : w.passesThrough p = true) (hnormal : Normal p)
  | mapped (h : w.passesThrough p = false) (hn : w.passesThrough (normalForm p) = false)
      (hok : (pathTruncateNormalizeAbsolute w.pathMax p w.pathMax).isOk = true)
      (hfd : pathTruncatePrefixMatch (normalForm p) (ascii "/dev/fd") = true →
        (normalForm p).length + 7 ≤ w.pathMax)

variable {w stored}

theorem mountPath_under {source : Bytes} {l : List Bytes} (hl : ∀ s ∈ l, Plain s) :
    Under (mountPath source (tail l)) source := by
  unfold mountPath
  split
  · next h =>
    rw [h]
    exact List.nil_prefix
  · exact under_append source hl

variable {host path p : Bytes}

theorem copyString_ok {source : Bytes} {outSize : Nat}
    (h : pathTruncateCopyString source outSize = .ok host) : host = source := by
  unfold pathTruncateCopyString at h
  split at h
  · exact absurd h (by simp)
  · exact (Except.ok.inj h).symm

def StoredPrefix.spelling (stored : StoredPrefix) : PrefixMatched → Bytes
  | .primary => stored.primary
  | .«alias» => stored.«alias»

theorem matchesStored_some {m : PrefixMatched} {n : Nat}
    (h : pathTruncateMatchesStoredPrefix stored path = some (m, n)) :
    pathTruncatePrefixMatch path (stored.spelling m) = true ∧ n = (stored.spelling m).length := by
  unfold pathTruncateMatchesStoredPrefix at h
  split at h
  · exact absurd h (by simp)
  split at h
  · next hprimary =>
    obtain ⟨rfl, rfl⟩ := Prod.mk.inj (some.inj h)
    exact ⟨hprimary, rfl⟩
  split at h
  · next halias =>
    obtain ⟨rfl, rfl⟩ := Prod.mk.inj (some.inj h)
    exact ⟨halias, rfl⟩
  · exact absurd h (by simp)

theorem tail_of_trimmed {l : List Bytes} (hl : ∀ s ∈ l, Plain s)
    (h : (render l).dropWhile (· = slash) ≠ []) :
    slash :: (render l).dropWhile (· = slash) = tail l := by
  cases l with
  | nil => exact absurd rfl h
  | cons s l =>
    have hs : IsSegment s := (hl s List.mem_cons_self).1
    obtain ⟨c, s', rfl⟩ := List.exists_cons_of_ne_nil hs.1
    have hc : c ≠ slash := fun hc => hs.2 (hc ▸ List.mem_cons_self)
    rw [render, if_neg (List.cons_ne_nil _ _), tail_cons, List.dropWhile_cons, if_pos (by simp),
      List.cons_append, List.dropWhile_cons, if_neg (by simpa using hc)]

theorem prefixedPath_under {outSize : Nat} (hpath : Normal path)
    (h : prefixedPath stored path outSize = .ok host) : Under host stored.primary := by
  unfold prefixedPath at h
  split at h
  · next hm =>
    obtain ⟨l, heq, -, hl⟩ := drop_of_prefixMatch hpath (matchesStored_some hm).1
    rw [copyString_ok h, heq]
    exact under_append _ hl
  · next matchedLen hm =>
    obtain ⟨hmatch, rfl⟩ := matchesStored_some hm
    obtain ⟨l, -, hdrop, hl⟩ := drop_of_prefixMatch hpath hmatch
    rw [copyString_ok h, hdrop]
    exact under_append _ hl
  · dsimp only at h
    split at h
    · rw [copyString_ok h]
      exact under_refl _
    · next hne =>
      rw [copyString_ok h, List.append_assoc]
      show Under (stored.primary ++ slash :: path.dropWhile (· = slash)) _
      rw [hpath.eq_render] at hne ⊢
      rw [tail_of_trimmed hpath.plain hne]
      exact under_append _ hpath.plain

/-! ## the path that is looked up -/

theorem ascii_procFd : Normal (ascii "/proc/self/fd") := by decide

theorem procFd_normal {n : Bytes} (hn : Normal n)
    (hfd : pathTruncatePrefixMatch n (ascii "/dev/fd") = true → n.length + 7 ≤ w.pathMax) :
    Normal (w.procFd n) := by
  unfold PathWorld.procFd
  split
  · next h =>
    obtain ⟨l, heq, hdrop, hl⟩ := drop_of_prefixMatch hn h
    have hlen := congrArg List.length heq
    have h7 : (ascii "/dev/fd").length = 7 := rfl
    have h13 : (ascii "/proc/self/fd").length = 13 := rfl
    rw [List.length_append, h7] at hlen
    have hfd' := hfd h
    rw [show n.drop 7 = tail l from hdrop, List.take_of_length_le]
    · exact ascii_procFd.append (by decide) hl
    · rw [List.length_append, h13]
      omega
  · exact hn

theorem isOk_iff {α ε : Type} {x : Except ε α} : x.isOk = true ↔ ∃ a, x = .ok a := by
  cases x with
  | error e => exact ⟨fun h => Bool.noConfusion h, fun ⟨a, h⟩ => absurd h (by simp)⟩
  | ok a => exact ⟨fun _ => ⟨a, rfl⟩, fun _ => rfl⟩

theorem sourcePath_eq (hok : (pathTruncateNormalizeAbsolute w.pathMax p w.pathMax).isOk = true) :
    w.sourcePath p = w.procFd (normalForm p) := by
  obtain ⟨out, hout⟩ := isOk_iff.mp hok
  rw [PathWorld.sourcePath, hout, ← (normalizeAbsolute_ok hout).1]
  rfl

/-! ## expanding -/

theorem mountOver_some {mounts : List MountEntry} {m : MountEntry}
    (h : mountOver mounts path = some m) :
    m ∈ mounts ∧ pathTruncatePrefixMatch path m.target = true := by
  unfold mountOver at h
  exact ⟨List.mem_of_find?_eq_some h, by simpa using List.find?_some h⟩

theorem resolveMounted_some {mounts : List MountEntry} {outSize : Nat}
    (h : pathTruncateResolveMountedPath mounts path outSize = some host) :
    ∃ m, mountOver mounts path = some m ∧
      host = mountPath m.source (path.drop m.target.length) := by
  unfold pathTruncateResolveMountedPath at h
  split at h
  · exact absurd h (by simp)
  · next m hm =>
    refine ⟨m, hm, ?_⟩
    unfold fits at h
    split at h
    · exact (some.inj h).symm
    · exact absurd h (by simp)

theorem etcSuffix_some {suffix : Bytes} (hpath : Normal path) (h : etcSuffix path = some suffix) :
    ∃ l, suffix = tail l ∧ ∀ s ∈ l, Plain s := by
  unfold etcSuffix at h
  split at h
  · next hm =>
    obtain ⟨l, -, hdrop, hl⟩ := drop_of_prefixMatch hpath hm
    exact ⟨l, (some.inj h).symm.trans hdrop, hl⟩
  · split at h
    · next hm =>
      obtain ⟨l, -, hdrop, hl⟩ := drop_of_prefixMatch hpath hm
      exact ⟨l, (some.inj h).symm.trans hdrop, hl⟩
    · exact absurd h (by simp)

theorem mappedPath_confined {outSize : Nat} (hpath : Normal path)
    (h : w.mappedPath stored path outSize = .ok host) : Confined w stored path host := by
  unfold PathWorld.mappedPath at h
  split at h
  · next root suffix hroot hsuffix =>
    obtain ⟨l, rfl, hl⟩ := etcSuffix_some hpath hsuffix
    refine .underEtcRoot root hroot ?_
    rw [copyString_ok h]
    exact under_append _ hl
  · split at h
    · next host' hmount =>
      obtain ⟨m, hm, rfl⟩ := resolveMounted_some hmount
      obtain ⟨l, -, hdrop, hl⟩ := drop_of_prefixMatch hpath (mountOver_some hm).2
      refine .underSource m hm ?_
      rw [← Except.ok.inj h, hdrop]
      exact mountPath_under hl
    · exact .underPrefix (prefixedPath_under hpath h)

theorem expand_passes (hpre : w.pathTruncateFetchPrefix = some stored)
    (h : w.passesThrough p = true) {outSize : Nat} (hsize : outSize ≠ 0) :
    w.pathTruncateExpand p outSize = pathTruncateCopyString p outSize := by
  rw [PathWorld.pathTruncateExpand, if_neg hsize, hpre]
  simp only [h, Bool.or_true, if_true]

theorem expand_mapped (hpre : w.pathTruncateFetchPrefix = some stored) (habs : isAbsolute p = true)
    (h : w.passesThrough p = false)
    (hok : (pathTruncateNormalizeAbsolute w.pathMax p w.pathMax).isOk = true) {outSize : Nat}
    (hsize : outSize ≠ 0) :
    w.pathTruncateExpand p outSize = w.mappedPath stored (w.procFd (normalForm p)) outSize := by
  rw [PathWorld.pathTruncateExpand, if_neg hsize, hpre, ← sourcePath_eq hok]
  simp only [habs, h, Bool.not_true, Bool.or_false, Bool.false_eq_true, if_false]

end

/-- spellings of one normal form that are of its class lead to one place, and to an allowed one -/
theorem pathTruncateExpand_confined (w : PathWorld) (stored : StoredPrefix)
    (hpre : w.pathTruncateFetchPrefix = some stored) (p : Bytes) (habs : isAbsolute p = true)
    (hp : WellSpelled w p) (outSize : Nat) :
    (∀ q, isAbsolute q = true → WellSpelled w q → normalForm q = normalForm p →
      w.pathTruncateExpand q outSize = w.pathTruncateExpand p outSize) ∧
    ∀ host, w.pathTruncateExpand p outSize = .ok host →
      Confined w stored (w.procFd (normalForm p)) host := by
  by_cases hsize : outSize = 0
  · have herror : ∀ q, w.pathTruncateExpand q outSize = .error .EINVAL := fun q => by
      rw [PathWorld.pathTruncateExpand, if_pos hsize]
    exact ⟨fun q _ _ _ => by rw [herror, herror], fun host h => absurd ((herror p).symm.trans h) (by simp)⟩
  constructor
  · intro q hq hwell hform
    cases hp with
    | passes h hnormal =>
      cases hwell with
      | passes h' hnormal' => rw [← hnormal, ← hnormal', hform]
      | mapped _ hn' =>
        rw [hform, hnormal] at hn'
        exact absurd (hn'.symm.trans h) (by decide)
    | mapped h hn hok =>
      cases hwell with
      | passes h' hnormal' =>
        rw [← hform, hnormal'] at hn
        exact absurd (hn.symm.trans h') (by decide)
      | mapped h' _ hok' =>
        rw [expand_mapped hpre habs h hok hsize, expand_mapped hpre hq h' hok' hsize, hform]
  · intro host hhost
    cases hp with
    | passes h hnormal =>
      rw [expand_passes hpre h hsize] at hhost
      rw [copyString_ok hhost]
      exact .passes (by rw [show normalForm p = p from hnormal]; exact h)
    | mapped h hn hok hfd =>
      rw [expand_mapped hpre habs h hok hsize] at hhost
      exact mappedPath_confined (procFd_normal (normal_normalForm p) hfd) hhost

/-! ## spellings of two classes -/

/-- `PATH_TRUNCATE=/root`, no mounts -/
def rootWorld : PathWorld where
  pathMax := 1024
  getenv name := if name = "PATH_TRUNCATE" then some (ascii "/root") else none
  realpath path := some path
  mounts := []

theorem pathTruncateExpand_confined_notes :
    (∀ q, isAbsolute q = true → WellSpelled rootWorld q →
      normalForm q = normalForm (ascii "/docs/.././/notes") →
      rootWorld.pathTruncateExpand q 1024 =
        rootWorld.pathTruncateExpand (ascii "/docs/.././/notes") 1024) ∧
    ∀ host, rootWorld.pathTruncateExpand (ascii "/docs/.././/notes") 1024 = .ok host →
      Confined rootWorld ⟨ascii "/root", []⟩
        (rootWorld.procFd (normalForm (ascii "/docs/.././/notes"))) host :=
  pathTruncateExpand_confined rootWorld ⟨ascii "/root", []⟩ (by decide +kernel)
    (ascii "/docs/.././/notes") (by decide +kernel)
    (.mapped (by decide +kernel) (by decide +kernel) (by decide +kernel)
      (fun h => absurd h (by decide +kernel))) 1024

/-- a way out: `/usr/../private/x` is handed to the host as it is spelled, and `/private/x`, which
is the same name, is not -/
theorem pathTruncateExpand_escapes :
    rootWorld.pathTruncateFetchPrefix = some ⟨ascii "/root", []⟩ ∧
      isAbsolute (ascii "/usr/../private/x") = true ∧
      normalForm (ascii "/usr/../private/x") = ascii "/private/x" ∧
      rootWorld.pathTruncateExpand (ascii "/usr/../private/x") 1024 =
        .ok (ascii "/usr/../private/x") ∧
      rootWorld.pathTruncateExpand (ascii "/private/x") 1024 = .ok (ascii "/root/private/x") ∧
      ∀ path, ¬ Confined rootWorld ⟨ascii "/root", []⟩ path (ascii "/usr/../private/x") := by
  refine ⟨by decide +kernel, by decide +kernel, by decide +kernel, by decide +kernel,
    by decide +kernel, ?_⟩
  intro path h
  cases h with
  | underPrefix h =>
    have hnot : ¬ resolve (segments (ascii "/root")) <+:
        resolve (segments (ascii "/usr/../private/x")) := by decide +kernel
    exact hnot h
  | underSource m hm => exact absurd hm (by simp [mountOver, rootWorld])
  | underEtcRoot root hroot => exact absurd hroot (by simp [PathWorld.etcRoot, rootWorld])
  | passes h => exact absurd h (by decide +kernel)

end Pscal.Paths
