import Mathlib
import Pscal.Lib.Patch

/-!
# Assembly listings and backpatching

A listing is plain code, jumps to named places, and marks of these places.  A jump holds the
distance from the end of its operand to the place.

* `Item`, `walk`  a listing, and a function of its items with their positions;
* `resolve`  the bytes of a listing, for the places that are known;
* `writeAll_resolve`  when a place gets known, the operands of the jumps to it are written;
* `Tracks`  an assembler that writes such a listing in one pass, with holes for the operands it does
  not know yet: `Tracks.code`, `jump`, `define`, `mark`;
* `Tracks.assembled`  in the end the bytes are those of the listing with all its places.
-/

namespace Assembly

open List Function

variable {β α : Type*}

/-- how an operand is written, and what stands there as long as it is not known -/
structure Format (β : Type*) where
  width : Nat
  width_pos : 0 < width
  operand : Int → List β
  hole : List β
  length_operand : ∀ d, (operand d).length = width
  length_hole : hole.length = width

inductive Item (β α : Type*) where
  | code (bytes : List β)
  /-- `late`: the operand is a hole first -/
  | jump (head : List β) (aim : α) (late : Bool)
  | mark (aim : α)

abbrev Listing (β α : Type*) := List (Item β α)

/-- the operand of a jump -/
structure Site (α : Type*) where
  pos : Nat
  aim : α
  late : Bool
deriving DecidableEq, Repr

section
variable (F : Format β)

def Item.size : Item β α → Nat
  | .code bytes => bytes.length
  | .jump head _ _ => head.length + F.width
  | .mark _ => 0

def size (items : Listing β α) : Nat := (items.map (Item.size F)).sum

/-- what `f` gives for the items, the first of them at `at` -/
def walk {γ : Type*} (f : Nat → Item β α → List γ) : Nat → Listing β α → List γ
  | _, [] => []
  | pos, item :: items => f pos item ++ walk f (pos + item.size F) items

/-- the operand that ends at `stop` -/
def operandTo (target : Option Nat) (stop : Nat) : List β :=
  match target with
  | some t => F.operand ((t : Int) - stop)
  | none => F.hole

def Item.bytes (known : α → Option Nat) (pos : Nat) : Item β α → List β
  | .code bytes => bytes
  | .jump head aim _ => head ++ operandTo F (known aim) (pos + head.length + F.width)
  | .mark _ => []

def resolve (known : α → Option Nat) : Nat → Listing β α → List β := walk F (Item.bytes F known)

def Item.sites (pos : Nat) : Item β α → List (Site α)
  | .jump head aim late => [{ pos := pos + head.length, aim := aim, late := late }]
  | _ => []

def sites : Nat → Listing β α → List (Site α) := walk F Item.sites

def Item.marks (pos : Nat) : Item β α → List (α × Nat)
  | .mark aim => [(aim, pos)]
  | _ => []

def marks : Nat → Listing β α → List (α × Nat) := walk F Item.marks

/-- the holes for the place `aim`, in the order of the listing -/
def holes [DecidableEq α] (aim : α) (pos : Nat) (items : Listing β α) : List Nat :=
  ((sites F pos items).filter fun site => site.late = true ∧ site.aim = aim).map Site.pos

/-- the place of the first mark -/
def target [DecidableEq α] (pos : Nat) (items : Listing β α) (aim : α) : Option Nat :=
  (marks F pos items).lookup aim

end

section
variable {F : Format β} {known : α → Option Nat} {pos : Nat} {items items' : Listing β α}

theorem size_cons (item : Item β α) :
    size F (item :: items) = item.size F + size F items := rfl

theorem size_append : size F (items ++ items') = size F items + size F items' := by
  rw [size, map_append, List.sum_append]
  rfl

theorem walk_append {γ : Type*} {f : Nat → Item β α → List γ} :
    walk F f pos (items ++ items') = walk F f pos items ++ walk F f (pos + size F items) items' := by
  induction items generalizing pos with
  | nil => rfl
  | cons item items ih =>
    rw [cons_append, walk, ih, walk, append_assoc, size_cons, Nat.add_assoc]

theorem resolve_append : resolve F known pos (items ++ items') =
    resolve F known pos items ++ resolve F known (pos + size F items) items' := walk_append

theorem sites_append : sites F pos (items ++ items') =
    sites F pos items ++ sites F (pos + size F items) items' := walk_append

theorem marks_append : marks F pos (items ++ items') =
    marks F pos items ++ marks F (pos + size F items) items' := walk_append

theorem length_operandTo (t : Option Nat) (stop : Nat) : (operandTo F t stop).length = F.width := by
  cases t with
  | none => exact F.length_hole
  | some t => exact F.length_operand _

theorem Item.length_bytes (item : Item β α) : (item.bytes F known pos).length = item.size F := by
  cases item with
  | code bytes => rfl
  | jump head aim late =>
    show (head ++ operandTo F _ _).length = _
    rw [length_append, length_operandTo]
    rfl
  | mark aim => rfl

theorem length_resolve : (resolve F known pos items).length = size F items := by
  induction items generalizing pos with
  | nil => rfl
  | cons item items ih =>
    show (item.bytes F known pos ++ resolve F known _ items).length = _
    rw [length_append, Item.length_bytes, ih, size_cons]

variable {site : Site α} {aim : α}

theorem site_bounds (h : site ∈ sites F pos items) :
    pos ≤ site.pos ∧ site.pos + F.width ≤ pos + size F items := by
  induction items generalizing pos with
  | nil => cases h
  | cons item items ih =>
    rw [size_cons]
    rcases mem_append.mp (show site ∈ item.sites pos ++ sites F _ items from h) with h | h
    · cases item with
      | code bytes => cases h
      | mark aim => cases h
      | jump head aim late =>
        obtain rfl := mem_singleton.mp h
        have hsize : (Item.jump head aim late : Item β α).size F = head.length + F.width := rfl
        show pos ≤ pos + head.length ∧ pos + head.length + F.width ≤ _
        omega
    · have := ih h
      omega

theorem mark_bounds {t : Nat} (h : (aim, t) ∈ marks F pos items) :
    pos ≤ t ∧ t ≤ pos + size F items := by
  induction items generalizing pos with
  | nil => cases h
  | cons item items ih =>
    rw [size_cons]
    rcases mem_append.mp (show (aim, t) ∈ item.marks pos ++ marks F _ items from h) with h | h
    · cases item with
      | code bytes => cases h
      | jump head aim late => cases h
      | mark aim' =>
        cases mem_singleton.mp h
        omega
    · have := ih h
      omega

theorem sites_apart : (sites F pos items).Pairwise fun s s' => s.pos + F.width ≤ s'.pos := by
  induction items generalizing pos with
  | nil => exact .nil
  | cons item items ih =>
    cases item with
    | code bytes => exact ih
    | mark aim => exact ih
    | jump head aim late =>
      refine pairwise_cons.mpr ⟨fun site hsite => ?_, ih⟩
      have hbounds := site_bounds hsite
      have hsize : (Item.jump head aim late : Item β α).size F = head.length + F.width := rfl
      show pos + head.length + F.width ≤ site.pos
      omega

theorem site_eq {s s' : Site α} (hs : s ∈ sites F pos items) (hs' : s' ∈ sites F pos items)
    (h : s.pos = s'.pos) : s = s' := by
  have hpos := F.width_pos
  have hnodup : ((sites F pos items).map Site.pos).Nodup :=
    pairwise_map.mpr (sites_apart.imp fun hle => by omega)
  exact inj_on_of_nodup_map hnodup hs hs' h

theorem nodup_holes [DecidableEq α] : (holes F aim pos items).Nodup := by
  have hpos := F.width_pos
  refine pairwise_map.mpr ((sites_apart.filter _).imp fun hle => ?_)
  omega

theorem mem_holes [DecidableEq α] {p : Nat} : p ∈ holes F aim pos items ↔
      ∃ site ∈ sites F pos items, site.late = true ∧ site.aim = aim ∧ site.pos = p := by
  rw [holes, List.mem_map]
  refine exists_congr fun site => ?_
  rw [mem_filter, decide_eq_true_iff, and_assoc, and_assoc]

theorem count_holes [DecidableEq α] (h : site ∈ sites F pos items) (hlate : site.late = true)
    (aim : α) : (holes F aim pos items).count site.pos = if site.aim = aim then 1 else 0 := by
  split
  · next haim =>
    exact count_eq_one_of_mem nodup_holes (mem_holes.mpr ⟨site, h, hlate, haim, rfl⟩)
  · next haim =>
    refine count_eq_zero_of_not_mem fun hmem => haim ?_
    obtain ⟨site', h', _, haim', hpos⟩ := mem_holes.mp hmem
    rw [site_eq h h' hpos.symm, haim']

theorem resolve_site (known : α → Option Nat) (h : site ∈ sites F pos items) :
    ∃ before rest, resolve F known pos items =
        before ++ (operandTo F (known site.aim) (site.pos + F.width) ++ rest) ∧
      pos + before.length = site.pos := by
  induction items generalizing pos with
  | nil => cases h
  | cons item items ih =>
    rcases mem_append.mp (show site ∈ item.sites pos ++ sites F _ items from h) with h | h
    · cases item with
      | code bytes => cases h
      | mark aim => cases h
      | jump head aim late =>
        obtain rfl := mem_singleton.mp h
        refine ⟨head, resolve F known (pos + (Item.jump head aim late).size F) items, ?_, rfl⟩
        show (head ++ operandTo F (known aim) _) ++ resolve F known _ items = _
        rw [append_assoc]
    · obtain ⟨before, rest, hbytes, hpos⟩ := ih h
      refine ⟨item.bytes F known pos ++ before, rest, ?_, ?_⟩
      · show item.bytes F known pos ++ resolve F known _ items = _
        rw [hbytes, append_assoc]
      · rw [length_append, Item.length_bytes, ← Nat.add_assoc]
        exact hpos

theorem resolve_congr {known' : α → Option Nat}
    (h : ∀ site ∈ sites F pos items, known site.aim = known' site.aim) :
    resolve F known pos items = resolve F known' pos items := by
  induction items generalizing pos with
  | nil => rfl
  | cons item items ih =>
    have hitem : item.bytes F known pos = item.bytes F known' pos := by
      cases item with
      | code bytes => rfl
      | mark aim => rfl
      | jump head aim late =>
        have haim := h { pos := pos + head.length, aim := aim, late := late }
          (mem_append_left _ mem_cons_self)
        show head ++ operandTo F (known aim) _ = head ++ operandTo F (known' aim) _
        rw [show known aim = known' aim from haim]
    show item.bytes F known pos ++ resolve F known _ items =
      item.bytes F known' pos ++ resolve F known' _ items
    rw [hitem, ih fun site hsite => h site (mem_append_right _ hsite)]

theorem mem_of_target [DecidableEq α] {t : Nat} (h : target F pos items aim = some t) :
    (aim, t) ∈ marks F pos items := by
  obtain ⟨l₁, l₂, hl, _⟩ := List.lookup_eq_some_iff.mp h
  rw [hl]
  exact mem_append_right _ mem_cons_self

end

/-! ## a place gets known -/

theorem write_middle {xs ys ys' zs : List β} {pos : Nat} (hpos : xs.length = pos)
    (h : ys'.length = ys.length) : Patch.write (xs ++ (ys ++ zs)) pos ys' = xs ++ (ys' ++ zs) := by
  rw [Patch.write, ← hpos, take_left, drop_append, drop_eq_nil_of_le (by omega), h,
    Nat.add_sub_cancel_left, drop_left, nil_append, append_assoc]

theorem write_operand {p q r s t : List β} {pos : Nat}
    (hpos : (p ++ q).length = pos) (h : s.length = r.length) :
    Patch.write (p ++ ((q ++ r) ++ t)) pos s = p ++ ((q ++ s) ++ t) := by
  have hassoc : ∀ ys : List β, p ++ ((q ++ ys) ++ t) = (p ++ q) ++ (ys ++ t) :=
    fun ys => by simp only [append_assoc]
  rw [hassoc, hassoc, write_middle hpos h]

section
variable [DecidableEq α] (F : Format β) (known : α → Option Nat) (aim : α) (t : Nat)

/-- the writes that fill holes -/
def fills (holes : List Nat) : List (Nat × List β) :=
  holes.map fun p => (p, F.operand ((t : Int) - ((p + F.width : Nat) : Int)))

theorem writeAll_resolve {items : Listing β α} {pos : Nat} (done : List β)
    (hpos : done.length = pos)
    (hlate : ∀ site ∈ sites F pos items, site.aim = aim → site.late = true) :
    Patch.writeAll (done ++ resolve F known pos items) (fills F t (holes F aim pos items)) =
      done ++ resolve F (update known aim (some t)) pos items := by
  induction items generalizing pos done with
  | nil => rfl
  | cons item items ih =>
    have hrest : ∀ site ∈ sites F (pos + item.size F) items, site.aim = aim → site.late = true :=
      fun site hsite => hlate site (mem_append_right _ hsite)
    -- the item is done: go on behind it
    have hnext : ∀ bytes : List β, bytes.length = item.size F →
        item.bytes F (update known aim (some t)) pos = bytes →
        Patch.writeAll (done ++ (bytes ++ resolve F known (pos + item.size F) items))
          (fills F t (holes F aim (pos + item.size F) items)) =
        done ++ (item.bytes F (update known aim (some t)) pos ++
          resolve F (update known aim (some t)) (pos + item.size F) items) := by
      intro bytes hlen hbytes
      have hdone : (done ++ bytes).length = pos + item.size F := by
        rw [length_append, hpos, hlen]
      rw [hbytes, ← append_assoc, ← append_assoc]
      exact ih _ hdone hrest
    cases item with
    | code bytes => exact hnext bytes rfl rfl
    | mark place => exact hnext [] rfl rfl
    | jump head place late =>
      have hsize : (Item.jump head place late : Item β α).size F = head.length + F.width := rfl
      by_cases hplace : place = aim
      · subst hplace
        have htrue : late = true := hlate ⟨pos + head.length, place, late⟩
          (mem_append_left _ mem_cons_self) rfl
        subst htrue
        have hholes : holes F place pos (.jump head place true :: items) =
            (pos + head.length) :: holes F place (pos + (head.length + F.width)) items := by
          show ((_ :: sites F _ items).filter _).map _ = _
          rw [filter_cons_of_pos (by simp), map_cons]
          rfl
        have hbytes : (Item.jump head place true).bytes F (update known place (some t)) pos =
            head ++ F.operand ((t : Int) - ((pos + head.length + F.width : Nat) : Int)) := by
          show head ++ operandTo F (update known place (some t) place) _ = _
          rw [update_self]
          rfl
        have hlen : (F.operand ((t : Int) - ((pos + head.length + F.width : Nat) : Int))).length =
            (operandTo F (known place) (pos + head.length + F.width)).length := by
          rw [F.length_operand, length_operandTo]
        rw [hholes, fills, map_cons, Patch.writeAll_cons]
        have hat : (done ++ head).length = pos + head.length := by rw [length_append, hpos]
        show Patch.writeAll (Patch.write (done ++ ((head ++ operandTo F (known place) _) ++
          resolve F known _ items)) (pos + head.length) _) (fills F t _) = _
        rw [write_operand hat hlen]
        refine hnext _ ?_ hbytes
        rw [length_append, F.length_operand]
        rfl
      · have hbytes : (Item.jump head place late).bytes F (update known aim (some t)) pos =
            (Item.jump head place late).bytes F known pos := by
          show head ++ operandTo F (update known aim (some t) place) _ = _
          rw [update_of_ne hplace]
          rfl
        have hholes : holes F aim pos (.jump head place late :: items) =
            holes F aim (pos + (head.length + F.width)) items := by
          show ((_ :: sites F _ items).filter _).map _ = _
          rw [filter_cons_of_neg (by simp [hplace])]
          rfl
        rw [hholes]
        exact hnext _ (Item.length_bytes _) hbytes

end

/-! ## one pass -/

/-- the last of the places an aim was given -/
def known (defs : α → List Nat) (aim : α) : Option Nat := (defs aim).getLast?

/-- What an assembler has written: the bytes and, each time it filled a hole, its position.  `defs`
are the places each aim was given so far, `passes` the number of places it will be given. -/
structure Tracks (F : Format β) (passes : α → Nat) (code : List β) (patched : List Nat)
    (items : Listing β α) (defs : α → List Nat) : Prop where
  code_eq : code = resolve F (known defs) 0 items
  counts : ∀ site ∈ sites F 0 items, site.late = true →
    patched.count site.pos = (defs site.aim).length
  direct : ∀ site ∈ sites F 0 items, site.late = false → defs site.aim ≠ []
  marked : ∀ m ∈ marks F 0 items, known defs m.1 = some m.2 ∧ (defs m.1).length = passes m.1
  bound : ∀ p ∈ patched, p < code.length

namespace Tracks

variable {F : Format β} {passes : α → Nat} {code : List β} {patched : List Nat}
  {items : Listing β α} {defs : α → List Nat}

theorem start (base : List β) : Tracks F passes base [] [.code base] fun _ => [] where
  code_eq := (append_nil base).symm
  counts _ h := by cases h
  direct _ h := by cases h
  marked _ h := by cases h
  bound _ h := by cases h

theorem length (h : Tracks F passes code patched items defs) : code.length = size F items :=
  h.code_eq ▸ length_resolve

theorem push (h : Tracks F passes code patched items defs) {x : Item β α} {q : List Nat}
    (hcounts : ∀ site ∈ x.sites code.length, site.late = true →
      (patched ++ q).count site.pos = (defs site.aim).length)
    (hdirect : ∀ site ∈ x.sites code.length, site.late = false → defs site.aim ≠ [])
    (hmarked : ∀ m ∈ x.marks code.length,
      known defs m.1 = some m.2 ∧ (defs m.1).length = passes m.1)
    (hmore : ∀ p ∈ q, code.length ≤ p ∧ p < code.length + x.size F) :
    Tracks F passes (code ++ x.bytes F (known defs) code.length) (patched ++ q)
      (items ++ [x]) defs := by
  have hlen := h.length
  have hsites : sites F 0 (items ++ [x]) = sites F 0 items ++ x.sites code.length := by
    rw [sites_append, Nat.zero_add, ← hlen]
    exact congrArg _ (append_nil _)
  have hmarks : marks F 0 (items ++ [x]) = marks F 0 items ++ x.marks code.length := by
    rw [marks_append, Nat.zero_add, ← hlen]
    exact congrArg _ (append_nil _)
  refine ⟨?_, ?_, ?_, ?_, ?_⟩
  · rw [resolve_append, Nat.zero_add, ← hlen, ← h.code_eq]
    exact congrArg _ (append_nil _).symm
  · intro site hsite hlate
    rcases mem_append.mp (hsites ▸ hsite) with hsite | hsite
    · have hbounds := site_bounds hsite
      have hpos := F.width_pos
      have hnone : q.count site.pos = 0 := count_eq_zero_of_not_mem fun hmem => by
        have := (hmore _ hmem).1
        omega
      rw [count_append, hnone]
      exact h.counts site hsite hlate
    · exact hcounts site hsite hlate
  · intro site hsite
    rcases mem_append.mp (hsites ▸ hsite) with hsite | hsite
    · exact h.direct site hsite
    · exact hdirect site hsite
  · intro m hm
    rcases mem_append.mp (hmarks ▸ hm) with hm | hm
    · exact h.marked m hm
    · exact hmarked m hm
  · intro p hp
    rw [length_append, Item.length_bytes]
    rcases mem_append.mp hp with hp | hp
    · have := h.bound p hp
      omega
    · exact (hmore p hp).2

theorem emit (h : Tracks F passes code patched items defs) (bytes : List β) :
    Tracks F passes (code ++ bytes) patched (items ++ [.code bytes]) defs := by
  have := h.push (x := .code bytes) (q := []) (fun _ hs => by cases hs)
    (fun _ hs => by cases hs) (fun _ hm => by cases hm) (fun _ hp => by cases hp)
  rwa [append_nil] at this

variable {aim : α}

theorem jump (h : Tracks F passes code patched items defs) (head : List β) (haim : defs aim = []) :
    Tracks F passes (code ++ (head ++ F.hole)) patched (items ++ [.jump head aim true]) defs := by
  have hnot : patched.count (code.length + head.length) = 0 :=
    count_eq_zero_of_not_mem fun hmem => by
      have := h.bound _ hmem
      omega
  have hhole : operandTo F (known defs aim) (code.length + head.length + F.width) = F.hole := by
    rw [known, haim]
    rfl
  have := h.push (x := .jump head aim true) (q := [])
    (fun site hs _ => by
      obtain rfl := mem_singleton.mp hs
      rw [append_nil, hnot, haim]
      rfl)
    (fun site hs hlate => by
      obtain rfl := mem_singleton.mp hs
      cases hlate)
    (fun _ hm => by cases hm) (fun _ hp => by cases hp)
  rw [append_nil] at this
  rwa [Item.bytes, hhole] at this

theorem jumpFilled (h : Tracks F passes code patched items defs) (head : List β) {t : Nat}
    (haim : defs aim = [t]) : Tracks F passes
      (Patch.write (code ++ (head ++ F.hole)) (code.length + head.length)
        (F.operand ((t : Int) - ((code.length + head.length + F.width : Nat) : Int))))
      (patched ++ [code.length + head.length]) (items ++ [.jump head aim true]) defs := by
  have hpos := F.width_pos
  have hnot : patched.count (code.length + head.length) = 0 :=
    count_eq_zero_of_not_mem fun hmem => by
      have := h.bound _ hmem
      omega
  have hwrite := write_operand (p := code) (q := head) (r := F.hole)
    (s := F.operand ((t : Int) - ((code.length + head.length + F.width : Nat) : Int)))
    (t := []) (length_append) (by rw [F.length_operand, F.length_hole])
  rw [append_nil, append_nil] at hwrite
  have hoperand : operandTo F (known defs aim) (code.length + head.length + F.width) =
      F.operand ((t : Int) - ((code.length + head.length + F.width : Nat) : Int)) := by
    rw [known, haim]
    rfl
  have := h.push (x := .jump head aim true) (q := [code.length + head.length])
    (fun site hs _ => by
      obtain rfl := mem_singleton.mp hs
      rw [count_append, hnot, haim, count_singleton_self]
      rfl)
    (fun site hs hlate => by
      obtain rfl := mem_singleton.mp hs
      cases hlate)
    (fun _ hm => by cases hm)
    (fun p hp => by
      obtain rfl := mem_singleton.mp hp
      exact ⟨Nat.le_add_right _ _, by
        rw [show (Item.jump head aim true : Item β α).size F = head.length + F.width from rfl]
        omega⟩)
  rw [hwrite]
  rwa [Item.bytes, hoperand] at this

theorem jumpBack (h : Tracks F passes code patched items defs) (head : List β) {t : Nat}
    (haim : known defs aim = some t) : Tracks F passes
      (code ++ (head ++
        F.operand ((t : Int) - ((code.length + head.length + F.width : Nat) : Int)))) patched
      (items ++ [.jump head aim false]) defs := by
  have hoperand : operandTo F (known defs aim) (code.length + head.length + F.width) =
      F.operand ((t : Int) - ((code.length + head.length + F.width : Nat) : Int)) := by
    rw [haim]
    rfl
  have := h.push (x := .jump head aim false) (q := [])
    (fun site hs hlate => by
      obtain rfl := mem_singleton.mp hs
      cases hlate)
    (fun site hs _ => by
      obtain rfl := mem_singleton.mp hs
      intro hnil
      rw [known, show defs aim = [] from hnil] at haim
      cases haim)
    (fun _ hm => by cases hm) (fun _ hp => by cases hp)
  rw [append_nil] at this
  rwa [Item.bytes, hoperand] at this

theorem mark (h : Tracks F passes code patched items defs) {z : α}
    (haim : known defs z = some code.length) (hpasses : (defs z).length = passes z) :
    Tracks F passes code patched (items ++ [.mark z]) defs := by
  have := h.push (x := .mark z) (q := []) (fun _ hs => by cases hs) (fun _ hs => by cases hs)
    (fun m hm => by
      obtain rfl := mem_singleton.mp hm
      exact ⟨haim, hpasses⟩)
    (fun _ hp => by cases hp)
  rw [append_nil] at this
  rwa [Item.bytes, append_nil] at this

theorem define [DecidableEq α] (h : Tracks F passes code patched items defs) {z : α} (t : Nat)
    (hlate : ∀ site ∈ sites F 0 items, site.aim = z → site.late = true)
    (hfree : ∀ m ∈ marks F 0 items, m.1 ≠ z) :
    Tracks F passes (Patch.writeAll code (fills F t (holes F z 0 items)))
      (patched ++ holes F z 0 items) items
      (update defs z (defs z ++ [t])) := by
  have hknown : known (update defs z (defs z ++ [t])) =
      update (known defs) z (some t) := by
    funext a
    by_cases ha : a = z
    · subst ha
      rw [known, update_self, update_self, getLast?_concat]
    · rw [known, update_of_ne ha, update_of_ne ha]
      rfl
  have hcode := writeAll_resolve F (known defs) z t [] (length_nil (α := β)) hlate
  rw [nil_append, nil_append, ← h.code_eq, ← hknown] at hcode
  refine ⟨hcode, ?_, ?_, ?_, ?_⟩
  · intro site hsite hl
    rw [count_append, h.counts site hsite hl, count_holes hsite hl z]
    by_cases ha : site.aim = z
    · rw [if_pos ha, ha, update_self, length_append]
      rfl
    · rw [if_neg ha, update_of_ne ha]
      rfl
  · intro site hsite hl
    have hne : site.aim ≠ z := fun ha => by
      rw [hlate site hsite ha] at hl
      cases hl
    rw [update_of_ne hne]
    exact h.direct site hsite hl
  · intro m hm
    have hne := hfree m hm
    rw [hknown, update_of_ne hne, update_of_ne hne]
    exact h.marked m hm
  · intro p hp
    rw [hcode, length_resolve, ← h.length]
    rcases mem_append.mp hp with hp | hp
    · exact h.bound p hp
    · obtain ⟨site, hsite, _, _, rfl⟩ := mem_holes.mp hp
      have hbounds := site_bounds hsite
      have hpos := F.width_pos
      rw [h.length]
      omega

theorem target_mark [DecidableEq α] (h : Tracks F passes code patched items defs) {m : α × Nat}
    (hm : m ∈ marks F 0 items) : target F 0 items m.1 = some m.2 := by
  cases ht : target F 0 items m.1 with
  | none =>
    have hnone := List.lookup_eq_none_iff.mp ht m hm
    simp at hnone
  | some t =>
    rw [← (h.marked m hm).1, (h.marked _ (mem_of_target ht)).1]

theorem assembled [DecidableEq α] (h : Tracks F passes code patched items defs)
    (hclosed : ∀ site ∈ sites F 0 items, ∃ m ∈ marks F 0 items, m.1 = site.aim) :
    code = resolve F (target F 0 items) 0 items ∧
      ∀ site ∈ sites F 0 items, site.late = true → patched.count site.pos = passes site.aim := by
  have htarget : ∀ site ∈ sites F 0 items, known defs site.aim = target F 0 items site.aim := by
    intro site hsite
    obtain ⟨m, hm, haim⟩ := hclosed site hsite
    rw [← haim, (h.marked m hm).1, h.target_mark hm]
  refine ⟨h.code_eq.trans (resolve_congr htarget), fun site hsite hlate => ?_⟩
  obtain ⟨m, hm, haim⟩ := hclosed site hsite
  rw [h.counts site hsite hlate, ← haim, (h.marked m hm).2]

end Tracks

/-! ## a part of the bytes -/

/-- The items stand at `pos` in the bytes, and `known` has the places of their marks. -/
structure Stands (F : Format β) (known : α → Option Nat) (code : List β) (pos : Nat)
    (items : Listing β α) : Prop where
  bytes : ∃ before rest, code = before ++ (resolve F known pos items ++ rest) ∧ before.length = pos
  marks : ∀ m ∈ marks F pos items, known m.1 = some m.2

namespace Stands

variable {F : Format β} {known : α → Option Nat} {code : List β} {pos : Nat}
  {items items' : Listing β α}

theorem left (h : Stands F known code pos (items ++ items')) : Stands F known code pos items where
  bytes := by
    obtain ⟨before, rest, hcode, hpos⟩ := h.bytes
    rw [resolve_append, append_assoc] at hcode
    exact ⟨before, _, hcode, hpos⟩
  marks m hm := h.marks m (by
    rw [marks_append]
    exact mem_append_left _ hm)

theorem right (h : Stands F known code pos (items ++ items')) :
    Stands F known code (pos + size F items) items' where
  bytes := by
    obtain ⟨before, rest, hcode, hpos⟩ := h.bytes
    refine ⟨before ++ resolve F known pos items, rest, ?_, ?_⟩
    · rw [hcode, resolve_append, append_assoc, append_assoc]
    · rw [length_append, length_resolve, hpos]
  marks m hm := h.marks m (by
    rw [marks_append]
    exact mem_append_right _ hm)

theorem mark {aim : α} (h : Stands F known code pos [.mark aim]) : known aim = some pos :=
  h.marks (aim, pos) mem_cons_self

theorem item {item : Item β α} (h : Stands F known code pos [item]) :
    ∃ before rest, code = before ++ (item.bytes F known pos ++ rest) ∧ before.length = pos := by
  obtain ⟨before, rest, hcode, hpos⟩ := h.bytes
  refine ⟨before, rest, ?_, hpos⟩
  rw [hcode]
  show before ++ ((item.bytes F known pos ++ []) ++ rest) = _
  rw [append_nil]

end Stands

theorem Tracks.stands [DecidableEq α] {F : Format β} {passes : α → Nat} {code : List β}
    {patched : List Nat} {items : Listing β α} {defs : α → List Nat}
    (h : Tracks F passes code patched items defs)
    (hclosed : ∀ site ∈ sites F 0 items, ∃ m ∈ marks F 0 items, m.1 = site.aim) :
    Stands F (target F 0 items) code 0 items where
  bytes := ⟨[], [], by rw [append_nil]; exact (h.assembled hclosed).1, rfl⟩
  marks _ hm := h.target_mark hm

end Assembly
