import Voyager.Paging.Bringup
import Voyager.Paging.DeepCopy

/-!
# The lower half after the bootstrap

Tables are only made along the paths of the pages that are asked for, so the first 2 MiB need
three besides the root, and `PagingDuplicate` takes 515 frames.
-/

namespace Voyager.Machine

open Lib Lib.ByteSpace Lib.RadixTable Paging

variable {m m' : Machine} {root va pa flags l k n c t : Nat} {p q : List (Fin 512)} {idx : Fin 512} {r : Request}
  {rs : List Request} {allowed : Request → Prop}

/-! ### Where tables are made -/

theorem getOrMakeNext_path (h : Hierarchy m root) (reach : Reached m.mem root (l + 1) p n)
    (run : m.getOrMakeNext n idx = .ok (c, m')) (there : Reached m'.mem root k q t) :
    Reached m.mem root k q t ∨ q = p ++ [idx] := by
  cases present : (entry m.mem n idx).testBit 0 with
  | true =>
    rw [getOrMakeNext_eq, present] at run
    cases huge : (entry m.mem n idx).testBit 7 <;> rw [huge] at run <;> cases run
    exact .inl there
  | false =>
    have new := getOrMakeNext_new h reach present run
    have equal := h.tree.link_equal reach new.aligned new.new new.linked
    have points : slot (l + 1) (entry m'.mem n idx) = .table c := by
      rw [new.linked.word]
      exact new.points
    rcases reach_link h.tree.unshared reach equal (slot_absent present) points (fun _ => new.linked.empty) there with
      old | ⟨_, path, _⟩
    · exact .inl old
    · exact .inr path

theorem descend_path {way : List (Fin 512)} (h : Hierarchy m root) (reach : Reached m.mem root (l + way.length) p n)
    (run : m.descend n way = .ok (c, m')) (there : Reached m'.mem root k q t) :
    Reached m.mem root k q t ∨ q <+: p ++ way := by
  induction way generalizing m p n with
  | nil =>
    cases run
    exact .inl there
  | cons i rest ih =>
    obtain ⟨⟨c₁, m₁⟩, first, run⟩ := bind_ok run
    obtain ⟨evolves, reached, _, _⟩ := getOrMakeNext_ok (l := l + rest.length) h reach first
    rw [List.append_cons]
    rcases ih (evolves.hierarchy h) reached run with there | path
    · exact (getOrMakeNext_path (l := l + rest.length) h reach first there).imp_right fun path => ⟨rest, by rw [path]⟩
    · exact .inr path

theorem enterLeaf_path {way : List (Fin 512)} {v : Nat} (h : Hierarchy m root) (depth : l + way.length = 3)
    (lt : v < 2 ^ 64) (leaf : slot l v = .leaf) (run : m.enterLeaf root way idx v = .ok m')
    (there : Reached m'.mem root k q t) : Reached m.mem root k q t ∨ q <+: way := by
  obtain ⟨⟨table, m₁⟩, down, run⟩ := bind_ok run
  have start : Reached m.mem root (l + way.length) [] root := reached_root depth
  obtain ⟨evolves, reach, _⟩ := descend_ok h start down
  cases run
  exact descend_path h start down
    (evolves.tree.write_reached reach lt (fun c table => by rw [leaf] at table; cases table) there)

theorem enterAll_path (h : Hierarchy m root) (run : m.enterAll root rs = .ok m') (there : Reached m'.mem root k q t) :
    Reached m.mem root k q t ∨ ∃ r ∈ rs, q <+: (vaddrIndices r.va).path := by
  induction rs generalizing m with
  | nil =>
    cases run
    exact .inl there
  | cons r rs ih =>
    rw [enterAll_cons] at run
    obtain ⟨m₁, first, rest⟩ := bind_ok run
    have one : ∀ {k q t}, Reached m₁.mem root k q t → Reached m.mem root k q t ∨ q <+: (vaddrIndices r.va).path := by
      intro k q t there
      unfold enter at first
      split at first
      · exact (enterLeaf_path h rfl leaf2m_lt slot_leaf2m (map2m_eq ▸ first) there).imp_right (·.trans ⟨_, rfl⟩)
      · exact (enterLeaf_path h rfl leaf4k_lt slot_leaf4k (map4k_eq ▸ first) there).imp_right (·.trans ⟨_, rfl⟩)
    rcases ih ((enter_ok h first).1.hierarchy h) rest with there | ⟨r', hr, path⟩
    · rcases one there with there | path
      · exact .inl there
      · exact .inr ⟨r, List.mem_cons_self, path⟩
    · exact .inr ⟨r', List.mem_cons_of_mem _ hr, path⟩

theorem Entered.path (h : Entered m m' root allowed) (hier : Hierarchy m root) (there : Reached m'.mem root k q t) :
    Reached m.mem root k q t ∨ ∃ r, allowed r ∧ q <+: (vaddrIndices r.va).path := by
  obtain ⟨rs, all, run⟩ := h
  exact (enterAll_path hier run there).imp_right fun ⟨r, hr, path⟩ => ⟨r, all r hr, path⟩

/-! ### The lower half -/

variable {count : Nat → Nat} {mem : Bytes} {is : List (Fin 512)} {j : Fin 512}

theorem entryCount_absent (absent : ∀ i ∈ is, (entry mem n i).testBit 0 = false) : entryCount count mem n is = 0 := by
  rw [entryCount, List.sum_eq_zero]
  intro x hx
  obtain ⟨i, hi, rfl⟩ := List.mem_map.mp hx
  rw [absent i hi, if_neg (by decide)]

theorem entryCount_only (nodup : is.Nodup) (hj : j ∈ is) (present : (entry mem n j).testBit 0 = true)
    (only : ∀ i ∈ is, (entry mem n i).testBit 0 = true → i = j) : entryCount count mem n is = count (entry mem n j) := by
  induction is with
  | nil => exact absurd hj List.not_mem_nil
  | cons i is ih =>
    obtain ⟨out, nodup⟩ := List.nodup_cons.mp nodup
    have split : entryCount count mem n (i :: is) =
        (if (entry mem n i).testBit 0 then count (entry mem n i) else 0) + entryCount count mem n is := by
      rw [entryCount, List.map_cons, List.sum_cons, entryCount]
    rw [split]
    rcases List.mem_cons.mp hj with rfl | later
    · have none : entryCount count mem n is = 0 := entryCount_absent fun i hi => by
        rw [← Bool.not_eq_true]
        intro also
        exact out (only i (List.mem_cons_of_mem _ hi) also ▸ hi)
      rw [if_pos present, none, Nat.add_zero]
    · have other : (entry mem n i).testBit 0 = false := by
        rw [← Bool.not_eq_true]
        intro also
        exact out (only i List.mem_cons_self also ▸ later)
      rw [other, if_neg (by decide), Nat.zero_add]
      exact ih nodup later fun i hi => only i (List.mem_cons_of_mem _ hi)

/-- The lower half holds the first 2 MiB, each page at its own address. -/
structure IdentityMapped (mem : Bytes) (root : Nat) : Prop where
  tables : ∀ {l p n}, Reached mem root l p n → LowerPath p → p <+: [0, 0, 0]
  pages : ∀ va < page2m, leafOf mem root va = some (leaf4k (alignDown va pageSize) (pteW ||| pteNX), 0)
  only : ∀ va < 2 ^ 47, page2m ≤ va → leafOf mem root va = none

section Identity

variable (h : IdentityMapped m.mem root) (src : Source m root)

include h

theorem IdentityMapped.address {e : Nat} (low : va < 2 ^ 47) (found : leafOf m.mem root va = some (e, k)) :
    (e &&& addrMask) < page2m := by
  by_cases first : va < page2m
  · have down : alignDown va pageSize ≤ va := Nat.div_mul_le_self _ _
    rw [h.pages va first] at found
    cases found
    rw [leaf4k_and]
    exact Nat.lt_of_le_of_lt Nat.and_le_left (Nat.lt_of_le_of_lt down first)
  · rw [h.only va low (Nat.le_of_not_lt first)] at found
    cases found

theorem IdentityMapped.page_present (reach : Reached m.mem root 0 [0, 0, 0] n) (i : Fin 512) :
    (entry m.mem n i).testBit 0 = true := by
  have place : offsetToVirtualAddress ⟨0, 0, 0, i⟩ = i * 2 ^ 12 := by
    rw [offsetToVirtualAddress_eq]
    simp
  have indices : vaddrIndices (i * 2 ^ 12) = ⟨0, 0, 0, i⟩ := by
    rw [← place, ← virtualAddressToOffsets_eq, virtualAddressToOffsets_offsetToVirtualAddress]
  have leaf := h.pages (i * 2 ^ 12) (by unfold page2m; omega)
  rw [leafOf_table (n := n) (by rw [indices]; exact reach), indices] at leaf
  by_contra absent
  rw [if_neg absent] at leaf
  cases leaf

include src

theorem IdentityMapped.child (reach : Reached m.mem root (l + 1) p n) (lower : LowerPath (p ++ [idx]))
    (present : (entry m.mem n idx).testBit 0 = true) : idx = 0 := by
  have below := reach.step idx (src.points reach lower present)
  have inside : idx ∈ List.replicate 3 (0 : Fin 512) :=
    (h.tables below lower).subset (List.mem_append_right _ (List.mem_singleton.mpr rfl))
  exact List.eq_of_mem_replicate inside

theorem IdentityMapped.loop (reach : Reached m.mem root (l + 1) p n) (nodup : is.Nodup) (first : 0 ∈ is)
    (lower : ∀ i ∈ is, LowerPath (p ++ [i])) (points : slot (l + 1) (entry m.mem n 0) = .table c) :
    entryCount (copyCount m.mem (l + 1)) m.mem n is =
      1 + entryCount (copyCount m.mem l) m.mem c (List.finRange 512) := by
  have present := (slot_table points).1
  have only : entryCount (copyCount m.mem (l + 1)) m.mem n is = copyCount m.mem (l + 1) (entry m.mem n 0) :=
    entryCount_only nodup first present fun i hi also => h.child src reach (lower i hi) also
  have address : entry m.mem n 0 &&& pageAddressMask = c := by
    have table := src.points reach (lower 0 first) present
    rw [points] at table
    exact (Slot.table.inj table).symm
  rw [only, copyCount, address]

theorem IdentityMapped.frameCount_eq : frameCount m.mem root = 515 := by
  obtain ⟨pt, reach⟩ := leafOf_page (h.pages 0 (by decide))
  have reach : Reached m.mem root 0 [0, 0, 0] pt := reach
  obtain ⟨pd, reach₁, third⟩ := Reach.parent (p := [0, 0]) reach
  obtain ⟨pdp, reach₂, second⟩ := Reach.parent (p := [0]) reach₁
  obtain ⟨_, reach₃, first⟩ := Reach.parent (p := []) reach₂
  rw [(reach₃.unique .root).2] at first
  have low : ∀ i ∈ lowerEntries, LowerPath ([] ++ [i]) := fun i hi => by
    rcases lower_or_upper i with ⟨_, _, lt⟩ | ⟨off, _⟩
    · exact ⟨i, [], rfl, lt⟩
    · exact absurd hi off
  have inner : ∀ p, ∀ i ∈ List.finRange 512, LowerPath ((0 :: p) ++ [i]) := fun p i _ => ⟨0, p ++ [i], rfl, by decide⟩
  have all := List.nodup_finRange 512
  have top : entryCount (copyCount m.mem 3) m.mem root lowerEntries = _ :=
    h.loop src .root (all.sublist (List.take_sublist _ _)) (by decide +kernel) low first
  have middle : entryCount (copyCount m.mem 2) m.mem pdp (List.finRange 512) = _ :=
    h.loop src reach₂ all (List.mem_finRange 0) (inner []) second
  have bottom : entryCount (copyCount m.mem 1) m.mem pd (List.finRange 512) = _ :=
    h.loop src reach₁ all (List.mem_finRange 0) (inner [0]) third
  have pages : entryCount (copyCount m.mem 0) m.mem pt (List.finRange 512) = 512 := by
    have one : (List.finRange 512).map
        (fun i => if (entry m.mem pt i).testBit 0 then copyCount m.mem 0 (entry m.mem pt i) else 0) =
        (List.finRange 512).map fun _ => 1 :=
      List.map_congr_left fun i _ => if_pos (h.page_present reach i)
    rw [entryCount, one, List.map_const', List.sum_replicate, List.length_finRange]
    rfl
  rw [frameCount, top, middle, bottom, pages]

end Identity

/-! ### What the bootstrap maps -/

variable {boot : Boot} {entries : List MemmapEntry} {a : KernelAddress} {rsp f start stop : Nat}

theorem SectionHigh.top (placed : SectionHigh a start stop) (hr : r ∈ sectionRequests a start stop flags) :
    slotOf r.va = 511 := by
  obtain ⟨x, lt, _, rfl⟩ := mem_sectionRequests.mp hr
  have high := placed.high
  have last := alignUp_lt stop pageSize
  dsimp only
  unfold sectionStart sectionSize slotOf alignDown pageSize at *
  omega

theorem kernel_top (input : BringupInput boot entries a) (hr : r ∈ kernelRequests a boot.symbols) : slotOf r.va = 511 := by
  rw [kernelRequests, List.mem_append, List.mem_append] at hr
  rcases hr with (text | rodata) | data
  · exact input.text.top text
  · exact input.rodata.top rodata
  · exact input.data.top data

theorem direct_slot (lt : f < physLimit) :
    256 ≤ slotOf (add64 higherHalfMemoryOffset f) ∧ slotOf (add64 higherHalfMemoryOffset f) < 511 := by
  unfold slotOf add64 higherHalfMemoryOffset physLimit at *
  omega

theorem BootRequest.low (input : BringupInput boot entries a) (h : BootRequest boot entries a r) (low : slotOf r.va < 256) :
    ∃ x < page2m, x % pageSize = 0 ∧ r = ⟨false, x, x, pteW ||| pteNX⟩ := by
  rcases h with asked | ⟨p, lt, rfl⟩
  · rcases mem_bootRequests.mp asked with identity | image | direct
    · exact mem_identityRequests.mp identity
    · rw [kernel_top input image] at low
      exact absurd low (by decide)
    · obtain ⟨p, lt, large, rfl⟩ := direct_cases input direct
      exact absurd low (Nat.not_lt.mpr (direct_slot lt).1)
  · exact absurd low (Nat.not_lt.mpr (direct_slot lt).1)

theorem identity_path {x : Nat} (lt : x < page2m) : [0, 0, 0] <+: (vaddrIndices x).path := by
  have zero : ∀ s, 21 ≤ s → tableIndex (x >>> s) = 0 := by
    intro s le
    have small : x < 2 ^ s := Nat.lt_of_lt_of_le lt (show 2 ^ 21 ≤ 2 ^ s from Nat.pow_le_pow_right (by decide) le)
    rw [Nat.shiftRight_eq_div_pow, Nat.div_eq_of_lt small]
    rfl
  refine ⟨[(vaddrIndices x).pt], ?_⟩
  rw [Indices.path, vaddrIndices, zero 39 (by decide), zero 30 (by decide), zero 21 (by decide)]
  rfl

theorem LowerPath.slot (h : LowerPath p) (path : p <+: (vaddrIndices va).path) : slotOf va < 256 := by
  obtain ⟨i, q, rfl, low⟩ := h
  obtain ⟨rest, path⟩ := path
  have first : i = (vaddrIndices va).pml4 := (List.cons.inj path).1
  rw [first, vaddrIndices, tableIndex, Fin.val_ofNat, Nat.shiftRight_eq_div_pow] at low
  exact low

section Bootstrap

variable (input : BringupInput boot entries a) (sound : m.early.Sound) (region : m.early.stop ≤ physLimit)
  (old : (m.paging.cr3 &&& addrMask) < physLimit) (run : m.pagingBootstrap boot rsp = .ok m')

include input sound region old run

theorem pagingBootstrap_identityMapped : IdentityMapped m'.mem m'.paging.cr3 := by
  obtain ⟨start, asked, audited, root, h, entered⟩ := pagingBootstrap_bootRequests input sound region old run
  have hier := h.fresh.ready.hierarchy
  obtain ⟨_, _, patched⟩ := preSwitchAuditAndPatch_ok ((enterAll_evolves hier h.pages).hierarchy hier) h.audit
  rw [h.switch]
  have leaf : ∀ va < 2 ^ 47, ∀ x, leafOf audited.mem root va = some x →
      va < page2m ∧ x = (leaf4k (alignDown va pageSize) (pteW ||| pteNX), 0) := by
    intro va low x found
    rcases entered.found hier found with old | ⟨r, boot, covers, leaf⟩
    · rw [h.fresh.empty] at old
      cases old
    · have slot : slotOf r.va < 256 := by
        rw [← covers.slotOf]
        unfold slotOf
        omega
      obtain ⟨y, lt, aligned, rfl⟩ := boot.low input slot
      have same : SamePage y va := covers
      have place : alignDown va pageSize = y ∧ va < page2m := by
        unfold SamePage alignDown page2m pageSize at *
        omega
      rw [place.1]
      exact ⟨place.2, leaf.symm⟩
  refine ⟨fun {l p n} reach lower => ?_, fun va low => ?_, fun va low high => ?_⟩
  · have depth := reach.length
    rcases entered.path hier reach with old | ⟨r, boot, path⟩
    · obtain rfl := h.fresh.tables old
      obtain rfl := hier.tree.unshared old .root
      obtain ⟨_, _, nil, _⟩ := lower
      cases nil
    · obtain ⟨x, lt, _, rfl⟩ := boot.low input (lower.slot path)
      exact List.prefix_of_prefix_length_le path (identity_path lt) (by simp; omega)
  · have covered : (leafOf asked.mem root va).isSome := by
      rcases enterAll_leaves hier h.pages va with ⟨r, _, _, found⟩ | ⟨none, _⟩
      · rw [found]
        rfl
      · have asked := mem_identityRequests.mpr ⟨alignDown va pageSize, Nat.lt_of_le_of_lt (Nat.div_mul_le_self _ _) low,
          Nat.mul_mod_left _ _, rfl⟩
        refine absurd ?_ (none _ (mem_bootRequests.mpr (.inl asked)))
        change SamePage (alignDown va pageSize) va
        unfold SamePage alignDown pageSize
        omega
    obtain ⟨x, found⟩ := Option.isSome_iff_exists.mp (patched.isSome covered)
    obtain ⟨_, rfl⟩ := leaf va (by unfold page2m at low; omega) x found
    exact found
  · change leafOf audited.mem root va = none
    cases found : leafOf audited.mem root va with
    | none => rfl
    | some x =>
      have := (leaf va low x found).1
      omega

/-- A 2 MiB chunk that every entry of the memory map holds as a whole, if it holds any of it. -/
theorem pagingBootstrap_chunk (held : ∃ e ∈ entries, InSpan e f)
    (whole : ∀ e ∈ entries, InSpan e f → Chunk (alignDown e.base pageSize) (span e) f) :
    leafOf m'.mem m'.paging.cr3 (add64 higherHalfMemoryOffset f) = some (leaf2m (alignDown f page2m) pteNX, 1) := by
  obtain ⟨start, asked, audited, root, h, entered⟩ := pagingBootstrap_bootRequests input sound region old run
  have hier := h.fresh.ready.hierarchy
  obtain ⟨_, _, patched⟩ := preSwitchAuditAndPatch_ok ((enterAll_evolves hier h.pages).hierarchy hier) h.audit
  rw [h.switch]
  refine patched.kept _ _ ?_
  have limit : physLimit ≤ window := by decide
  have aligned : higherHalfMemoryOffset % page2m = 0 := by decide
  obtain ⟨e, he, inside⟩ := held
  have lt : f < physLimit := by
    have top := input.span_le he
    unfold InSpan at inside
    omega
  have slots := direct_slot lt
  obtain ⟨r₀, hr₀, covers₀⟩ := hhdmRequests_covers aligned
    (fun e he => (input.span_le he).imp_right fun top => Nat.le_trans top limit)
    he inside
  rcases enterAll_leaves hier h.pages (add64 higherHalfMemoryOffset f) with ⟨r, hr, covers, found⟩ | ⟨none, _⟩
  · rw [found]
    rcases mem_bootRequests.mp hr with identity | image | direct
    · obtain ⟨x, low, _, rfl⟩ := mem_identityRequests.mp identity
      rw [covers.slotOf] at slots
      unfold slotOf page2m at *
      dsimp only at slots
      omega
    · rw [covers.slotOf, kernel_top input image] at slots
      omega
    · obtain ⟨p, large, rfl, page, place⟩ := hhdmRequests_cases (by decide) input.spans direct
      have low : p < window := by
        obtain ⟨_, small, _, is⟩ := direct_cases input direct
        rw [show p = _ from congrArg Request.pa is]
        exact Nat.lt_of_lt_of_le small limit
      cases large with
      | true =>
        rw [directRequest_covers_large aligned low (Nat.lt_of_lt_of_le lt limit)] at covers
        change p % page2m = 0 at page
        obtain rfl : p = alignDown f page2m := by
          unfold alignDown page2m at *
          omega
        rfl
      | false =>
        -- The entry would hold a part of the chunk.
        rw [directRequest_covers_small aligned low (Nat.lt_of_lt_of_le lt limit)] at covers
        change p % pageSize = 0 at page
        obtain ⟨_, no⟩ | ⟨e, he, inside, broken⟩ := place
        · cases no
        · have held : InSpan e f := by
            have start : alignDown e.base pageSize % pageSize = 0 := Nat.mul_mod_left _ _
            have size := span_aligned e
            unfold InSpan pageSize at *
            omega
          have same : p / page2m = f / page2m := by
            unfold page2m pageSize at *
            omega
          exact absurd (broken.mpr ((Chunk.congr same).mpr (whole e he held))) Bool.false_ne_true
  · exact absurd covers₀ (none r₀ (mem_bootRequests.mpr (.inr (.inr hr₀))))

end Bootstrap

theorem IdentityMapped.same {mem' : Bytes} (h : IdentityMapped mem root) (grown : Grown mem mem' root fun _ => False) :
    IdentityMapped mem' root where
  tables reach := h.tables ((grown.tables reach).resolve_right id)
  pages va low := (grown.leaves va).trans (h.pages va low)
  only va low high := (grown.leaves va).trans (h.only va low high)

theorem memoryBringup_mapped (input : BringupInput boot entries a) (fresh : m.early = .zero)
    (old : (m.paging.cr3 &&& addrMask) < physLimit) (run : m.memoryBringup boot rsp = .ok m') :
    IdentityMapped m'.mem m'.currentPml4Phys ∧ ∀ f, (∃ e ∈ entries, InSpan e f) →
      (∀ e ∈ entries, InSpan e f → Chunk (alignDown e.base pageSize) (span e) f) →
        leafOf m'.mem m'.currentPml4Phys (add64 higherHalfMemoryOffset f) = some (leaf2m (alignDown f page2m) pteNX, 1) := by
  obtain ⟨early, m₁, steps⟩ := memoryBringup_steps input.memmap input.inRange fresh run
  have region := (earlyInit_spec input steps.init).2.2
  have switched := steps.switched
  obtain ⟨_, _, root, same, _⟩ := switched.runtime steps.start input.memmap input.inRange steps.frames
  have grown : Grown m₁.mem m'.mem m₁.paging.cr3 (fun _ => False) := switched.hierarchy.tree.same same
  rw [root]
  refine ⟨(pagingBootstrap_identityMapped (m := { m with early }) input steps.sound region old steps.bootstrap).same grown,
    fun f held whole => ?_⟩
  exact (grown.leaves _).trans
    (pagingBootstrap_chunk (m := { m with early }) input steps.sound region old steps.bootstrap held whole)

end Voyager.Machine
