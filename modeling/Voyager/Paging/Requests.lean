import Voyager.Paging.Direct

/-! # The builders as lists of pages -/

namespace Voyager.Machine

open Lib Lib.RadixTable Paging

/-- One call of `map_4k` or `map_2m`. -/
structure Request where
  large : Bool
  va : Nat
  pa : Nat
  flags : Nat

def Request.Covers (r : Request) (va : Nat) : Prop := if r.large then Same2m r.va va else SamePage r.va va

instance (r : Request) (va : Nat) : Decidable (r.Covers va) := inferInstanceAs (Decidable (ite _ _ _))

def Request.leaf (r : Request) : Nat × Nat :=
  if r.large then (leaf2m r.pa r.flags, 1) else (leaf4k r.pa r.flags, 0)

def enter (m : Machine) (root : Nat) (r : Request) : Kernel Machine :=
  if r.large then m.map2m root r.va r.pa r.flags else m.map4k root r.va r.pa r.flags

def enterAll (m : Machine) (root : Nat) (rs : List Request) : Kernel Machine := rs.foldlM (fun m r => m.enter root r) m

variable {m m' : Machine} {root va va' pa flags size n hhdm : Nat} {r : Request} {rs rs' : List Request} {boot : Boot}
  {entries : List MemmapEntry} {e : MemmapEntry} {k : KernelAddress}

theorem enterAll_nil : m.enterAll root [] = .ok m := rfl

theorem enterAll_cons : m.enterAll root (r :: rs) = (m.enter root r >>= fun m => m.enterAll root rs) :=
  List.foldlM_cons

theorem enterAll_append : m.enterAll root (rs ++ rs') = (m.enterAll root rs >>= fun m => m.enterAll root rs') :=
  List.foldlM_append

theorem enterAll_singleton : m.enterAll root [r] = m.enter root r := by
  rw [enterAll_cons]
  exact bind_pure _

/-! ### What they do to the translation -/

theorem enter_ok (h : Hierarchy m root) (run : m.enter root r = .ok m') :
    Evolves m m' root ∧ ∀ va, leafOf m'.mem root va = if r.Covers va then some r.leaf else leafOf m.mem root va := by
  obtain ⟨large, va, pa, flags⟩ := r
  cases large with
  | false => exact map4k_ok h run
  | true => exact map2m_ok h run

theorem enter_builds (ready : Ready m root)
    (clear : ∀ e k, leafOf m.mem root r.va = some (e, k) → if r.large then k ≤ 1 else k = 0) :
    Builds m 3 (m.enter root r) id fun m' =>
      Evolves m m' root ∧ ∀ va, leafOf m'.mem root va = if r.Covers va then some r.leaf else leafOf m.mem root va := by
  obtain ⟨large, va, pa, flags⟩ := r
  cases large with
  | false => exact map4k_builds ready.hierarchy ready.plain ready.hhdm clear
  | true => exact map2m_builds ready.hierarchy ready.plain ready.hhdm clear

theorem enterAll_evolves (h : Hierarchy m root) (run : m.enterAll root rs = .ok m') : Evolves m m' root := by
  induction rs generalizing m with
  | nil =>
    cases run
    exact .refl h
  | cons r rs ih =>
    rw [enterAll_cons] at run
    obtain ⟨m₁, first, run⟩ := bind_ok run
    obtain ⟨evolves, _⟩ := enter_ok h first
    exact evolves.trans (ih (evolves.hierarchy h) run)

theorem enterAll_leaves (h : Hierarchy m root) (run : m.enterAll root rs = .ok m') (va : Nat) :
    (∃ r ∈ rs, r.Covers va ∧ leafOf m'.mem root va = some r.leaf) ∨
      (∀ r ∈ rs, ¬ r.Covers va) ∧ leafOf m'.mem root va = leafOf m.mem root va := by
  induction rs generalizing m with
  | nil =>
    cases run
    exact .inr ⟨fun r hr => (List.not_mem_nil hr).elim, rfl⟩
  | cons r rs ih =>
    rw [enterAll_cons] at run
    obtain ⟨m₁, first, run⟩ := bind_ok run
    obtain ⟨evolves, leaves⟩ := enter_ok h first
    rcases ih (evolves.hierarchy h) run with ⟨t, ht, covers, found⟩ | ⟨none, same⟩
    · exact .inl ⟨t, List.mem_cons_of_mem r ht, covers, found⟩
    · rw [leaves] at same
      split at same
      · exact .inl ⟨r, List.mem_cons_self, ‹_›, same⟩
      · refine .inr ⟨fun t ht => ?_, same⟩
        rcases List.mem_cons.mp ht with rfl | later
        · assumption
        · exact none t later

theorem enterAll_kept (h : Hierarchy m root) (run : m.enterAll root rs = .ok m') (off : ∀ r ∈ rs, ¬ r.Covers va) :
    leafOf m'.mem root va = leafOf m.mem root va := by
  rcases enterAll_leaves h run va with ⟨r, hr, covers, _⟩ | ⟨_, same⟩
  · exact absurd covers (off r hr)
  · exact same

theorem enterAll_found {x : Nat × Nat} (h : Hierarchy m root) (run : m.enterAll root rs = .ok m')
    (found : leafOf m'.mem root va = some x) :
    leafOf m.mem root va = some x ∨ ∃ r ∈ rs, r.Covers va ∧ r.leaf = x := by
  rcases enterAll_leaves h run va with ⟨r, hr, covers, leaf⟩ | ⟨_, same⟩
  · exact .inr ⟨r, hr, covers, Option.some.inj (leaf.symm.trans found)⟩
  · exact .inl (same.symm.trans found)

def Entered (m m' : Machine) (root : Nat) (allowed : Request → Prop) : Prop :=
  ∃ rs, (∀ r ∈ rs, allowed r) ∧ m.enterAll root rs = .ok m'

section Entered

variable {m'' : Machine} {allowed allowed' : Request → Prop}

theorem Entered.refl : Entered m m root allowed := ⟨[], fun _ hr => (List.not_mem_nil hr).elim, rfl⟩

theorem Entered.one (run : m.enter root r = .ok m') (fits : allowed r) : Entered m m' root allowed :=
  ⟨[r], fun _ hr => List.mem_singleton.mp hr ▸ fits, enterAll_singleton.trans run⟩

theorem Entered.trans (h : Entered m m' root allowed) (h' : Entered m' m'' root allowed) :
    Entered m m'' root allowed := by
  obtain ⟨rs, all, run⟩ := h
  obtain ⟨rs', all', run'⟩ := h'
  refine ⟨rs ++ rs', fun r hr => ?_, by rw [enterAll_append, run]; exact run'⟩
  rcases List.mem_append.mp hr with first | second
  · exact all r first
  · exact all' r second

theorem Entered.mono (h : Entered m m' root allowed) (sub : ∀ r, allowed r → allowed' r) : Entered m m' root allowed' := by
  obtain ⟨rs, all, run⟩ := h
  exact ⟨rs, fun r hr => sub r (all r hr), run⟩

theorem Entered.evolves (h : Entered m m' root allowed) (hier : Hierarchy m root) : Evolves m m' root := by
  obtain ⟨rs, _, run⟩ := h
  exact enterAll_evolves hier run

theorem Entered.kept (h : Entered m m' root allowed) (hier : Hierarchy m root) (off : ∀ r, allowed r → ¬ r.Covers va) :
    leafOf m'.mem root va = leafOf m.mem root va := by
  obtain ⟨rs, all, run⟩ := h
  exact enterAll_kept hier run fun r hr => off r (all r hr)

theorem Entered.found {x : Nat × Nat} (h : Entered m m' root allowed) (hier : Hierarchy m root)
    (found : leafOf m'.mem root va = some x) :
    leafOf m.mem root va = some x ∨ ∃ r, allowed r ∧ r.Covers va ∧ r.leaf = x := by
  obtain ⟨rs, all, run⟩ := h
  exact (enterAll_found hier run found).imp_right fun ⟨r, hr, covers, leaf⟩ => ⟨r, all r hr, covers, leaf⟩

end Entered

/-! ### Ranges -/

def pageRequests (large : Bool) (flags size va pa : Nat) : Nat → List Request
  | 0 => []
  | n + 1 => ⟨large, va, pa, flags⟩ :: pageRequests large flags size (add64 va size) (add64 pa size) n

theorem pageLoop_requests {large : Bool} {f : Machine → Nat → Nat → Kernel Machine}
    (each : ∀ m va pa, f m va pa = m.enter root ⟨large, va, pa, flags⟩) :
    pageLoop f size m va pa n = m.enterAll root (pageRequests large flags size va pa n) := by
  induction n generalizing m va pa with
  | zero => rfl
  | succ n ih =>
    rw [pageLoop, pageRequests, enterAll_cons, each]
    exact bind_congr fun m₁ => ih

theorem pages4k_requests : pages4k root flags m va pa n =
    m.enterAll root (pageRequests false flags pageSize va pa n) := pageLoop_requests fun _ _ _ => rfl

theorem pages2m_requests : pages2m root flags m va pa n =
    m.enterAll root (pageRequests true flags page2m va pa n) := pageLoop_requests fun _ _ _ => rfl

theorem mem_pageRequests {large : Bool} (hva : va < 2 ^ 64) (hpa : pa < 2 ^ 64) :
    r ∈ pageRequests large flags size va pa n ↔
      ∃ i < n, r = ⟨large, add64 va (i * size), add64 pa (i * size), flags⟩ := by
  induction n generalizing va pa with
  | zero => simp [pageRequests]
  | succ n ih =>
    have fits : ∀ x, add64 x size < 2 ^ 64 := fun x => Nat.mod_lt _ (by decide)
    have zero : ∀ x < 2 ^ 64, add64 x (0 * size) = x := fun x lt => by
      rw [Nat.zero_mul]
      exact Nat.mod_eq_of_lt lt
    have shift : ∀ x i, add64 (add64 x size) (i * size) = add64 x ((i + 1) * size) := fun x i => by
      rw [add64_add, Nat.succ_mul, Nat.add_comm size]
    rw [pageRequests, List.mem_cons, ih (fits va) (fits pa), Nat.exists_lt_succ_left, zero va hva, zero pa hpa]
    simp only [shift]

/-! ### The parts of the address space -/

def identityRequests : List Request := pageRequests false (pteW ||| pteNX) pageSize 0 0 512

def sectionRequests (k : KernelAddress) (start stop flags : Nat) : List Request :=
  pageRequests false flags pageSize (sectionStart start)
    (virtToPhysKernel (sectionStart start) k.physicalBase k.virtualBase) (sectionSize start stop / pageSize)

def kernelRequests (k : KernelAddress) (s : Symbols) : List Request :=
  sectionRequests k s.textStart s.textEnd 0 ++ sectionRequests k s.rodataStart s.rodataEnd pteNX ++
    sectionRequests k s.dataStart s.bssEnd (pteW ||| pteNX)

/-- The pages of a range of the HHDM: small ones up to a 2 MiB boundary, large ones, and the small ones left. -/
def directRequests (hhdm lo len : Nat) : List Request :=
  let head := headPages lo len * pageSize
  let body := bodyPages lo len * page2m
  pageRequests false (pteW ||| pteNX) pageSize (add64 hhdm lo) lo (headPages lo len) ++
    pageRequests true pteNX page2m (add64 hhdm (lo + head)) (lo + head) (bodyPages lo len) ++
    pageRequests false (pteW ||| pteNX) pageSize (add64 hhdm (lo + head + body)) (lo + head + body) (tailPages lo len)

def entryRequests (hhdm : Nat) (e : MemmapEntry) : List Request :=
  directRequests hhdm (alignDown e.base pageSize) (span e)

def hhdmRequests (hhdm : Nat) (entries : List MemmapEntry) : List Request :=
  entries.flatMap (entryRequests hhdm) ++ [⟨true, hhdm, 0, pteNX⟩]

theorem mapIdentityMinimal_requests : m.mapIdentityMinimal root = m.enterAll root identityRequests := by
  rw [mapIdentityMinimal, show page2m = 512 * pageSize from rfl, mapRange4k_eq (by decide), pages4k_requests]
  rfl

theorem sectionSize_mod (start stop : Nat) : sectionSize start stop % pageSize = 0 := by
  unfold sectionSize alignUp alignDown pageSize
  omega

theorem mapSection_requests {start stop : Nat} :
    m.mapSection root k start stop flags = m.enterAll root (sectionRequests k start stop flags) := by
  have top := alignUp_lt stop pageSize
  have whole : sectionSize start stop = sectionSize start stop / pageSize * pageSize :=
    (Nat.div_mul_cancel (Nat.dvd_of_mod_eq_zero (sectionSize_mod start stop))).symm
  unfold mapSection sectionRequests sectionStart
  dsimp only
  split
  · change m.mapRange4k root _ _ (sectionSize start stop) flags = _
    rw [whole, mapRange4k_eq, pages4k_requests, ← whole]
    rw [← whole, sectionSize]
    omega
  · rw [show sectionSize start stop = 0 from Nat.sub_eq_zero_of_le (by omega)]
    rfl

theorem mapKernelHigherHalf_requests (address : boot.kernelAddress = some k) :
    m.mapKernelHigherHalf boot root = m.enterAll root (kernelRequests k boot.symbols) := by
  unfold mapKernelHigherHalf kernelRequests
  rw [address, enterAll_append, enterAll_append, bind_assoc, ← mapSection_requests]
  refine bind_congr fun m₁ => ?_
  rw [← mapSection_requests]
  exact bind_congr fun m₂ => mapSection_requests

theorem mapRangeHugeFirst_requests {lo len : Nat} (al : lo % pageSize = 0) (whole : len % pageSize = 0)
    (aligned : hhdm % page2m = 0) (small : lo + len ≤ 2 ^ 52) :
    m.mapRangeHugeFirst root (add64 hhdm lo) lo len 0 = m.enterAll root (directRequests hhdm lo len) := by
  have same : add64 hhdm lo % page2m = lo % page2m := by
    rw [add64_mod_page2m, Nat.add_mod, aligned, Nat.zero_add, Nat.mod_mod]
  rw [mapRangeHugeFirst_eq (split_pages al whole) same (Nat.mod_lt _ (by decide)) small]
  unfold directRequests
  simp only [Nat.zero_or, pages4k_requests, pages2m_requests, enterAll_append, bind_assoc, add64_add, Nat.add_assoc]

theorem entryRequests_nil (none : span e = 0) : entryRequests hhdm e = [] := by
  rw [entryRequests, none, directRequests, headPages, bodyPages, tailPages, headPages]
  simp only [Nat.zero_div, Nat.min_zero, Nat.zero_mul, Nat.sub_self, Nat.zero_mod, pageRequests, List.nil_append]

theorem mapEntry_requests (aligned : m.paging.hhdm % page2m = 0)
    (small : span e = 0 ∨ alignDown e.base pageSize + span e ≤ 2 ^ 52) :
    m.mapEntry root e = m.enterAll root (entryRequests m.paging.hhdm e) := by
  have nothing : span e = 0 → m.enterAll root (entryRequests m.paging.hhdm e) = .ok m := fun none => by
    rw [entryRequests_nil none, enterAll_nil]
  unfold mapEntry
  by_cases inc : included e.type = true
  · rw [if_neg (by simp [inc])]
    dsimp only
    have size : span e = alignUp e.stop pageSize - alignDown e.base pageSize := if_pos inc
    split
    · exact (nothing (by omega)).symm
    · rw [← size]
      exact mapRangeHugeFirst_requests (Nat.mul_mod_left _ _) (span_aligned e) aligned (by omega)
  · rw [if_pos (by simpa using inc)]
    exact (nothing (if_neg inc)).symm

theorem mapEntries_requests (h : Hierarchy m root) (aligned : m.paging.hhdm % page2m = 0)
    (small : ∀ e ∈ entries, span e = 0 ∨ alignDown e.base pageSize + span e ≤ 2 ^ 52) :
    m.mapEntries root entries = m.enterAll root (entries.flatMap (entryRequests m.paging.hhdm)) := by
  induction entries generalizing m with
  | nil => rfl
  | cons e rest ih =>
    rw [mapEntries, List.flatMap_cons, enterAll_append, mapEntry_requests aligned (small e List.mem_cons_self)]
    refine bind_congr_ok fun m₁ first => ?_
    have evolves := enterAll_evolves h first
    rw [← evolves.paging] at aligned ⊢
    exact ih (evolves.hierarchy h) aligned fun e he => small e (List.mem_cons_of_mem _ he)

theorem mapHhdm_ready (memmap : boot.memmap = some entries) (run : m.mapHhdm boot root = .ok m') :
    m.paging.hhdm ≠ 0 ∧ entries ≠ [] := by
  unfold mapHhdm at run
  rw [memmap] at run
  split at run
  · cases run
  · refine ⟨‹_›, fun none => ?_⟩
    rw [none] at run
    cases run

theorem mapHhdm_requests (h : Hierarchy m root) (hhdm : m.paging.hhdm ≠ 0) (aligned : m.paging.hhdm % page2m = 0)
    (memmap : boot.memmap = some entries) (nonempty : entries ≠ [])
    (small : ∀ e ∈ entries, span e = 0 ∨ alignDown e.base pageSize + span e ≤ 2 ^ 52) :
    m.mapHhdm boot root = m.enterAll root (hhdmRequests m.paging.hhdm entries) := by
  obtain ⟨e, rest, rfl⟩ := List.exists_cons_of_ne_nil nonempty
  rw [mapHhdm, if_neg hhdm, memmap, hhdmRequests, enterAll_append]
  dsimp only
  rw [mapEntries_requests h aligned small]
  refine bind_congr_ok fun m₁ first => ?_
  rw [(enterAll_evolves h first).paging, enterAll_singleton]
  rfl

theorem mem_sectionRequests {start stop : Nat} : r ∈ sectionRequests k start stop flags ↔
    ∃ x < sectionSize start stop, x % pageSize = 0 ∧ r = ⟨false, sectionStart start + x,
      add64 (virtToPhysKernel (sectionStart start) k.physicalBase k.virtualBase) x, flags⟩ := by
  have top := alignUp_lt stop pageSize
  have whole := sectionSize_mod start stop
  have last : ∀ x < sectionSize start stop, sectionStart start + x < 2 ^ 64 := fun x lt => by
    unfold sectionStart sectionSize at *
    omega
  by_cases some : sectionSize start stop = 0
  · simp [sectionRequests, some, pageRequests]
  have low := Nat.lt_of_le_of_lt (Nat.le_add_right _ _) (last 0 (by omega))
  have phys : virtToPhysKernel (sectionStart start) k.physicalBase k.virtualBase < 2 ^ 64 := Nat.mod_lt _ (by decide)
  rw [sectionRequests, mem_pageRequests low phys]
  constructor
  · rintro ⟨i, lt, rfl⟩
    have inside : i * pageSize < sectionSize start stop := by
      unfold pageSize at *
      omega
    refine ⟨i * pageSize, inside, Nat.mul_mod_left _ _, ?_⟩
    rw [add64_of_lt (last _ inside)]
  · rintro ⟨x, lt, page, rfl⟩
    have index : x / pageSize * pageSize = x := Nat.div_mul_cancel (Nat.dvd_of_mod_eq_zero page)
    refine ⟨x / pageSize, ?_, ?_⟩
    · unfold pageSize at *
      omega
    · rw [index, add64_of_lt (last x lt)]

theorem mem_identityRequests : r ∈ identityRequests ↔
    ∃ x < page2m, x % pageSize = 0 ∧ r = ⟨false, x, x, pteW ||| pteNX⟩ := by
  have low : 0 < 2 ^ 64 := by decide
  rw [identityRequests, mem_pageRequests low low]
  have place : ∀ x < page2m, add64 0 x = x := fun x lt => by
    unfold add64 page2m at *
    omega
  constructor
  · rintro ⟨i, lt, rfl⟩
    have inside : i * pageSize < page2m := by
      unfold page2m pageSize
      omega
    exact ⟨i * pageSize, inside, Nat.mul_mod_left _ _, by rw [place _ inside]⟩
  · rintro ⟨x, lt, page, rfl⟩
    have index : x / pageSize * pageSize = x := Nat.div_mul_cancel (Nat.dvd_of_mod_eq_zero page)
    refine ⟨x / pageSize, ?_, by rw [index, place x lt]⟩
    unfold page2m pageSize at *
    omega

/-! ### Which pages a range of the HHDM asks for -/

def Chunk (lo len p : Nat) : Prop := lo ≤ alignDown p page2m ∧ alignDown p page2m + page2m ≤ lo + len

theorem Chunk.inside {lo len p : Nat} (h : Chunk lo len p) : lo ≤ p ∧ p < lo + len := by
  unfold Chunk alignDown page2m at h
  omega

theorem Chunk.congr {lo len p q : Nat} (same : q / page2m = p / page2m) : Chunk lo len q ↔ Chunk lo len p := by
  unfold Chunk alignDown
  rw [same]

section Split

variable {lo len a b c i p : Nat} (split : Split lo len a b c)

include split

theorem Split.rest_aligned (more : a * pageSize < len) : (lo + a * pageSize) % page2m = 0 := by
  by_contra odd
  exact split.after ⟨by omega, odd⟩

theorem Split.head_page (al : lo % pageSize = 0) (lt : i < a) : ¬ Chunk lo len (lo + i * pageSize) := by
  rintro ⟨low, -⟩
  -- The boundary below the page would be a page of the head too.
  have boundary := (split.before ((alignDown (lo + i * pageSize) page2m - lo) / pageSize) ?_).2
  · apply boundary
    unfold alignDown page2m pageSize at *
    omega
  · unfold alignDown page2m pageSize at *
    omega

theorem Split.body_page (lt : i < b) : (lo + a * pageSize + i * page2m) % page2m = 0 ∧
    Chunk lo len (lo + a * pageSize + i * page2m) := by
  have sum := split.sum
  have aligned := split.rest_aligned (by unfold page2m pageSize at *; omega)
  unfold Chunk alignDown page2m pageSize at *
  omega

theorem Split.tail_page (lt : i < c) : ¬ Chunk lo len (lo + a * pageSize + b * page2m + i * pageSize) := by
  have sum := split.sum
  have tail := split.tail
  have aligned := split.rest_aligned (by unfold page2m pageSize at *; omega)
  unfold Chunk alignDown page2m pageSize at *
  omega

theorem Split.cases (al : lo % pageSize = 0) (low : lo ≤ p) (high : p < lo + len) (page : p % pageSize = 0) :
    (∃ i < a, p = lo + i * pageSize) ∨ Chunk lo len p ∨ ∃ i < c, p = lo + a * pageSize + b * page2m + i * pageSize := by
  have sum := split.sum
  by_cases head : p < lo + a * pageSize
  · refine .inl ⟨(p - lo) / pageSize, ?_⟩
    unfold page2m pageSize at *
    omega
  have aligned := split.rest_aligned (by omega)
  by_cases body : p < lo + a * pageSize + b * page2m
  · refine .inr (.inl ?_)
    unfold Chunk alignDown page2m pageSize at *
    omega
  · refine .inr (.inr ⟨(p - (lo + a * pageSize + b * page2m)) / pageSize, ?_⟩)
    unfold page2m pageSize at *
    omega

theorem Split.chunk_index (al : lo % pageSize = 0) (chunk : Chunk lo len p) (aligned : p % page2m = 0) :
    ∃ i < b, p = lo + a * pageSize + i * page2m := by
  have sum := split.sum
  have tail := split.tail
  have head : lo + a * pageSize ≤ p := by
    by_contra before
    refine split.head_page al (i := (p - lo) / pageSize) ?_ ?_
    · unfold Chunk alignDown page2m pageSize at *
      omega
    · rwa [show lo + (p - lo) / pageSize * pageSize = p by unfold Chunk alignDown page2m pageSize at *; omega]
  have rest := split.rest_aligned (by unfold Chunk alignDown page2m pageSize at *; omega)
  refine ⟨(p - (lo + a * pageSize)) / page2m, ?_⟩
  unfold Chunk alignDown page2m pageSize at *
  omega

end Split

/-- The request for the page `p`: a large one where the whole 2 MiB are wanted. -/
def directRequest (hhdm p : Nat) (large : Bool) : Request :=
  ⟨large, add64 hhdm p, p, if large then pteNX else pteW ||| pteNX⟩

theorem mem_directRequests {lo len : Nat} (al : lo % pageSize = 0) (whole : len % pageSize = 0)
    (small : lo + len ≤ 2 ^ 52) : r ∈ directRequests hhdm lo len ↔
      (∃ p, Chunk lo len p ∧ p % page2m = 0 ∧ r = directRequest hhdm p true) ∨
        ∃ p, lo ≤ p ∧ p < lo + len ∧ p % pageSize = 0 ∧ ¬ Chunk lo len p ∧ r = directRequest hhdm p false := by
  have split := split_pages al whole
  have sum := split.sum
  unfold directRequests
  dsimp only
  generalize headPages lo len = a at *
  generalize bodyPages lo len = b at *
  generalize tailPages lo len = c at *
  have fits : ∀ x, add64 hhdm x < 2 ^ 64 := fun x => Nat.mod_lt _ (by decide)
  rw [List.mem_append, List.mem_append, mem_pageRequests (fits _) (by omega), mem_pageRequests (fits _) (by omega),
    mem_pageRequests (fits _) (by omega)]
  simp only [add64_add]
  constructor
  · rintro ((⟨i, lt, rfl⟩ | ⟨i, lt, rfl⟩) | ⟨i, lt, rfl⟩)
    · have low : add64 lo (i * pageSize) = lo + i * pageSize := add64_of_lt (by unfold page2m pageSize at *; omega)
      refine .inr ⟨lo + i * pageSize, by omega, (split.before i lt).1, ?_, split.head_page al lt, ?_⟩
      · rw [Nat.add_mul_mod_self_right, al]
      · rw [low]
        rfl
    · have low : add64 (lo + a * pageSize) (i * page2m) = lo + a * pageSize + i * page2m :=
        add64_of_lt (by unfold page2m pageSize at *; omega)
      obtain ⟨aligned, chunk⟩ := split.body_page lt
      refine .inl ⟨_, chunk, aligned, ?_⟩
      rw [low]
      rfl
    · have low : add64 (lo + a * pageSize + b * page2m) (i * pageSize) = lo + a * pageSize + b * page2m + i * pageSize :=
        add64_of_lt (by unfold page2m pageSize at *; omega)
      refine .inr ⟨_, by omega, ?_, ?_, split.tail_page lt, ?_⟩
      · unfold page2m pageSize at *
        omega
      · unfold page2m pageSize at *
        omega
      · rw [low]
        rfl
  · rintro (⟨p, chunk, aligned, rfl⟩ | ⟨p, low, high, page, small', rfl⟩)
    · obtain ⟨i, lt, rfl⟩ := split.chunk_index al chunk aligned
      refine .inl (.inr ⟨i, lt, ?_⟩)
      rw [show add64 (lo + a * pageSize) (i * page2m) = lo + a * pageSize + i * page2m from
        add64_of_lt (by unfold page2m pageSize at *; omega)]
      rfl
    · rcases split.cases al low high page with ⟨i, lt, rfl⟩ | chunk | ⟨i, lt, rfl⟩
      · refine .inl (.inl ⟨i, lt, ?_⟩)
        rw [show add64 lo (i * pageSize) = lo + i * pageSize from add64_of_lt (by unfold page2m pageSize at *; omega)]
        rfl
      · exact absurd chunk small'
      · refine .inr ⟨i, lt, ?_⟩
        rw [show add64 (lo + a * pageSize + b * page2m) (i * pageSize) = lo + a * pageSize + b * page2m + i * pageSize from
          add64_of_lt (by unfold page2m pageSize at *; omega)]
        rfl

theorem mem_entryRequests (small : span e = 0 ∨ alignDown e.base pageSize + span e ≤ 2 ^ 52) :
    r ∈ entryRequests hhdm e ↔
      (∃ p, Chunk (alignDown e.base pageSize) (span e) p ∧ p % page2m = 0 ∧ r = directRequest hhdm p true) ∨
        ∃ p, InSpan e p ∧ p % pageSize = 0 ∧ ¬ Chunk (alignDown e.base pageSize) (span e) p ∧
          r = directRequest hhdm p false := by
  rcases small with none | small
  · rw [entryRequests_nil none]
    refine ⟨fun hr => (List.not_mem_nil hr).elim, ?_⟩
    rintro (⟨p, chunk, _⟩ | ⟨p, inside, _⟩)
    · unfold Chunk alignDown page2m at chunk
      omega
    · unfold InSpan at inside
      omega
  · have al : alignDown e.base pageSize % pageSize = 0 := Nat.mul_mod_left _ _
    rw [entryRequests, mem_directRequests al (span_aligned e) small]
    simp only [InSpan, and_assoc]

/-- Every page that `map_hhdm` enters, and when it is a 2 MiB page. -/
theorem hhdmRequests_cases (offset : hhdm < 2 ^ 64)
    (small : ∀ e ∈ entries, span e = 0 ∨ alignDown e.base pageSize + span e ≤ 2 ^ 52) (hr : r ∈ hhdmRequests hhdm entries) :
    ∃ p large, r = directRequest hhdm p large ∧ p % (if large then page2m else pageSize) = 0 ∧
      (p = 0 ∧ large = true ∨ ∃ e ∈ entries, InSpan e p ∧ (large = true ↔ Chunk (alignDown e.base pageSize) (span e) p)) := by
  rw [hhdmRequests, List.mem_append, List.mem_singleton, List.mem_flatMap] at hr
  rcases hr with ⟨e, he, hr⟩ | rfl
  · rcases (mem_entryRequests (small e he)).mp hr with ⟨p, chunk, page, rfl⟩ | ⟨p, inside, page, broken, rfl⟩
    · exact ⟨p, true, rfl, page, .inr ⟨e, he, chunk.inside, iff_of_true rfl chunk⟩⟩
    · exact ⟨p, false, rfl, page, .inr ⟨e, he, inside, iff_of_false Bool.false_ne_true broken⟩⟩
  · refine ⟨0, true, ?_, rfl, .inl ⟨rfl, rfl⟩⟩
    rw [directRequest, add64_of_lt offset]
    rfl

/-! ### Addresses of the HHDM

For any offset on a 2 MiB boundary, also one from which the window wraps around. -/

section Offset

variable {p x : Nat} (aligned : hhdm % page2m = 0) (hp : p < window) (hx : x < window)

include aligned hp hx

theorem directRequest_covers_small : (directRequest hhdm p false).Covers (add64 hhdm x) ↔ x / pageSize = p / pageSize := by
  change SamePage (add64 hhdm p) (add64 hhdm x) ↔ _
  unfold SamePage add64 page2m pageSize window at *
  omega

theorem directRequest_covers_large : (directRequest hhdm p true).Covers (add64 hhdm x) ↔ x / page2m = p / page2m := by
  change Same2m (add64 hhdm p) (add64 hhdm x) ↔ _
  unfold Same2m add64 page2m window at *
  omega

theorem directRequest_leaf {large : Bool} (page : p % (if large then page2m else pageSize) = 0)
    (covers : (directRequest hhdm p large).Covers (add64 hhdm x)) :
    leafAddress (directRequest hhdm p large).leaf.1 (directRequest hhdm p large).leaf.2 (add64 hhdm x) = x := by
  cases large with
  | false =>
    rw [directRequest_covers_small aligned hp hx] at covers
    change leafAddress (leaf4k p _) 0 _ = x
    change p % pageSize = 0 at page
    rw [leafAddress_4k]
    unfold add64 page2m pageSize window at *
    omega
  | true =>
    rw [directRequest_covers_large aligned hp hx] at covers
    change leafAddress (leaf2m p _) 1 _ = x
    change p % page2m = 0 at page
    rw [leafAddress_2m page (by unfold window at hp; omega)]
    unfold add64 page2m window at *
    omega

end Offset

section Window

variable {x : Nat} (aligned : hhdm % page2m = 0)
  (small : ∀ e ∈ entries, span e = 0 ∨ alignDown e.base pageSize + span e ≤ window)

include aligned small

theorem hhdmRequests_leaf (hr : r ∈ hhdmRequests hhdm entries) (hx : x < window) (covers : r.Covers (add64 hhdm x)) :
    leafAddress r.leaf.1 r.leaf.2 (add64 hhdm x) = x := by
  have top : window = 2 ^ 46 := rfl
  rw [hhdmRequests, List.mem_append, List.mem_singleton, List.mem_flatMap] at hr
  rcases hr with ⟨e, he, hr⟩ | rfl
  · have small := small e he
    rcases (mem_entryRequests (by omega)).mp hr with ⟨p, chunk, page, rfl⟩ | ⟨p, inside, page, _, rfl⟩
    · have inside := chunk.inside
      exact directRequest_leaf aligned (by omega) hx page covers
    · exact directRequest_leaf aligned (by unfold InSpan at inside; omega) hx page covers
  · have zero : (0 : Nat) < window := by decide
    have page : (0 : Nat) % (if true = true then page2m else pageSize) = 0 := by decide
    refine directRequest_leaf aligned zero hx page ?_
    change Same2m hhdm _ at covers
    change Same2m (add64 hhdm 0) _
    unfold Same2m add64 at *
    omega

theorem hhdmRequests_covers (he : e ∈ entries) (inside : InSpan e x) :
    ∃ r ∈ hhdmRequests hhdm entries, r.Covers (add64 hhdm x) := by
  have small := small e he
  have top : window = 2 ^ 46 := rfl
  have hx : x < window := by
    unfold InSpan at inside
    omega
  have mem : ∀ r ∈ entryRequests hhdm e, r ∈ hhdmRequests hhdm entries := fun r hr =>
    List.mem_append_left _ (List.mem_flatMap_of_mem he hr)
  by_cases whole : Chunk (alignDown e.base pageSize) (span e) x
  · have start : alignDown x page2m < window := Nat.lt_of_le_of_lt (Nat.div_mul_le_self _ _) hx
    have same : alignDown x page2m / page2m = x / page2m := Nat.mul_div_cancel _ (by decide)
    refine ⟨directRequest hhdm (alignDown x page2m) true, mem _ ((mem_entryRequests (by omega)).mpr (.inl
      ⟨_, ?_, Nat.mul_mod_left _ _, rfl⟩)), (directRequest_covers_large aligned start hx).mpr same.symm⟩
    exact (Chunk.congr same).mpr whole
  · have start : alignDown x pageSize < window := Nat.lt_of_le_of_lt (Nat.div_mul_le_self _ _) hx
    have same : alignDown x pageSize / pageSize = x / pageSize := Nat.mul_div_cancel _ (by decide)
    have chunk : alignDown x pageSize / page2m = x / page2m := by
      unfold alignDown pageSize page2m
      omega
    refine ⟨directRequest hhdm (alignDown x pageSize) false, mem _ ((mem_entryRequests (by omega)).mpr (.inr
      ⟨_, ?_, Nat.mul_mod_left _ _, ?_, rfl⟩)), (directRequest_covers_small aligned start hx).mpr same.symm⟩
    · unfold InSpan alignDown pageSize at *
      omega
    · exact fun whole' => whole ((Chunk.congr chunk).mp whole')

end Window

end Voyager.Machine
