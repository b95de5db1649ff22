import Voyager.Acpi.Madt
import Voyager.Heap.Resident

/-!
# The parsed MADT

`madt_init` with its four vectors on the kernel heap, on a table as the firmware lays it out.
Only `krealloc` can stop it.
-/

namespace Voyager.Acpi

open Lib ByteSpace Heap

/-! ### The code -/

section

variable {σ : Type} (B : Backing σ)

def heapPush (base : Nat) (v : WordVec) (s : State σ) (header : Nat) : Kernel (WordVec × State σ) :=
  v.vectorPushBack B s (add64 base header)

def Madt.vacant (s : State σ) : Madt (State σ) WordVec := ⟨s, fun _ => .init, []⟩

end

/-! ### The table -/

def recordLength (table : Bytes) (header : Nat) : Nat := (table (header + 1)).toNat

/-- The size of the structure for records of type `id`, of the header for those of another type. -/
def recordSize (id : Nat) : Nat :=
  match id with
  | 0 => 8
  | 1 => 12
  | 2 => 10
  | 4 => 6
  | _ => 2

/-- Records lie at `headers`, each where the one before ends and the first at `a`. -/
def Laid (table : Bytes) (a : Nat) : List Nat → Prop
  | [] => True
  | header :: headers =>
    header = a ∧ 2 ≤ recordLength table header ∧ recordSize (table header).toNat ≤ recordLength table header ∧
      Laid table (a + recordLength table header) headers

instance decidableLaid (table : Bytes) : ∀ a headers, Decidable (Laid table a headers)
  | _, [] => .isTrue trivial
  | a, header :: headers =>
    have := decidableLaid table (a + recordLength table header) headers
    inferInstanceAs (Decidable (_ ∧ _ ∧ _ ∧ _))

structure WellFormed (table : Bytes) (headers : List Nat) : Prop where
  laid : Laid table madtSize headers
  length : sdtLength table = madtSize + (headers.map (recordLength table)).sum

def ofType (table : Bytes) (kind : Kind) (headers : List Nat) : List Nat :=
  headers.filter fun header => (table header).toNat = kind.id

def pointers (base : Nat) (table : Bytes) (kind : Kind) (headers : List Nat) : List Nat :=
  (ofType table kind headers).map (add64 base)

/-- Each vector holds exactly the records of its type, in the order of the table. -/
def Complete {σ : Type} (B : Backing σ) (base : Nat) (table : Bytes) (headers : List Nat)
    (m : Madt (State σ) WordVec) : Prop :=
  ∀ kind, ((m.vectors kind).cells B m.memory).toList = pointers base table kind headers

theorem Kind.ofId_eq_some {id : Nat} {kind : Kind} : Kind.ofId id = some kind ↔ id = kind.id := by
  constructor
  · intro found
    unfold Kind.ofId at found
    split at found <;> cases found <;> rfl
  · rintro rfl
    cases kind <;> rfl

/-! ### The walk -/

section Walk

variable {ρ V : Type} {push : V → ρ → Nat → Kernel (V × ρ)} {table : Bytes} {m : Madt ρ V} {headers : List Nat}
  {offset fuel : Nat}

theorem madtLoop_laid (laid : Laid table (madtSize + offset) headers)
    (length : sdtLength table = madtSize + offset + (headers.map (recordLength table)).sum)
    (enough : headers.length < fuel) :
    madtLoop push table m offset fuel = headers.foldlM (Madt.record push table) m := by
  obtain ⟨fuel, rfl⟩ := Nat.exists_eq_add_of_lt enough
  have bound := sdtLength_lt table
  induction headers generalizing m offset with
  | nil =>
    rw [List.map_nil, List.sum_nil] at length
    rw [List.length_nil, Nat.zero_add, madtLoop_done (by rw [remaining (by omega) (by omega)]; omega)]
    rfl
  | cons header headers ih =>
    obtain ⟨rfl, two, _, rest⟩ := laid
    rw [List.map_cons, List.sum_cons] at length
    have step : headerLength table (madtSize + offset) = recordLength table (madtSize + offset) := max_eq_left two
    have next : add64 offset (recordLength table (madtSize + offset)) =
        offset + recordLength table (madtSize + offset) := add64_of_lt (by omega)
    have fuels : ((madtSize + offset) :: headers).length + fuel + 1 = headers.length + fuel + 1 + 1 := by
      rw [List.length_cons]
      omega
    rw [fuels, madtLoop_more (by rw [remaining (by omega) (by omega)]; omega), step, next, List.foldlM_cons]
    rw [Nat.add_assoc] at rest
    exact bind_congr_ok fun m _ => ih rest (by omega) (by omega)

theorem madtInit_laid (wf : WellFormed table headers) (enough : headers.length < fuel) :
    madtInit push (some table) m fuel = headers.foldlM (Madt.record push table) m :=
  madtLoop_laid wf.laid wf.length enough

end Walk

/-! ### The vectors -/

section Vectors

variable {σ : Type} {B : Backing σ} {c : Client σ} {table : Bytes} {m : Madt (State σ) WordVec} {read headers : List Nat}
  {base header fuel : Nat} {kind : Kind}

theorem pointers_append (base : Nat) (table : Bytes) (kind : Kind) (headers : List Nat) (header : Nat) :
    pointers base table kind (headers ++ [header]) = pointers base table kind headers ++
      if (table header).toNat = kind.id then [add64 base header] else [] := by
  unfold pointers ofType
  rw [List.filter_append, List.map_append]
  by_cases same : (table header).toNat = kind.id <;> simp [same]

structure Collected (B : Backing σ) (base : Nat) (table : Bytes) (read : List Nat) (live : List (Nat × Nat))
    (m : Madt (State σ) WordVec) : Prop where
  sound : Client.Sound B ⟨m.memory, live⟩
  resident : ∀ kind, WordVec.Resident B ⟨m.memory, live⟩ (m.vectors kind) (pointers base table kind read)
  apart : ∀ kind kind', kind ≠ kind' → (m.vectors kind).data = (m.vectors kind').data → (m.vectors kind).data = 0

theorem Collected.vacant (sound : c.Sound B) (base : Nat) (table : Bytes) :
    Collected B base table [] c.live (.vacant c.heap) :=
  ⟨sound, fun _ => .init _ _, fun _ _ _ _ => rfl⟩

variable {live live' : List (Nat × Nat)} {w : WordVec} {t : State σ}

theorem Collected.other (h : Collected B base table read live m)
    (others : WordVec.Others B ⟨m.memory, live⟩ (m.vectors kind) w t live') {k : Kind} (ne : k ≠ kind) :
    WordVec.Resident B ⟨t, live'⟩ (m.vectors k) (pointers base table k read) ∧
      ((m.vectors k).data = w.data → (m.vectors k).data = 0) := by
  have apart : ∀ y ∈ live, y.1 = (m.vectors k).data → y.1 ≠ (m.vectors kind).data := by
    intro y hy here same
    have null := h.apart k kind ne (here.symm.trans same)
    exact h.sound.not_null (List.mem_map.mpr ⟨y, hy, here.trans null⟩)
  constructor
  · refine (h.resident k).frame (fun y hy here => (others.stays y hy (apart y hy here)).1) fun a held low high => ?_
    exact others.same a ⟨_, Client.mem_forget.mpr ⟨held, apart _ held rfl⟩, low, high⟩
  · intro taken
    rcases (h.resident k).owned with ⟨null, _⟩ | held
    · exact null
    · exact absurd taken (others.stays _ held (apart _ held rfl)).2

theorem Collected.push (h : Collected B base table read live m) (wanted : Kind.ofId (table header).toNat = some kind)
    (sound : Client.Sound B ⟨t, live'⟩)
    (res : WordVec.Resident B ⟨t, live'⟩ w (pointers base table kind read ++ [add64 base header]))
    (others : WordVec.Others B ⟨m.memory, live⟩ (m.vectors kind) w t live') :
    Collected B base table (read ++ [header]) live' ⟨t, Function.update m.vectors kind w, header :: m.headers⟩ := by
  have id := Kind.ofId_eq_some.mp wanted
  refine ⟨sound, fun k => ?_, fun k k' ne => ?_⟩
  · dsimp only
    rw [pointers_append]
    by_cases same : k = kind
    · subst same
      rw [Function.update_self, if_pos id]
      exact res
    · have skipped : (table header).toNat ≠ k.id := fun own =>
        same (Option.some.inj ((Kind.ofId_eq_some.mpr own).symm.trans wanted))
      rw [Function.update_of_ne same, if_neg skipped, List.append_nil]
      exact (h.other others same).1
  · dsimp only
    by_cases first : k = kind
    · subst first
      rw [Function.update_self, Function.update_of_ne ne.symm]
      exact fun shared => shared.trans ((h.other others ne.symm).2 shared.symm)
    · rw [Function.update_of_ne first]
      by_cases second : k' = kind
      · subst second
        rw [Function.update_self]
        exact (h.other others first).2
      · rw [Function.update_of_ne second]
        exact h.apart k k' ne

theorem Collected.skip (h : Collected B base table read live m) (other : Kind.ofId (table header).toNat = none) :
    Collected B base table (read ++ [header]) live { m with headers := header :: m.headers } := by
  refine ⟨h.sound, fun kind => ?_, h.apart⟩
  have skipped : (table header).toNat ≠ kind.id := fun own => by
    rw [Kind.ofId_eq_some.mpr own] at other
    cases other
  rw [pointers_append, if_neg skipped, List.append_nil]
  exact h.resident kind

theorem Collected.record (h : Collected B base table read live m) (header : Nat) :
    match m.record (heapPush B base) table header with
    | .ok m' => ∃ live', Collected B base table (read ++ [header]) live' m'
    | .error e => e.IsPanic := by
  unfold Madt.record
  cases wanted : Kind.ofId (table header).toNat with
  | none => exact ⟨live, h.skip wanted⟩
  | some kind =>
    have spec := WordVec.vectorPushBack_spec h.sound (h.resident kind) (add64_lt base header)
    dsimp only [heapPush]
    cases run : (m.vectors kind).vectorPushBack B m.memory (add64 base header) with
    | error e =>
      dsimp only at spec
      rw [run] at spec
      exact spec
    | ok r =>
      dsimp only at spec
      rw [run] at spec
      obtain ⟨live', sound, res, others⟩ := spec
      exact ⟨live', h.push wanted sound res others⟩

theorem Collected.records (h : Collected B base table read live m) (headers : List Nat) :
    match headers.foldlM (Madt.record (heapPush B base) table) m with
    | .ok m' => ∃ live', Collected B base table (read ++ headers) live' m'
    | .error e => e.IsPanic := by
  induction headers generalizing read live m with
  | nil => exact ⟨live, by rwa [List.append_nil]⟩
  | cons header headers ih =>
    have first := h.record header
    rw [List.foldlM_cons]
    cases run : m.record (heapPush B base) table header with
    | error e =>
      rw [run] at first
      exact first
    | ok m' =>
      rw [run] at first
      obtain ⟨live', next⟩ := first
      rw [ok_bind, List.append_cons]
      exact ih next

theorem Collected.returns (h : Collected B base table read live m) (headers : List Nat)
    (short : read.length + headers.length ≤ 2 ^ 10) (roomy : WordVec.Roomy B m.memory headers.length) :
    ∃ m', headers.foldlM (Madt.record (heapPush B base) table) m = .ok m' := by
  induction headers generalizing read live m with
  | nil => exact ⟨m, rfl⟩
  | cons header headers ih =>
    have first := h.record header
    obtain ⟨m', run, left⟩ : ∃ m', m.record (heapPush B base) table header = .ok m' ∧
        WordVec.Roomy B m'.memory headers.length := by
      unfold Madt.record
      cases Kind.ofId (table header).toNat with
      | none => exact ⟨_, rfl, roomy.spend (Nat.le_add_right _ _)⟩
      | some kind =>
        have few : (pointers base table kind read).length ≤ 2 ^ 10 := by
          have := List.length_filter_le (fun header => (table header).toNat = kind.id) read
          rw [pointers, ofType, List.length_map]
          rw [List.length_cons] at short
          omega
        obtain ⟨w, t, run, left⟩ := WordVec.vectorPushBack_returns h.sound (h.resident kind) few
          (add64_lt base header) roomy
        refine ⟨_, bind_eq run, left⟩
    rw [run] at first
    obtain ⟨live', next⟩ := first
    rw [List.foldlM_cons, run, ok_bind]
    refine ih next ?_ left
    rw [List.length_append, List.length_singleton]
    rw [List.length_cons] at short
    omega

theorem madtInit_collected (sound : c.Sound B) (wf : WellFormed table headers) (enough : headers.length < fuel)
    (base : Nat) :
    match madtInit (heapPush B base) (some table) (.vacant c.heap) fuel with
    | .ok m => ∃ live, Collected B base table headers live m
    | .error e => e.IsPanic := by
  rw [madtInit_laid wf enough]
  exact (Collected.vacant sound base table).records headers

/-- Unless a `krealloc` panics, `madt_init` collects every record of the four types from a well-formed
table, each once and in the order of the table; and with room for them none panics. -/
theorem madtInit_collects (reached : c.Run B) (wf : WellFormed table headers) (enough : headers.length < fuel)
    (base : Nat) :
    (match madtInit (heapPush B base) (some table) (.vacant c.heap) fuel with
      | .ok m => Complete B base table headers m
      | .error e => e.IsPanic) ∧
      (WordVec.Roomy B c.heap headers.length →
        ∃ m, madtInit (heapPush B base) (some table) (.vacant c.heap) fuel = .ok m) := by
  have sound : c.Sound B := reached.inv
  constructor
  · have collected := madtInit_collected sound wf enough base
    cases run : madtInit (heapPush B base) (some table) (.vacant c.heap) fuel with
    | error e =>
      rw [run] at collected
      exact collected
    | ok m =>
      rw [run] at collected
      obtain ⟨live, h⟩ := collected
      exact fun kind => (h.resident kind).holds.list
  · intro roomy
    have short : headers.length ≤ 2 ^ 10 := by
      have room := roomy.room
      have low := sound.low
      unfold heapLimit pageSize at room
      omega
    rw [madtInit_laid wf enough]
    exact (Collected.vacant sound base table).returns headers (by rwa [List.length_nil, Nat.zero_add]) roomy

/-- More than `2 ^ 24` records of one type do not fit in the heap window. -/
theorem madtInit_panics (sound : c.Sound B) (wf : WellFormed table headers) (enough : headers.length < fuel)
    (base : Nat) (many : 2 ^ 24 < (ofType table kind headers).length) :
    ∃ why, madtInit (heapPush B base) (some table) (.vacant c.heap) fuel = .error (.panic why) := by
  have collected := madtInit_collected sound wf enough base
  cases run : madtInit (heapPush B base) (some table) (.vacant c.heap) fuel with
  | ok m =>
    rw [run] at collected
    obtain ⟨live, h⟩ := collected
    have few := (h.resident kind).length_le h.sound
    rw [pointers, List.length_map] at few
    omega
  | error e =>
    rw [run] at collected
    cases e with
    | panic why => exact ⟨why, rfl⟩
    | pageFault x => exact collected.elim
    | endless => exact collected.elim

end Vectors

/-! ### Tables -/

/-- A local APIC, a record of type 3, an NMI and a second local APIC. -/
def smallTable : Bytes := fun a =>
  match a with
  | 4 => 76
  | 44 => 0 | 45 => 8
  | 52 => 3 | 53 => 8
  | 60 => 4 | 61 => 6
  | 66 => 0 | 67 => 10
  | _ => 0

theorem madtInit_collects_small : ∃ (c : Client Client.FlatMemory) (m : Madt (State Client.FlatMemory) WordVec),
    c.Run Client.flatBacking ∧ WellFormed smallTable [44, 52, 60, 66] ∧
    madtInit (heapPush Client.flatBacking 0x1000) (some smallTable) (.vacant c.heap) 5 = .ok m ∧
    ((m.vectors .madtLapics).cells Client.flatBacking m.memory).toList = [0x102C, 0x1042] ∧
    ((m.vectors .madtNmis).cells Client.flatBacking m.memory).toList = [0x103C] := by
  obtain ⟨c, start⟩ := Client.flat_start
  have reached : c.Run Client.flatBacking := .start start
  have wf : WellFormed smallTable [44, 52, 60, 66] := ⟨by decide +kernel, by decide +kernel⟩
  have roomy : WordVec.Roomy Client.flatBacking c.heap 4 := by
    obtain ⟨_, _, run, _⟩ := start
    refine ⟨?_, fun _ _ => ⟨_, rfl⟩⟩
    rw [kmallocInit_curr run]
    decide
  have spec := madtInit_collects reached wf (show [44, 52, 60, 66].length < 5 by decide) 0x1000
  obtain ⟨m, run⟩ := spec.2 roomy
  rw [run] at spec
  exact ⟨c, m, reached, wf, run, (spec.1 .madtLapics).trans (by decide +kernel),
    (spec.1 .madtNmis).trans (by decide +kernel)⟩

def crowdedTable (n : Nat) : Bytes :=
  flat.store (fun a => if a % 8 = 5 then 8 else 0) 4 (madtSize + 8 * n) 4

theorem crowdedTable_records (n : Nat) {a : Nat} (past : madtSize ≤ a) :
    crowdedTable n a = if a % 8 = 5 then 8 else 0 := by
  unfold madtSize at past
  exact flat_region.get_store_of_not_mem trivial (fun _ _ => trivial) trivial (by omega)

theorem crowded_laid (n : Nat) {a k : Nat} (past : madtSize ≤ a) (phase : a % 8 = 4) :
    Laid (crowdedTable n) a (List.range' a k 8) ∧
      ((List.range' a k 8).map (recordLength (crowdedTable n))).sum = 8 * k ∧
      ofType (crowdedTable n) .madtLapics (List.range' a k 8) = List.range' a k 8 := by
  induction k generalizing a with
  | zero => exact ⟨trivial, rfl, rfl⟩
  | succ k ih =>
    have id : crowdedTable n a = 0 := by rw [crowdedTable_records n past, if_neg (by omega)]
    have length : recordLength (crowdedTable n) a = 8 := by
      rw [recordLength, crowdedTable_records n (by omega), if_pos (by omega)]
      rfl
    obtain ⟨laid, sum, all⟩ := ih (a := a + 8) (by omega) (by omega)
    rw [List.range'_succ]
    refine ⟨⟨rfl, by omega, ?_, ?_⟩, ?_, ?_⟩
    · rw [length, id]
      decide
    · rw [length]
      exact laid
    · rw [List.map_cons, List.sum_cons, sum, length]
      omega
    · unfold ofType at all ⊢
      rw [List.filter_cons_of_pos (by rw [id]; decide), all]

theorem crowded_length {n : Nat} (fits : madtSize + 8 * n < 2 ^ 32) : sdtLength (crowdedTable n) = madtSize + 8 * n :=
  (flat_region.load_store_same trivial fun _ _ => trivial).trans (Nat.mod_eq_of_lt fits)

/-- The table of `2 ^ 24 + 1` local APICs, which is well formed, has 128 MiB; its pointers do not fit in
the heap. -/
theorem madtInit_crowded : ∃ (c : Client Client.FlatMemory) (headers : List Nat), c.Run Client.flatBacking ∧
    sdtLength (crowdedTable (2 ^ 24 + 1)) = 134217780 ∧ WellFormed (crowdedTable (2 ^ 24 + 1)) headers ∧
    ∀ base fuel, headers.length < fuel → ∃ why,
      madtInit (heapPush Client.flatBacking base) (some (crowdedTable (2 ^ 24 + 1))) (.vacant c.heap) fuel =
        .error (.panic why) := by
  obtain ⟨c, start⟩ := Client.flat_start
  have reached : c.Run Client.flatBacking := .start start
  have length : sdtLength (crowdedTable (2 ^ 24 + 1)) = 134217780 := crowded_length (by decide)
  obtain ⟨laid, sum, all⟩ := crowded_laid (2 ^ 24 + 1) (k := 2 ^ 24 + 1) (Nat.le_refl madtSize) rfl
  have wf : WellFormed (crowdedTable (2 ^ 24 + 1)) (List.range' madtSize (2 ^ 24 + 1) 8) :=
    ⟨laid, length.trans (by rw [sum]; rfl)⟩
  refine ⟨c, _, reached, length, wf, fun base fuel enough => ?_⟩
  have many : 2 ^ 24 < (ofType (crowdedTable (2 ^ 24 + 1)) .madtLapics (List.range' madtSize (2 ^ 24 + 1) 8)).length := by
    rw [all, List.length_range']
    decide
  exact madtInit_panics reached.inv wf enough base many

end Voyager.Acpi
