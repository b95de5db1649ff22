import Voyager.Libc.Memory

/-!
# Finding a table

The messages of `acpi_find_sdt` are left out.
-/

namespace Voyager.Acpi

open Lib ByteSpace

structure Rsdp where
  revision : UInt8
  rsdtAddr : UInt32
  xsdtAddr : UInt64

/-- The static pointers of `acpi.c`; the RSDP is read through its pointer. -/
structure Tables where
  rsdp : Rsdp
  rsdt : Nat

def useXsdt (rsdp : Rsdp) : Bool := 2 ≤ rsdp.revision && rsdp.xsdtAddr ≠ 0

/-- `sizeof(struct sdt)`, and the offset of `data` in `struct rsdt`. -/
def sdtSize : Nat := 36

def entrySize (rsdp : Rsdp) : Nat := if useXsdt rsdp then 8 else 4

def sdtPointer (address : Nat) : Nat := add64 address Machine.higherHalfMemoryOffset

section

variable {σ : Type} (S : ByteSpace σ) (m : σ) (acpi : Tables) (signature : Nat)

def readEntry (i : Nat) : Kernel Nat :=
  if useXsdt acpi.rsdp then do return sdtPointer (← readField S m (acpi.rsdt + sdtSize + 8 * i) 8)
  else do return sdtPointer (← readField S m (acpi.rsdt + sdtSize + 4 * i) 4)

def findSdtFrom (index i : Nat) : Nat → Kernel Nat
  | 0 => .ok 0
  | left + 1 => do
    let sdt ← readEntry S m acpi i
    if (← Libc.memcmp S m sdt signature 4) ≠ 0 then findSdtFrom index (i + 1) left
    else if index > 0 then findSdtFrom (index - 1) (i + 1) left
    else return sdt

def acpiFindSdt (index : Nat) : Kernel Nat := do
  let length ← readField S m (acpi.rsdt + 4) 4
  findSdtFrom S m acpi signature index 0 (sub64 length sdtSize / entrySize acpi.rsdp)

structure Signature : Prop where
  mapped : Readable S m signature 4
  fits : signature + 4 ≤ 2 ^ 64

/-- There is a table at the physical address, where the kernel sees it. -/
structure SdtAt (address : Nat) : Prop where
  mapped : Readable S m (sdtPointer address) sdtSize
  fits : sdtPointer address + sdtSize ≤ 2 ^ 64
  notNull : sdtPointer address ≠ 0

/-- The table lists the addresses; bytes behind the last whole entry do not count. -/
structure Listing (addresses : List Nat) : Prop where
  header : Readable S m (acpi.rsdt + 4) 4
  length : sdtSize ≤ S.load m (acpi.rsdt + 4) 4
  count : addresses.length = (S.load m (acpi.rsdt + 4) 4 - sdtSize) / entrySize acpi.rsdp
  readable : ∀ i < addresses.length,
    Readable S m (acpi.rsdt + sdtSize + entrySize acpi.rsdp * i) (entrySize acpi.rsdp)
  entry : ∀ i (lt : i < addresses.length),
    S.load m (acpi.rsdt + sdtSize + entrySize acpi.rsdp * i) (entrySize acpi.rsdp) = addresses[i]
  tables : ∀ a ∈ addresses, SdtAt S m a

def Matches (address : Nat) : Prop := ∀ j < 4, S.get m (sdtPointer address + j) = S.get m (signature + j)

instance (address : Nat) : Decidable (Matches S m signature address) := inferInstanceAs (Decidable (∀ j < 4, _))

def matching (addresses : List Nat) : List Nat := addresses.filter (Matches S m signature ·)

end

variable {σ : Type} {S : ByteSpace σ} {m : σ} {acpi : Tables} {signature index i : Nat} {addresses : List Nat}

theorem Listing.readEntry (list : Listing S m acpi addresses) (lt : i < addresses.length) :
    readEntry S m acpi i = .ok (sdtPointer addresses[i]) := by
  have readable := list.readable i lt
  have entry := list.entry i lt
  unfold Acpi.readEntry
  unfold entrySize at readable entry
  split
  · rename_i wide
    rw [if_pos wide] at readable entry
    rw [bind_eq (readField_ok readable), entry]
    rfl
  · rename_i narrow
    rw [if_neg narrow] at readable entry
    rw [bind_eq (readField_ok readable), entry]
    rfl

theorem SdtAt.memcmp {a : Nat} (table : SdtAt S m a) (sig : Signature S m signature) :
    ∃ r, Libc.memcmp S m (sdtPointer a) signature 4 = .ok r ∧ (r = 0 ↔ Matches S m signature a) := by
  have fits := table.fits
  unfold sdtSize at fits
  apply Libc.memcmp_eq_zero_iff ⟨by omega, sig.fits⟩
  · intro j lt
    exact table.mapped j (by unfold sdtSize; omega)
  · exact sig.mapped

theorem findSdtFrom_eq (list : Listing S m acpi addresses) (sig : Signature S m signature) {left : Nat}
    (whole : i + left = addresses.length) :
    findSdtFrom S m acpi signature index i left =
      .ok (((matching S m signature (addresses.drop i)).map sdtPointer)[index]?.getD 0) := by
  induction left generalizing i index with
  | zero =>
    rw [List.drop_of_length_le (by omega)]
    rfl
  | succ left ih =>
    have lt : i < addresses.length := by omega
    obtain ⟨r, compared, iff⟩ := (list.tables _ (List.getElem_mem lt)).memcmp sig
    rw [findSdtFrom, bind_eq (list.readEntry lt), bind_eq compared, List.drop_eq_getElem_cons lt]
    unfold matching
    by_cases same : Matches S m signature addresses[i]
    · rw [if_neg (not_not.mpr (iff.mpr same)), List.filter_cons_of_pos (by simpa using same), List.map_cons]
      cases index with
      | zero =>
        rw [if_neg (Nat.lt_irrefl 0), List.getElem?_cons_zero, Option.getD_some]
        rfl
      | succ index =>
        rw [if_pos (Nat.succ_pos index), List.getElem?_cons_succ]
        exact ih (by omega)
    · rw [if_pos (fun zero => same (iff.mp zero)), List.filter_cons_of_neg (by simpa using same)]
      exact ih (by omega)

theorem acpiFindSdt_eq (list : Listing S m acpi addresses) (sig : Signature S m signature) (index : Nat) :
    acpiFindSdt S m acpi signature index =
      .ok (((matching S m signature addresses).map sdtPointer)[index]?.getD 0) := by
  have length := list.length
  have bound := S.load_lt m (acpi.rsdt + 4) 4
  have count : sub64 (S.load m (acpi.rsdt + 4) 4) sdtSize / entrySize acpi.rsdp = addresses.length := by
    rw [sub64_of_le length (by omega), list.count]
  rw [acpiFindSdt, bind_eq (readField_ok list.header), count]
  exact findSdtFrom_eq list sig (Nat.zero_add _)

/-- `acpi_find_sdt` returns the table at position `index` among the listed ones with the signature, and
`NULL` exactly if there are not as many; another table that lists the same addresses gives the same. -/
theorem acpiFindSdt_finds (list : Listing S m acpi addresses) (sig : Signature S m signature) (index : Nat) :
    ∃ r, acpiFindSdt S m acpi signature index = .ok r ∧
      (∀ a, (matching S m signature addresses)[index]? = some a → r = sdtPointer a) ∧
      (r = 0 ↔ (matching S m signature addresses).length ≤ index) ∧
      ∀ other, Listing S m other addresses → acpiFindSdt S m other signature index = .ok r := by
  have result : ∀ other, Listing S m other addresses → acpiFindSdt S m other signature index =
      .ok (((matching S m signature addresses)[index]?.map sdtPointer).getD 0) := fun other same => by
    rw [acpiFindSdt_eq same sig, List.getElem?_map]
  cases found : (matching S m signature addresses)[index]? with
  | none =>
    rw [found, Option.map_none, Option.getD_none] at result
    refine ⟨0, result acpi list, ?_, ?_, result⟩
    · intro a other
      cases other
    · exact iff_of_true rfl (List.getElem?_eq_none_iff.mp found)
  | some a =>
    rw [found, Option.map_some, Option.getD_some] at result
    have table := list.tables a (List.mem_filter.mp (List.mem_of_getElem? found)).1
    obtain ⟨lt, _⟩ := List.getElem?_eq_some_iff.mp found
    refine ⟨sdtPointer a, result acpi list, ?_, ?_, result⟩
    · intro b same
      cases same
      rfl
    · exact iff_of_false table.notNull (Nat.not_le_of_lt lt)

/-- An RSDT and an XSDT that list the tables at 0x1000 and 0x2000, with three bytes behind the last
entry of the RSDT. The second table is an MADT, and its signature is at 0x300000 too. -/
def firmware : Bytes := fun a =>
  match a with
  | 0x100004 => 47
  | 0x100025 => 0x10
  | 0x100029 => 0x20
  | 0x200004 => 52
  | 0x200025 => 0x10
  | 0x20002D => 0x20
  | 0x300000 => 65 | 0x300001 => 80 | 0x300002 => 73 | 0x300003 => 67
  | 0xFFFF800000002000 => 65 | 0xFFFF800000002001 => 80 | 0xFFFF800000002002 => 73 | 0xFFFF800000002003 => 67
  | _ => 0

def firmwareRsdt : Tables := ⟨⟨0, 0x100000, 0⟩, 0x100000⟩

def firmwareXsdt : Tables := ⟨⟨2, 0x100000, 0x200000⟩, 0x200000⟩

theorem firmware_listing {acpi : Tables} (h : acpi = firmwareRsdt ∨ acpi = firmwareXsdt) :
    Listing flat firmware acpi [0x1000, 0x2000] := by
  refine ⟨fun _ _ => rfl, ?_, ?_, fun _ _ _ _ => rfl, ?_, ?_⟩
  · rcases h with rfl | rfl <;> decide +kernel
  · rcases h with rfl | rfl <;> decide +kernel
  · rcases h with rfl | rfl <;> decide +kernel
  · intro a ha
    refine ⟨fun _ _ => rfl, ?_, ?_⟩
    · revert a
      decide
    · revert a
      decide

theorem acpiFindSdt_finds_madt : acpiFindSdt flat firmware firmwareRsdt 0x300000 0 = .ok 0xFFFF800000002000 ∧
    acpiFindSdt flat firmware firmwareXsdt 0x300000 0 = .ok 0xFFFF800000002000 ∧
    acpiFindSdt flat firmware firmwareXsdt 0x300000 1 = .ok 0 := by
  have rsdt := firmware_listing (.inl rfl)
  have xsdt := firmware_listing (.inr rfl)
  have sig : Signature flat firmware 0x300000 := ⟨fun _ _ => rfl, by decide⟩
  have found : matching flat firmware 0x300000 [0x1000, 0x2000] = [0x2000] := by decide +kernel
  obtain ⟨first, run, position, _, same⟩ := acpiFindSdt_finds rsdt sig 0
  obtain ⟨second, run', _, absent, _⟩ := acpiFindSdt_finds xsdt sig 1
  rw [found] at position absent
  have pointer : first = 0xFFFF800000002000 := position 0x2000 rfl
  subst pointer
  exact ⟨run, same firmwareXsdt xsdt, absent.mpr (Nat.le_refl 1) ▸ run'⟩

end Voyager.Acpi
