import Voyager.Access
import Voyager.Heap.Payload
import Voyager.Lib.Cells

/-!
# Splitting strings

The first pass of `strtok` puts a zero in the place of every separator; the second one meets
the zeros in the same order and stores the address behind each.
-/

namespace Voyager.Libc

open Lib ByteSpace

section

variable {σ : Type} (S : ByteSpace σ)

/-- The loop of `strlen`. -/
def strlenFrom (m : σ) (str len : Nat) : Nat → Kernel Nat
  | 0 => .error .endless
  | fuel + 1 => do
    if (← readByte S m (add64 str len)) = 0 then return len
    else strlenFrom m str (add64 len 1) fuel

/-- After `2 ^ 64` rounds every address has been read. -/
def strlen (m : σ) (str : Nat) : Kernel Nat := strlenFrom S m str 0 (2 ^ 64)

def nullSeparators (m : σ) (srcstr : Nat) (sep : UInt8) (i : Nat) (numparts : Int32) : Nat → Kernel (Int32 × σ)
  | 0 => .ok (numparts, m)
  | left + 1 => do
    if (← readByte S m (add64 srcstr i)) = sep then do
      let m ← writeByte S m (add64 srcstr i) 0
      nullSeparators m srcstr sep (i + 1) (numparts + 1) left
    else nullSeparators m srcstr sep (i + 1) numparts left

/-- The second loop of `strtok`. -/
def storeParts (m : σ) (srcstr currentpart i : Nat) : Nat → Kernel σ
  | 0 => .ok m
  | left + 1 => do
    if (← readByte S m (add64 srcstr i)) = 0 then do
      let m ← writeField S m (add64 currentpart 8) (add64 srcstr (i + 1)) 8
      storeParts m srcstr (add64 currentpart 8) (i + 1) left
    else storeParts m srcstr currentpart (i + 1) left

/-- `(size_t) numparts * sizeof(char *)` -/
def partsSize (numparts : Int32) : Nat := (numparts.toInt % 2 ^ 64).toNat * 8 % 2 ^ 64

/-- `int len = strlen(srcstr)`, as the number of rounds of a loop up to it. -/
def rounds (length : Nat) : Nat := (Int32.ofNat length).toInt.toNat

def strtok (kmalloc : σ → Nat → Kernel (Nat × σ)) (m : σ) (srcstr : Nat) (sep : UInt8) (output : Nat) :
    Kernel (Int32 × σ) := do
  let length ← strlen S m srcstr
  let (numparts, m) ← nullSeparators S m srcstr sep 0 0 (rounds length)
  let (block, m) ← kmalloc m (partsSize (numparts + 1))
  let m ← writeField S m output block 8
  if (← readField S m output 8) = 0 then return (0, m)
  else do
    let currentpart ← readField S m output 8
    let m ← writeField S m currentpart srcstr 8
    let m ← storeParts S m srcstr currentpart 0 (rounds length)
    return (numparts + 1, m)

end

variable {σ : Type} {S : ByteSpace σ} {P : σ → Prop} {D : Nat → Prop} {m : σ} {srcstr i : Nat} {sep : UInt8}
  {text : List UInt8}

/-! ### The length -/

theorem strlenFrom_eq {fuel : Nat} (string : CString (fun k => S.get m (srcstr + k)) text)
    (readable : Readable S m srcstr (text.length + 1)) (fits : srcstr + text.length < 2 ^ 64)
    (le : i ≤ text.length) (enough : text.length - i < fuel) : strlenFrom S m srcstr i fuel = .ok text.length := by
  induction fuel generalizing i with
  | zero => omega
  | succ fuel ih =>
    rw [strlenFrom, add64_of_lt (by omega), bind_eq (readByte_ok (readable i (by omega)))]
    by_cases last : i = text.length
    · subst last
      rw [if_pos string.stop]
      rfl
    · rw [if_neg (string.ne_zero (i := i) (by omega)), add64_of_lt (by omega)]
      exact ih (by omega) (by omega)

theorem strlen_eq (string : CString (fun k => S.get m (srcstr + k)) text)
    (readable : Readable S m srcstr (text.length + 1)) (fits : srcstr + text.length < 2 ^ 64) :
    strlen S m srcstr = .ok text.length :=
  strlenFrom_eq string readable fits (Nat.zero_le _) (by omega)

theorem rounds_eq (short : i < 2 ^ 31) : rounds i = i := by
  unfold rounds
  rw [Int32.toInt_ofNat_of_lt short]
  rfl

/-! ### The separators -/

theorem nullSeparators_step (sep : UInt8) (R : S.Region P D) (h : P m) {c : UInt8} (char : S.get m (srcstr + i) = c)
    (inside : D (srcstr + i)) (fits : srcstr + i < 2 ^ 64) :
    ∃ m', (∀ numparts left, nullSeparators S m srcstr sep i numparts (left + 1) =
        nullSeparators S m' srcstr sep (i + 1) (numparts + if c = sep then 1 else 0) left) ∧ P m' ∧
      S.get m' (srcstr + i) = (if c = sep then 0 else c) ∧
      ∀ a, D a → a ≠ srcstr + i → S.get m' a = S.get m a := by
  have read := readByte_ok (R.mapped h inside)
  rw [char] at read
  by_cases here : c = sep
  · refine ⟨S.set m (srcstr + i) 0, fun numparts left => ?_, R.keep _ h inside, ?_, fun a ha ne => ?_⟩
    · rw [nullSeparators, add64_of_lt fits, bind_eq read, if_pos here, if_pos here,
        bind_eq (writeByte_ok (R.mapped h inside) 0)]
    · rw [R.get_set _ h inside inside, if_pos rfl, if_pos here]
    · rw [R.get_set _ h inside ha, if_neg ne]
  · refine ⟨m, fun numparts left => ?_, h, ?_, fun _ _ _ => rfl⟩
    · rw [nullSeparators, add64_of_lt fits, bind_eq read, if_neg here, if_neg here, Int32.add_zero]
    · rw [if_neg here, char]

theorem nullSeparators_run (sep : UInt8) (numparts : Int32) (R : S.Region P D) (h : P m)
    (shows : front (fun k => S.get m (srcstr + i + k)) text.length = text)
    (inside : ∀ k < text.length, D (srcstr + i + k)) (fits : srcstr + i + text.length < 2 ^ 64) :
    ∃ m', nullSeparators S m srcstr sep i numparts text.length =
        .ok (numparts + Int32.ofNat (text.count sep), m') ∧ P m' ∧
      front (fun k => S.get m' (srcstr + i + k)) text.length = nulled sep text ∧
      ∀ a, D a → a < srcstr + i ∨ srcstr + i + text.length ≤ a → S.get m' a = S.get m a := by
  induction text generalizing m i numparts with
  | nil => exact ⟨m, by simp [nullSeparators], h, rfl, fun _ _ _ => rfl⟩
  | cons c cs ih =>
    rw [List.length_cons] at *
    rw [front_from] at shows
    obtain ⟨char, rest⟩ := List.cons.inj shows
    have here : D (srcstr + i) := inside 0 (by omega)
    have later : ∀ k < cs.length, D (srcstr + (i + 1) + k) := fun k lt => by
      rw [show srcstr + (i + 1) + k = srcstr + i + (k + 1) by omega]
      exact inside _ (by omega)
    obtain ⟨m₁, step, h₁, first, same⟩ := nullSeparators_step (i := i) sep R h char here (by omega)
    have shows₁ : front (fun k => S.get m₁ (srcstr + (i + 1) + k)) cs.length = cs :=
      (front_congr fun k lt => same _ (later k lt) (by omega)).trans rest
    obtain ⟨m', run, h', nulls, kept⟩ := ih (numparts + if c = sep then 1 else 0) h₁ shows₁ later (by omega)
    refine ⟨m', ?_, h', ?_, fun a ha out => ?_⟩
    · rw [step, run, List.count_cons, Nat.add_comm, Int32.ofNat_add, Int32.add_assoc]
      by_cases found : c = sep <;> simp [found]
    · rw [front_from, kept _ here (by omega), first]
      exact congrArg _ nulls
    · rw [kept a ha (by omega), same a ha (by omega)]

/-! ### The slots -/

def Points (S : ByteSpace σ) (m : σ) (srcstr slots : Nat) (starts : List Nat) : Prop :=
  ∀ k s, starts[k]? = some s → S.load m (slots + 8 * k) 8 = srcstr + s

theorem Points.nil {slots : Nat} : Points S m srcstr slots [] := by
  intro k s get
  cases get

theorem Points.cons {slots s : Nat} {starts : List Nat} (first : S.load m slots 8 = srcstr + s)
    (rest : Points S m srcstr (slots + 8) starts) : Points S m srcstr slots (s :: starts) := by
  intro k s' get
  cases k with
  | zero =>
    cases get
    exact first
  | succ k =>
    rw [show slots + 8 * (k + 1) = slots + 8 + 8 * k by omega]
    exact rest k s' get

theorem storeParts_run (R : S.Region P D) (h : P m) {part : Nat}
    (shows : front (fun k => S.get m (srcstr + i + k)) text.length = nulled sep text) (plain : 0 ∉ text)
    (inside : ∀ k < text.length, D (srcstr + i + k)) (fits : srcstr + i + text.length < 2 ^ 64)
    (room : ∀ k < 8 * text.count sep, D (part + 8 + k)) (top : part + 8 + 8 * text.count sep ≤ 2 ^ 64)
    (apart : ∀ k < text.length, srcstr + i + k < part + 8 ∨ part + 8 + 8 * text.count sep ≤ srcstr + i + k) :
    ∃ m', storeParts S m srcstr part i text.length = .ok m' ∧ P m' ∧
      Points S m' srcstr (part + 8) (fieldStarts sep i text) ∧
      ∀ a, D a → a < part + 8 ∨ part + 8 + 8 * text.count sep ≤ a → S.get m' a = S.get m a := by
  induction text generalizing m i part with
  | nil => exact ⟨m, rfl, h, .nil, fun _ _ _ => rfl⟩
  | cons c cs ih =>
    rw [List.length_cons] at *
    rw [List.mem_cons, not_or] at plain
    rw [front_from] at shows
    obtain ⟨char, rest⟩ := List.cons.inj shows
    dsimp only at char
    have read := readByte_ok (R.mapped h (inside 0 (by omega)))
    have next : ∀ k, srcstr + (i + 1) + k = srcstr + i + (k + 1) := fun k => by omega
    have later : ∀ k < cs.length, D (srcstr + (i + 1) + k) := fun k lt => by
      rw [next]
      exact inside _ (by omega)
    rw [Nat.add_zero, char] at read
    rw [storeParts, add64_of_lt (by omega), bind_eq read, fieldStarts]
    by_cases found : c = sep
    · have count : (c :: cs).count sep = cs.count sep + 1 := by simp [found]
      rw [count] at room top apart ⊢
      have slot : ∀ k < 8, D (part + 8 + k) := fun k lt => room k (by omega)
      have beyond : ∀ k < 8 * cs.count sep, D (part + 8 + 8 + k) := fun k lt => by
        rw [Nat.add_assoc]
        exact room _ (by omega)
      have apart' : ∀ k < cs.length, srcstr + (i + 1) + k < part + 8 ∨
          part + 8 + 8 + 8 * cs.count sep ≤ srcstr + (i + 1) + k := fun k lt => by
        have := apart (k + 1) (by omega)
        omega
      rw [if_pos found, if_pos found, if_pos rfl, add64_of_lt (by omega), add64_of_lt (by omega),
        bind_eq (writeField_ok (.of_region R h slot) _)]
      have h₁ := R.keep_store (v := srcstr + (i + 1)) h slot
      have shows₁ : front (fun k => S.get (S.store m (part + 8) (srcstr + (i + 1)) 8) (srcstr + (i + 1) + k))
          cs.length = nulled sep cs :=
        (front_congr fun k lt => R.get_store_of_not_mem h slot (later k lt)
          (by have := apart' k lt; omega)).trans rest
      obtain ⟨m', run, h', points, kept⟩ := ih h₁ shows₁ plain.2 later (by omega) beyond (by omega)
        (fun k lt => by have := apart' k lt; omega)
      refine ⟨m', run, h', .cons ?_ points, fun a ha out => ?_⟩
      · rw [load_congr fun k lt => kept _ (slot k lt) (by omega), R.load_store_same h slot]
        exact Nat.mod_eq_of_lt (by omega)
      · rw [kept a ha (by omega), R.get_store_of_not_mem h slot ha (by omega)]
    · have count : (c :: cs).count sep = cs.count sep := by simp [found]
      rw [count] at room top apart ⊢
      rw [if_neg found, if_neg found, if_neg (Ne.symm plain.1)]
      exact ih h rest plain.2 later (by omega) room top
        (fun k lt => by have := apart (k + 1) (by omega); omega)

theorem slots_run (R : S.Region P D) (h : P m) {part : Nat}
    (shows : front (fun k => S.get m (srcstr + k)) text.length = nulled sep text) (plain : 0 ∉ text)
    (inside : ∀ k < text.length, D (srcstr + k)) (fits : srcstr + text.length < 2 ^ 64)
    (room : ∀ k < 8 * (text.count sep + 1), D (part + k)) (top : part + 8 * (text.count sep + 1) ≤ 2 ^ 64)
    (apart : ∀ k < text.length, srcstr + k < part ∨ part + 8 * (text.count sep + 1) ≤ srcstr + k) :
    ∃ m', (do storeParts S (← writeField S m part srcstr 8) srcstr part 0 text.length) = .ok m' ∧
      Points S m' srcstr part (0 :: fieldStarts sep 0 text) ∧
      ∀ a, D a → a < part ∨ part + 8 * (text.count sep + 1) ≤ a → S.get m' a = S.get m a := by
  have slot : ∀ k < 8, D (part + k) := fun k lt => room k (by omega)
  have beyond : ∀ k < 8 * text.count sep, D (part + 8 + k) := fun k lt => by
    rw [Nat.add_assoc]
    exact room _ (by omega)
  have shows₁ : front (fun k => S.get (S.store m part srcstr 8) (srcstr + 0 + k)) text.length = nulled sep text :=
    (front_congr fun k lt => R.get_store_of_not_mem h slot (inside k lt) (by have := apart k lt; omega)).trans shows
  obtain ⟨m', run, _, points, kept⟩ := storeParts_run R (R.keep_store h slot) shows₁ plain inside fits beyond
    (by omega) (fun k lt => by have := apart k lt; omega)
  refine ⟨m', ?_, .cons ?_ points, fun a ha out => ?_⟩
  · rw [bind_eq (writeField_ok (.of_region R h slot) _)]
    exact run
  · rw [load_congr fun k lt => kept _ (slot k lt) (by omega), R.load_store_same h slot]
    exact Nat.mod_eq_of_lt (by omega)
  · rw [kept a ha (by omega), R.get_store_of_not_mem h slot ha (by omega)]

/-! ### The result -/

structure Arguments (S : ByteSpace σ) (D : Nat → Prop) (m : σ) (srcstr output : Nat) (text : List UInt8) : Prop where
  string : CString (fun k => S.get m (srcstr + k)) text
  short : text.length < 2 ^ 31
  inside : ∀ k < text.length + 1, D (srcstr + k)
  fits : srcstr + text.length < 2 ^ 64
  place : ∀ k < 8, D (output + k)
  apart : output + 8 ≤ srcstr ∨ srcstr + text.length < output

/-- A successful allocation: the block is memory in the heap window, apart from the memory that was
there before, which has not changed. -/
structure Fresh (S : ByteSpace σ) (D : Nat → Prop) (m : σ) (P' : σ → Prop) (D' : Nat → Prop) (m' : σ) (p size : Nat) :
    Prop where
  region : S.Region P' D'
  holds : P' m'
  block : ∀ k < size, D' (p + k)
  old : ∀ a, D a → D' a
  apart : ∀ a, D a → a < p ∨ p + size ≤ a
  kept : ∀ a, D a → S.get m' a = S.get m a
  nonnull : p ≠ 0
  top : p + size ≤ 2 ^ 64
  window : size ≤ Heap.heapLimit - Heap.heapBase

structure Splits (S : ByteSpace σ) (m : σ) (p : Nat) (sep : UInt8) (text : List UInt8) : Prop where
  count : (text.splitOn sep).length = text.count sep + 1
  joined : [sep].intercalate (text.splitOn sep) = text
  fields : ∀ i field, (text.splitOn sep)[i]? = some field →
    CString (fun k => S.get m (S.load m (p + 8 * i) 8 + k)) field

theorem Splits.of_nulled {p : Nat} (points : Points S m srcstr p (0 :: fieldStarts sep 0 text))
    (shows : front (fun k => S.get m (srcstr + k)) text.length = nulled sep text)
    (stop : S.get m (srcstr + text.length) = 0) (plain : 0 ∉ text) : Splits S m p sep text := by
  have fields := fields_of_nulled (fun k => S.get m (srcstr + k)) (i := 0) (by simpa using shows)
    (by simpa using stop) plain
  refine ⟨?_, List.intercalate_splitOn sep, fun i field get => ?_⟩
  · rw [← fields.length_eq, List.length_cons, length_fieldStarts]
  · obtain ⟨lt, rfl⟩ := List.getElem?_eq_some_iff.mp get
    have lt' : i < (0 :: fieldStarts sep 0 text).length := fields.length_eq ▸ lt
    rw [points i _ (List.getElem?_eq_getElem lt')]
    simp only [Nat.add_assoc]
    exact fields.get lt' lt

theorem ofNat_succ (n : Nat) : Int32.ofNat n + 1 = Int32.ofNat (n + 1) := (Int32.ofNat_add n 1).symm

theorem partsSize_of_lt (lt : i < 2 ^ 31) : partsSize (Int32.ofNat i) = 8 * i := by
  unfold partsSize
  rw [Int32.toInt_ofNat_of_lt lt]
  omega

theorem lt_of_partsSize_le (le : i ≤ 2 ^ 31)
    (window : partsSize (Int32.ofNat i) ≤ Heap.heapLimit - Heap.heapBase) : i < 2 ^ 31 := by
  refine Nat.lt_of_le_of_ne le fun same => ?_
  subst same
  exact absurd window (by decide)

section

variable {kmalloc : σ → Nat → Kernel (Nat × σ)} {output : Nat}

theorem Arguments.pass (R : S.Region P D) (h : P m) (args : Arguments S D m srcstr output text) (sep : UInt8) :
    ∃ m', nullSeparators S m srcstr sep 0 0 text.length = .ok (Int32.ofNat (text.count sep), m') ∧ P m' ∧
      front (fun k => S.get m' (srcstr + k)) text.length = nulled sep text ∧ S.get m' (srcstr + text.length) = 0 := by
  obtain ⟨m', run, h', nulls, kept⟩ := nullSeparators_run (i := 0) sep 0 R h args.string.shows
    (fun k lt => args.inside k (by omega)) args.fits
  rw [Int32.zero_add] at run
  refine ⟨m', run, h', nulls, ?_⟩
  rw [kept _ (args.inside _ (by omega)) (.inr (Nat.le_refl _))]
  exact args.string.stop

theorem Arguments.request (args : Arguments S D m srcstr output text) (sep : UInt8)
    (window : partsSize (Int32.ofNat (text.count sep + 1)) ≤ Heap.heapLimit - Heap.heapBase) :
    text.count sep + 1 < 2 ^ 31 ∧ partsSize (Int32.ofNat (text.count sep + 1)) = 8 * (text.count sep + 1) := by
  have short := args.short
  have le : text.count sep ≤ text.length := List.count_le_length
  have lt := lt_of_partsSize_le (i := text.count sep + 1) (by omega) window
  exact ⟨lt, partsSize_of_lt lt⟩

theorem Arguments.fill {m₁ m₂ : σ} {P' : σ → Prop} {D' : Nat → Prop} {p : Nat} (R : S.Region P D) (h : P m)
    (args : Arguments S D m srcstr output text)
    (pass : nullSeparators S m srcstr sep 0 0 text.length = .ok (Int32.ofNat (text.count sep), m₁))
    (nulls : front (fun k => S.get m₁ (srcstr + k)) text.length = nulled sep text)
    (stop : S.get m₁ (srcstr + text.length) = 0)
    (alloc : kmalloc m₁ (partsSize (Int32.ofNat (text.count sep + 1))) = .ok (p, m₂))
    (fresh : Fresh S D m₁ P' D' m₂ p (8 * (text.count sep + 1))) :
    ∃ m', strtok S kmalloc m srcstr sep output = .ok (Int32.ofNat (text.count sep + 1), m') ∧
      S.load m' output 8 = p ∧ Splits S m' p sep text ∧
      ∀ a, D' a → a < output ∨ output + 8 ≤ a → a < p ∨ p + 8 * (text.count sep + 1) ≤ a →
        S.get m' a = S.get m₂ a := by
  obtain ⟨string, short, inside, fits, place, apart⟩ := args
  have R' := fresh.region
  have top := fresh.top
  have place' : ∀ k < 8, D' (output + k) := fun k lt => fresh.old _ (place k lt)
  have h₃ := R'.keep_store (v := p) fresh.holds place'
  have value : S.load (S.store m₂ output p 8) output 8 = p := by
    rw [R'.load_store_same fresh.holds place']
    exact Nat.mod_eq_of_lt (by omega)
  have away : ∀ k < text.length + 1, S.get (S.store m₂ output p 8) (srcstr + k) = S.get m₁ (srcstr + k) := by
    intro k lt
    rw [R'.get_store_of_not_mem fresh.holds place' (fresh.old _ (inside k lt)) (by omega), fresh.kept _ (inside k lt)]
  obtain ⟨m', slots, points, kept⟩ := slots_run R' h₃
    ((front_congr fun k lt => away k (by omega)).trans nulls) string.plain
    (fun k lt => fresh.old _ (inside k (by omega))) fits fresh.block top
    (fun k lt => fresh.apart _ (inside k (by omega)))
  have string' : ∀ k < text.length + 1, S.get m' (srcstr + k) = S.get m₁ (srcstr + k) := fun k lt => by
    rw [kept _ (fresh.old _ (inside k lt)) (fresh.apart _ (inside k lt)), away k lt]
  refine ⟨m', ?_, ?_, ?_, ?_⟩
  · have length := strlen_eq string (.of_region R h inside) fits
    have read := readField_ok (.of_region R' h₃ place')
    rw [value] at read
    obtain ⟨m₄, write, rest⟩ := bind_ok slots
    unfold strtok
    rw [bind_eq length, rounds_eq short, bind_eq pass]
    dsimp only
    rw [ofNat_succ, bind_eq alloc]
    dsimp only
    rw [bind_eq (writeField_ok (.of_region R' fresh.holds place') p), bind_eq read, if_neg fresh.nonnull,
      bind_eq read, bind_eq write, bind_eq rest]
    rfl
  · rw [load_congr fun k lt => kept _ (place' k lt) (fresh.apart _ (place k lt)), value]
  · apply Splits.of_nulled points
    · exact (front_congr fun k lt => string' k (by omega)).trans nulls
    · rw [string' _ (by omega), stop]
    · exact string.plain
  · intro a ha out clear
    rw [kept a ha clear, R'.get_store_of_not_mem fresh.holds place' ha out]

end

/-- Every field gets its slot, and nothing but the slots and the result's place is written after the
allocation. -/
theorem strtok_splits (kmalloc : σ → Nat → Kernel (Nat × σ)) (sep : UInt8) {output : Nat} (R : S.Region P D) (h : P m)
    (args : Arguments S D m srcstr output text) :
    ∃ numparts m₁, nullSeparators S m srcstr sep 0 0 text.length = .ok (numparts, m₁) ∧
      ∀ p m₂ P' D', kmalloc m₁ (partsSize (numparts + 1)) = .ok (p, m₂) →
        Fresh S D m₁ P' D' m₂ p (partsSize (numparts + 1)) →
        ∃ result m', strtok S kmalloc m srcstr sep output = .ok (result, m') ∧
          result.toInt = text.count sep + 1 ∧ partsSize (numparts + 1) = 8 * (text.count sep + 1) ∧
          S.load m' output 8 = p ∧ Splits S m' p sep text ∧
          ∀ a, D' a → a < output ∨ output + 8 ≤ a → a < p ∨ p + 8 * (text.count sep + 1) ≤ a →
            S.get m' a = S.get m₂ a := by
  obtain ⟨m₁, pass, _, nulls, stop⟩ := args.pass R h sep
  refine ⟨_, m₁, pass, fun p m₂ P' D' alloc fresh => ?_⟩
  rw [ofNat_succ] at alloc fresh ⊢
  obtain ⟨lt, size⟩ := args.request sep fresh.window
  rw [size] at fresh
  obtain ⟨m', run, place, splits, kept⟩ := args.fill R h pass nulls stop alloc fresh
  refine ⟨_, m', run, ?_, size, place, splits, kept⟩
  rw [Int32.toInt_ofNat_of_lt lt]
  rfl

def commas : Bytes := fun a => ([97, 44, 44, 98] : List UInt8).getD (a - 100) 0

theorem strtok_splits_commas : ∃ result m',
    strtok flat (fun m _ => .ok (4096, m)) commas 100 44 200 = .ok (result, m') ∧
    result.toInt = 3 ∧ flat.load m' 200 8 = 4096 ∧ Splits flat m' 4096 44 [97, 44, 44, 98] := by
  have region : flat.Region (fun _ => True) fun a => a < 4096 :=
    ⟨fun _ _ => rfl, fun _ _ _ => trivial, fun _ _ _ _ => rfl⟩
  have args : Arguments flat (fun a => a < 4096) commas 100 200 [97, 44, 44, 98] :=
    ⟨⟨rfl, rfl, by decide⟩, by decide, by decide, by decide, by decide, by decide⟩
  obtain ⟨numparts, m₁, pass, slots⟩ := strtok_splits (fun m _ => .ok (4096, m)) 44 region trivial args
  have two : numparts = 2 := by
    have count : (nullSeparators flat commas 100 44 0 0 4).map Prod.fst = .ok 2 := rfl
    change nullSeparators flat commas 100 44 0 0 4 = _ at pass
    rw [pass] at count
    exact Except.ok.inj count
  subst two
  have fresh : Fresh flat (fun a => a < 4096) m₁ (fun _ => True) (fun _ => True) m₁ 4096 (partsSize (2 + 1)) :=
    ⟨flat_region, trivial, fun _ _ => trivial, fun _ _ => trivial, fun _ lt => .inl lt, fun _ _ => rfl, by decide,
      by decide, by decide⟩
  obtain ⟨result, m', run, three, _, place, splits, _⟩ := slots 4096 m₁ _ _ rfl fresh
  exact ⟨result, m', run, three, place, splits⟩

/-! ### On the kernel's heap -/

section

variable {B : Heap.Backing σ} {live : List (Nat × Nat)} {s t : Heap.State σ} {p size : Nat}

def heapSpace (B : Heap.Backing σ) : ByteSpace (Heap.State σ) where
  mapped s := B.mapped s.mem
  get s := B.get s.mem
  set s a v := { s with mem := B.set s.mem a v }

theorem heapSpace_region (B : Heap.Backing σ) (live : List (Nat × Nat)) :
    (heapSpace B).Region (fun s => Heap.Client.Sound B ⟨s, live⟩) (Heap.InPayload live) where
  mapped h inside := h.region.mapped h inside
  keep v h inside := h.region.keep v h inside
  get_set v h ha hb := h.region.get_set v h ha hb

theorem kmalloc_fresh (h : Heap.Client.Sound B ⟨s, live⟩) (pos : 0 < size) (bound : size ≤ Heap.maxRequest)
    (run : Heap.kmalloc B s size = .ok (p, t)) :
    Fresh (heapSpace B) (Heap.InPayload live) s (fun t => Heap.Client.Sound B ⟨t, (p, size) :: live⟩)
      (Heap.InPayload ((p, size) :: live)) t p size := by
  obtain ⟨nonnull, new, sound, kept⟩ := h.malloc pos bound run
  obtain ⟨low, high, _⟩ := sound.place List.mem_cons_self
  have limit := sound.high
  have window : Heap.heapLimit < 2 ^ 64 := by decide
  dsimp only at low high limit
  refine ⟨heapSpace_region B _, sound, ?_, ?_, ?_, kept, nonnull, by omega, by omega⟩
  · intro k lt
    exact ⟨_, List.mem_cons_self, Nat.le_add_right p k, Nat.add_lt_add_left lt p⟩
  · rintro a ⟨x, hx, within⟩
    exact ⟨x, List.mem_cons_of_mem _ hx, within⟩
  · rintro a ⟨x, hx, above, below⟩
    have other : (p, size) ≠ x := by
      rintro rfl
      exact new (List.mem_map_of_mem hx)
    have := sound.apart List.mem_cons_self (List.mem_cons_of_mem _ hx) other
    dsimp only at this
    omega

theorem partsSize_bounds (pos : 0 < i) (le : i ≤ 2 ^ 31) :
    0 < partsSize (Int32.ofNat i) ∧ partsSize (Int32.ofNat i) ≤ Heap.maxRequest := by
  rcases Nat.lt_or_eq_of_le le with lt | rfl
  · rw [partsSize_of_lt lt]
    unfold Heap.maxRequest
    omega
  · decide

/-- On the kernel's own heap, whatever `strtok` returns is right. -/
theorem strtok_heap {output : Nat} {result : Int32} (h : Heap.Client.Sound B ⟨s, live⟩)
    (args : Arguments (heapSpace B) (Heap.InPayload live) s srcstr output text)
    (run : strtok (heapSpace B) (Heap.kmalloc B) s srcstr sep output = .ok (result, t)) :
    result.toInt = text.count sep + 1 ∧ Splits (heapSpace B) t ((heapSpace B).load t output 8) sep text := by
  have R := heapSpace_region B live
  obtain ⟨s₁, pass, sound, nulls, stop⟩ := args.pass R h sep
  have short := args.short
  have le : text.count sep ≤ text.length := List.count_le_length
  obtain ⟨pos, bound⟩ := partsSize_bounds (Nat.succ_pos (text.count sep)) (by omega)
  obtain ⟨⟨p, s₂⟩, alloc⟩ : ∃ r, Heap.kmalloc B s₁ (partsSize (Int32.ofNat (text.count sep + 1))) = .ok r := by
    unfold strtok at run
    rw [bind_eq (strlen_eq args.string (.of_region R h args.inside) args.fits), rounds_eq short, bind_eq pass] at run
    dsimp only at run
    rw [ofNat_succ] at run
    obtain ⟨r, alloc, _⟩ := bind_ok run
    exact ⟨r, alloc⟩
  have fresh := kmalloc_fresh sound pos bound alloc
  obtain ⟨lt, size⟩ := args.request sep fresh.window
  rw [size] at fresh
  obtain ⟨t', run', place, splits, _⟩ := args.fill R h pass nulls stop alloc fresh
  cases run.symm.trans run'
  rw [place, Int32.toInt_ofNat_of_lt lt]
  exact ⟨rfl, splits⟩

end

end Voyager.Libc
