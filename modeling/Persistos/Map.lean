import Persistos.Word
import Persistos.Theory.TableTree

/-! Page tables of four levels. Memory is a map from addresses to 64-bit words,
and a table is named by the address at which the kernel sees it. -/

namespace Persistos

open Theory

abbrev Memory := U64 → U64

def pageDirectoryAttributes : U64 := 0x27
def pageTableAttributes : U64 := 0xE7
def pageTableMmioAttributes : U64 := 0xFF

def entryAddress (table : U64) (index : Nat) : U64 := table + BitVec.ofNat 64 (8 * index)

def tableIndex (virtAddress : U64) (shift : Nat) : Nat := ((virtAddress >>> shift) &&& 0x1FF).toNat

/-- `memset(page, 0, PAGE_SIZE)` for an aligned page. -/
def clearPage (mem : Memory) (page : U64) : Memory :=
  fun a => if a &&& pageAddressMask = page then 0 else mem a

def writeWord (mem : Memory) (address value : U64) : Memory :=
  fun a => if a = address then value else mem a

section

variable {κ : Type} (kpageAlloc : κ → Except Crash (U64 × κ)) (hhdmOffset : U64)

/-- The three blocks of `set_page_mapping` that follow an entry to the next
table and create that table where the entry has no address. -/
def nextTable (k : κ) (mem : Memory) (entry : U64) : Except Crash (U64 × κ × Memory) :=
  let entries := (mem entry &&& pageAddressMask) + hhdmOffset
  if entries = hhdmOffset then
    match kpageAlloc k with
    | .error e => .error e
    | .ok (page, k) =>
      let mem := clearPage mem page
      .ok (page, k, writeWord mem entry ((page - hhdmOffset) ||| pageDirectoryAttributes))
  else .ok (entries, k, mem)

def setPageMapping (k : κ) (mem : Memory) (pml4Page virtAddress physAddress : U64)
    (isMmio : Bool) : Except Crash (κ × Memory) :=
  if physAddress &&& 4095 ≠ 0 then .error (.panic "phys_address must be page-aligned")
  else do
    let (ptpdEntries, k, mem) ← nextTable kpageAlloc hhdmOffset k mem
      (entryAddress pml4Page (tableIndex virtAddress 39))
    let (pdEntries, k, mem) ← nextTable kpageAlloc hhdmOffset k mem
      (entryAddress ptpdEntries (tableIndex virtAddress 30))
    let (ptEntries, k, mem) ← nextTable kpageAlloc hhdmOffset k mem
      (entryAddress pdEntries (tableIndex virtAddress 21))
    .ok (k, writeWord mem (entryAddress ptEntries (tableIndex virtAddress 12))
      (physAddress ||| if isMmio then pageTableMmioAttributes else pageTableAttributes))

end

/-- The table an entry leads to. An entry without address bits leads nowhere. -/
def child (hhdmOffset : U64) (mem : Memory) (table : U64) (index : Nat) : Option U64 :=
  let entry := mem (entryAddress table index)
  if entry &&& pageAddressMask = 0 then none
  else some ((entry &&& pageAddressMask) + hhdmOffset)

def leaf (mem : Memory) (table : U64) (index : Nat) : Option (U64 × U64) :=
  let entry := mem (entryAddress table index)
  if entry &&& pageAddressMask = 0 then none
  else some (entry &&& pageAddressMask, entry &&& 0xFFF)

def tablePath (virtAddress : U64) : List Nat :=
  [tableIndex virtAddress 39, tableIndex virtAddress 30, tableIndex virtAddress 21]

def translate (hhdmOffset : U64) (mem : Memory) (pml4Page virtAddress : U64) :
    Option (U64 × U64) :=
  (descend (child hhdmOffset mem) pml4Page (tablePath virtAddress)).bind
    (leaf mem · (tableIndex virtAddress 12))

theorem tableIndex_eq (virtAddress : U64) (shift : Nat) :
    tableIndex virtAddress shift = virtAddress.toNat / 2 ^ shift % 512 := by
  have hm : (0x1FF : U64).toNat = 2 ^ 9 - 1 := rfl
  rw [tableIndex, BitVec.toNat_and, shiftRight_toNat, hm, Nat.and_two_pow_sub_one_eq_mod]

theorem tableIndex_lt (virtAddress : U64) (shift : Nat) : tableIndex virtAddress shift < 512 := by
  rw [tableIndex_eq]
  exact Nat.mod_lt _ (by omega)

/-- The nine-bit slices of a lower-half address determine its page. -/
theorem page_eq_of_indices {v w : U64} (hv : v.toNat < 2 ^ 47) (hw : w.toNat < 2 ^ 47)
    (hp : tablePath v = tablePath w) (hi : tableIndex v 12 = tableIndex w 12) :
    v >>> 12 = w >>> 12 := by
  simp only [tablePath, List.cons.injEq, and_true, tableIndex_eq] at hp hi
  apply BitVec.eq_of_toNat_eq
  rw [shiftRight_toNat, shiftRight_toNat]
  omega

theorem indices_of_page_eq {v w : U64} (h : v >>> 12 = w >>> 12) :
    tablePath v = tablePath w ∧ tableIndex v 12 = tableIndex w 12 := by
  have hn := congrArg BitVec.toNat h
  rw [shiftRight_toNat, shiftRight_toNat] at hn
  simp only [tablePath, List.cons.injEq, and_true, tableIndex_eq]
  omega

theorem entryAddress_toNat {table : U64} (ht : PageAligned table) {i : Nat} (hi : i < 512) :
    (entryAddress table i).toNat = table.toNat + 8 * i := ht.add_toNat (by omega)

theorem entryAddress_mask {table : U64} (ht : PageAligned table) {i : Nat} (hi : i < 512) :
    entryAddress table i &&& pageAddressMask = table := by
  have he := entryAddress_toNat ht hi
  exact mask_of_mem_page ht (by omega) (by omega)

theorem entryAddress_inj {t u : U64} (ht : PageAligned t) (hu : PageAligned u) {i j : Nat}
    (hi : i < 512) (hj : j < 512) (h : entryAddress t i = entryAddress u j) : t = u ∧ i = j := by
  have htu : t = u := by rw [← entryAddress_mask ht hi, h, entryAddress_mask hu hj]
  subst htu
  have hn := congrArg BitVec.toNat h
  rw [entryAddress_toNat ht hi, entryAddress_toNat ht hj] at hn
  exact ⟨rfl, by omega⟩

/-- Attribute bits do not disturb the address bits of an aligned address. -/
theorem or_attributes_mask {p attributes : U64} (hp : PageAligned p)
    (ha : attributes &&& pageAddressMask = 0) :
    (p ||| attributes) &&& pageAddressMask = p := by
  have h : (p ||| attributes) &&& pageAddressMask =
      (p &&& pageAddressMask) ||| (attributes &&& pageAddressMask) := by
    ext i hi
    simp [Bool.and_or_distrib_right]
  rw [h, ha, mask_of_aligned hp]
  exact BitVec.or_zero

theorem and_pageOffset {p : U64} (hp : PageAligned p) : p &&& 4095 = 0 := by
  have hm : (4095 : U64).toNat = 2 ^ 12 - 1 := rfl
  apply BitVec.eq_of_toNat_eq
  rw [BitVec.toNat_and, hm, Nat.and_two_pow_sub_one_eq_mod]
  exact hp

theorem or_attributes_offset {p attributes : U64} (hp : PageAligned p)
    (ha : attributes &&& 0xFFF = attributes) : (p ||| attributes) &&& 0xFFF = attributes := by
  have h : (p ||| attributes) &&& 0xFFF = (p &&& 0xFFF) ||| (attributes &&& 0xFFF) := by
    ext i hi
    simp [Bool.and_or_distrib_right]
  rw [h, and_pageOffset hp, ha]
  exact BitVec.zero_or

end Persistos
