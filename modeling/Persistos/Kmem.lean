import Persistos.Word
import Persistos.Theory.Interval

/-! The page allocator. The array of `struct page` is a map from page indices
to statuses, of which only the first `kmemTotalPages` entries exist. -/

namespace Persistos

open Theory

inductive PageStatus where
  | pageArray
  | free
  | used
  deriving DecidableEq, Repr

structure MemmapEntry where
  base : U64
  length : U64
  type : U64
  deriving DecidableEq, Repr

structure Kmem where
  hhdmOffset : U64
  kmemStart : U64
  kmemLength : U64
  kmemTotalPages : U64
  kmemPageArray : Nat → PageStatus
  kmemUsedPages : U64

/-- The loop of `kmem_init` over the memory map. Entries of another type than
usable memory are skipped, and of equal lengths the first is kept. -/
def largestRegion : List MemmapEntry → U64 → Option MemmapEntry → Option MemmapEntry
  | [], _, largestEntry => largestEntry
  | entry :: entries, largestBytes, largestEntry =>
    if entry.type ≠ 0 then largestRegion entries largestBytes largestEntry
    else if largestBytes < entry.length then largestRegion entries entry.length (some entry)
    else largestRegion entries largestBytes largestEntry

/-- Pages that hold the page array, whose elements have one byte each. -/
def pageArrayPages (totalPages : U64) : U64 := (totalPages >>> 12) + 1

def kmemInit (hhdmResponse : Option U64) (memmapResponse : Option (List MemmapEntry)) :
    Except Crash Kmem :=
  match hhdmResponse with
  | none => .error (.panic "No HHDM response\n")
  | some hhdmOffset =>
    match memmapResponse with
    | none => .error (.panic "No memmap response\n")
    | some entries =>
      match largestRegion entries 0 none with
      | none => .error (.panic "No usable memory regions found")
      | some region =>
        let totalPages := region.length >>> 12
        .ok {
          hhdmOffset := hhdmOffset
          kmemStart := region.base + hhdmOffset
          kmemLength := region.length
          kmemTotalPages := totalPages
          kmemPageArray := fun i =>
            if i < (pageArrayPages totalPages).toNat then .pageArray else .free
          kmemUsedPages := 0 }

/-- The scan of `kpage_alloc`, with `left` pages still ahead of page `i`. -/
def scanPages (pages : Nat → PageStatus) (numPages : Nat) :
    (left i consecutiveFree : Nat) → Option Nat
  | 0, _, _ => none
  | left + 1, i, consecutiveFree =>
    if pages i = .free then
      if consecutiveFree + 1 = numPages then some (i + 1 - numPages)
      else scanPages pages numPages left (i + 1) (consecutiveFree + 1)
    else scanPages pages numPages left (i + 1) 0

/-- The loops of `kpage_alloc` and `kpage_free` that set a status page by page. -/
def markPages (status : PageStatus) (pages : Nat → PageStatus) (first : Nat) :
    Nat → Nat → PageStatus
  | 0 => pages
  | n + 1 => markPages status (fun i => if i = first then status else pages i) (first + 1) n

def pageAddress (kmemStart : U64) (index : Nat) : U64 := kmemStart + (BitVec.ofNat 64 index <<< 12)

def pageIndex (kmemStart page : U64) : Nat := ((page - kmemStart) >>> 12).toNat

def kpageAlloc (k : Kmem) (numPages : U64) : Except Crash (U64 × Kmem) :=
  match scanPages k.kmemPageArray numPages.toNat k.kmemTotalPages.toNat 0 0 with
  | none => .error (.panic "Out of physical memory\n")
  | some first => .ok (pageAddress k.kmemStart first,
      { k with
        kmemPageArray := markPages .used k.kmemPageArray first numPages.toNat
        kmemUsedPages := k.kmemUsedPages + numPages })

def kpageFree (k : Kmem) (page : U64) (numPages : U64) : Kmem :=
  { k with
    kmemPageArray := markPages .free k.kmemPageArray (pageIndex k.kmemStart page) numPages.toNat
    kmemUsedPages := k.kmemUsedPages - numPages }

theorem kmemInit_ok {hhdm : Option U64} {memmap : Option (List MemmapEntry)} {k : Kmem}
    (h : kmemInit hhdm memmap = .ok k) :
    ∃ (offset : U64) (region : MemmapEntry), k = {
      hhdmOffset := offset
      kmemStart := region.base + offset
      kmemLength := region.length
      kmemTotalPages := region.length >>> 12
      kmemPageArray := fun i =>
        if i < (pageArrayPages (region.length >>> 12)).toNat then .pageArray else .free
      kmemUsedPages := 0 } := by
  rcases hhdm with - | offset
  · simp [kmemInit] at h
  rcases memmap with - | entries
  · simp [kmemInit] at h
  simp only [kmemInit] at h
  split at h
  · simp at h
  · next region _ =>
    exact ⟨offset, region, (Except.ok.inj h).symm⟩

theorem markPages_apply (status : PageStatus) (pages : Nat → PageStatus) (first n i : Nat) :
    markPages status pages first n i =
      if first ≤ i ∧ i < first + n then status else pages i := by
  induction n generalizing pages first with
  | zero => simp only [markPages]; rw [if_neg (by omega)]
  | succ n ih =>
    rw [markPages, ih]
    by_cases hi : i = first
    · subst hi
      simp
    · simp only [hi, if_false]
      congr 1
      simp only [eq_iff_iff]
      omega

/-- A page index below 2^52 is recovered from the address of its page, whether
or not the region wraps round the address space. -/
theorem pageIndex_pageAddress (start : U64) {i : Nat} (hi : i < 2 ^ 52) :
    pageIndex start (pageAddress start i) = i := by
  have hs : pageAddress start i - start = BitVec.ofNat 64 i <<< 12 := by
    rw [pageAddress, BitVec.add_comm, BitVec.add_sub_cancel]
  rw [pageIndex, hs, shiftRight_toNat, shiftLeft_toNat, BitVec.toNat_ofNat]
  omega

theorem scanPages_some {pages : Nat → PageStatus} {n total : Nat} {left i c first : Nat}
    (hs : Scanned (fun i => pages i = .free) n i c) (hi : i + left = total)
    (h : scanPages pages n left i c = some first) :
    FirstRun (fun i => pages i = .free) total n first := by
  induction left generalizing i c with
  | zero => simp [scanPages] at h
  | succ left ih =>
    by_cases hp : pages i = .free
    · by_cases hc : c + 1 = n
      · have he : i + 1 - n = first := by simpa [scanPages, hp, hc] using h
        exact he ▸ hs.found hp hc (by omega)
      · have hlt := hs.lt
        exact ih (hs.count hp (by omega)) (by omega) (by simpa [scanPages, hp, hc] using h)
    · exact ih (hs.reset hp) (by omega) (by simpa [scanPages, hp] using h)

theorem scanPages_none {pages : Nat → PageStatus} {n total : Nat} {left i c : Nat}
    (hs : Scanned (fun i => pages i = .free) n i c) (hi : i + left = total)
    (h : scanPages pages n left i c = none) :
    ∀ b, b + n ≤ total → ¬ Run (fun i => pages i = .free) b n := by
  induction left generalizing i c with
  | zero => exact fun b hb => hs.none b (by omega)
  | succ left ih =>
    by_cases hp : pages i = .free
    · by_cases hc : c + 1 = n
      · simp [scanPages, hp, hc] at h
      · have hlt := hs.lt
        exact ih (hs.count hp (by omega)) (by omega) (by simpa [scanPages, hp, hc] using h)
    · exact ih (hs.reset hp) (by omega) (by simpa [scanPages, hp] using h)

theorem kpageAlloc_ok {k k' : Kmem} {n p : U64} (hn : 1 ≤ n.toNat)
    (h : kpageAlloc k n = .ok (p, k')) :
    ∃ first, FirstRun (fun i => k.kmemPageArray i = .free) k.kmemTotalPages.toNat n.toNat first ∧
      p = pageAddress k.kmemStart first ∧
      k' = { k with
        kmemPageArray := markPages .used k.kmemPageArray first n.toNat
        kmemUsedPages := k.kmemUsedPages + n } := by
  cases hs : scanPages k.kmemPageArray n.toNat k.kmemTotalPages.toNat 0 0 with
  | none => simp [kpageAlloc, hs] at h
  | some first =>
    simp only [kpageAlloc, hs, Except.ok.injEq, Prod.mk.injEq] at h
    exact ⟨first, scanPages_some (.zero hn) (Nat.zero_add _) hs, h.1.symm, h.2.symm⟩

theorem kpageAlloc_error {k : Kmem} {n : U64} {e : Crash} (hn : 1 ≤ n.toNat)
    (h : kpageAlloc k n = .error e) :
    e = .panic "Out of physical memory\n" ∧
      ∀ b, b + n.toNat ≤ k.kmemTotalPages.toNat →
        ¬ Run (fun i => k.kmemPageArray i = .free) b n.toNat := by
  cases hs : scanPages k.kmemPageArray n.toNat k.kmemTotalPages.toNat 0 0 with
  | none =>
    simp only [kpageAlloc, hs, Except.error.injEq] at h
    exact ⟨h.symm, scanPages_none (.zero hn) (Nat.zero_add _) hs⟩
  | some first => simp [kpageAlloc, hs] at h

end Persistos
