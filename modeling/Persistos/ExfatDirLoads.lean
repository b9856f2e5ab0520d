import Mathlib.Dynamics.PeriodicPts.Defs
import Persistos.ExfatChains
import Persistos.PageCosts

/-! The load of a directory from any disk. It takes a list of entries that the disk alone
gives, and comes back if the FAT ends the chain and no entry describes a file before there
is one. -/

namespace Persistos

open Theory

/-- The entries of a page that the loop takes, from the byte `x` on. -/
def visitedEntries (page : Nat → U8) : Nat → Nat → List (Nat → U8)
  | 0, _ => []
  | left + 1, x => (fun i => page (x + i)) ::
      if left = 0 ∨ page (x + 0x20) = 0 then [] else visitedEntries page left (x + 0x20)

/-- There is an entry of type 0xC0 with none of type 0x85 before it. -/
def infoFirst : List (Nat → U8) → Bool
  | [] => false
  | x :: xs => if x 0 = 0x85 then false else x 0 = 0xC0 || infoFirst xs

def fileEntries (xs : List (Nat → U8)) : Nat := xs.countP fun x => x 0 = 0x85

theorem infoFirst_append {xs : List (Nat → U8)} (ys : List (Nat → U8)) (h : infoFirst xs = true) :
    infoFirst (xs ++ ys) = true := by
  induction xs with
  | nil => cases h
  | cons x xs ih =>
    rw [List.cons_append, infoFirst]
    rw [infoFirst] at h
    by_cases hfile : x 0 = 0x85
    · rw [if_pos hfile] at h
      cases h
    · rw [if_neg hfile] at h ⊢
      rcases Bool.or_eq_true_iff.mp h with hinfo | hrest
      · rw [hinfo, Bool.true_or]
      · rw [ih hrest, Bool.or_true]

namespace FsKernel

variable {k k' : FsKernel} {sb : ExfatSuperblock} {p : NvmepartDevice} {dir d i e : U64}
  {x : Nat → U8} {s s' : DirLoad}

/-- The entries that the first passes of the loop over the clusters take. -/
def dirEntries (k : FsKernel) (sb : ExfatSuperblock) (p : NvmepartDevice) :
    Nat → U32 → (Nat → U8) → List (Nat → U8)
  | 0, _, _ => []
  | n + 1, lba, page =>
    let page := k.deviceRead p (sb.dirContentOffset lba) 4096 page
    let fatEntry := k.readFatEntry sb p lba
    visitedEntries page 128 0 ++
      if endsChain fatEntry then [] else k.dirEntries sb p n (sb.clusterLba fatEntry) page

/-- The loop over the clusters ends in one of its first passes. -/
def chainEnds (k : FsKernel) (sb : ExfatSuperblock) (p : NvmepartDevice) : Nat → U32 → Bool
  | 0, _ => false
  | n + 1, lba =>
    endsChain (k.readFatEntry sb p lba) ||
      k.chainEnds sb p n (sb.clusterLba (k.readFatEntry sb p lba))

theorem chainEnds_iff {n : Nat} {lba : U32} : k.chainEnds sb p n lba = true ↔
    ∃ j < n, endsChain (k.readFatEntry sb p (k.chainLba sb p j lba)) = true := by
  induction n generalizing lba with
  | zero => exact ⟨fun h => Bool.noConfusion h, fun ⟨j, hj, _⟩ => absurd hj (Nat.not_lt_zero j)⟩
  | succ n ih =>
    rw [chainEnds, Bool.or_eq_true, ih]
    constructor
    · rintro (hends | ⟨j, hj, hends⟩)
      · exact ⟨0, Nat.succ_pos n, hends⟩
      · exact ⟨j + 1, Nat.succ_lt_succ hj, hends⟩
    · rintro ⟨j, hj, hends⟩
      cases j with
      | zero => exact .inl hends
      | succ j => exact .inr ⟨j, Nat.lt_of_succ_lt_succ hj, hends⟩

theorem chainLba_eq_iterate (n : Nat) (lba : U32) : k.chainLba sb p n lba =
    (fun lba => sb.clusterLba (k.readFatEntry sb p lba))^[n] lba := by
  induction n generalizing lba with
  | zero => rfl
  | succ n ih => exact ih _

/-- A chain that comes back to its first cluster does not end. -/
theorem not_chainEnds_of_cycle {j : Nat} {lba : U32} (hj : 0 < j)
    (hcycle : k.chainLba sb p j lba = lba)
    (hgoes : ∀ n < j, endsChain (k.readFatEntry sb p (k.chainLba sb p n lba)) = false)
    (n : Nat) : k.chainEnds sb p n lba = false := by
  refine Bool.eq_false_iff.mpr fun hh => ?_
  obtain ⟨m, -, hends⟩ := chainEnds_iff.mp hh
  have hperiod : Function.IsPeriodicPt
      (fun lba => sb.clusterLba (k.readFatEntry sb p lba)) j lba :=
    (chainLba_eq_iterate j lba).symm.trans hcycle
  rw [chainLba_eq_iterate, ← hperiod.iterate_mod_apply m, ← chainLba_eq_iterate,
    hgoes _ (Nat.mod_lt m hj)] at hends
  cases hends

theorem loadEntries_visited (page : Nat → U8) (left x : Nat) (s : DirLoad) :
    loadEntries sb dir page left x s = loadAll sb dir (visitedEntries page left x) s := by
  induction left generalizing x s with
  | zero => rfl
  | succ left ih =>
    rw [loadEntries, visitedEntries, loadAll_cons]
    refine congrArg _ (funext fun s' => ?_)
    by_cases hstop : left = 0 ∨ page (x + 0x20) = 0
    · rw [if_pos hstop, if_pos hstop]
      rfl
    · rw [if_neg hstop, if_neg hstop, ih]

theorem setFileType_stalePage (k : FsKernel) (x : Nat → U8) (i e : U64) :
    (k.setFileType x i e).stalePage = k.stalePage := by
  rw [setFileType]
  split <;> rfl

theorem loadFileEntry_stalePage (hl : k.loadFileEntry dir x = .ok (d, k')) :
    k'.stalePage = k.stalePage := by
  obtain ⟨⟨d', k₁⟩, hd, hl⟩ := bind_eq_ok hl
  obtain ⟨⟨i, k₂⟩, hi, hl⟩ := bind_eq_ok hl
  obtain ⟨⟨e, k₃⟩, he, hl⟩ := bind_eq_ok hl
  obtain ⟨⟨y, supply, dentries⟩, -, hd⟩ := bind_eq_ok hd
  obtain ⟨⟨z, supply', inodes⟩, -, hi⟩ := bind_eq_ok hi
  obtain ⟨⟨w, supply'', exfatInodes⟩, -, he⟩ := bind_eq_ok he
  simp only [Except.ok.injEq, Prod.mk.injEq] at hd hi he hl
  obtain ⟨rfl, rfl⟩ := hd
  obtain ⟨rfl, rfl⟩ := hi
  obtain ⟨rfl, rfl⟩ := he
  obtain ⟨rfl, rfl⟩ := hl
  exact setFileType_stalePage _ x _ _

theorem loadInfoEntry_stalePage (k : FsKernel) (sb : ExfatSuperblock) (d : U64) (x : Nat → U8) :
    (k.loadInfoEntry sb d x).stalePage = k.stalePage := by
  rw [loadInfoEntry]
  split <;> rfl

theorem loadEntry_stalePage (hl : loadEntry sb dir x s = .ok s') :
    s'.kernel.stalePage = s.kernel.stalePage := by
  rcases loadEntry_cases hl with ⟨-, d, k', hfile, rfl⟩ | ⟨-, -, rfl⟩ |
    ⟨-, -, name, i, -, rfl⟩ | ⟨-, -, -, rfl⟩
  · exact loadFileEntry_stalePage hfile
  · exact loadInfoEntry_stalePage s.kernel sb s.fileDentry x
  · rfl
  · rfl

theorem loadAll_stalePage {xs : List (Nat → U8)} (hl : loadAll sb dir xs s = .ok s') :
    s'.kernel.stalePage = s.kernel.stalePage := by
  induction xs generalizing s with
  | nil =>
    obtain rfl := Except.ok.inj hl
    rfl
  | cons x xs ih =>
    rw [loadAll_cons] at hl
    obtain ⟨s₁, hentry, hl⟩ := bind_eq_ok hl
    exact (ih hl).trans (loadEntry_stalePage hentry)

/-- The loop over the clusters is one over the entries that the disk gives. -/
theorem loadDirPages_entries (fuel : Nat) (lba : U32) (page : Nat → U8)
    (hdisk : s.kernel.disk = k.disk) (hstale : s.kernel.stalePage = k.stalePage) :
    loadDirPages sb p dir fuel lba page s =
      loadAll sb dir (k.dirEntries sb p fuel lba page) s >>= fun s' =>
        if k.chainEnds sb p fuel lba then .ok s' else .error .endless := by
  induction fuel generalizing lba page s with
  | zero => rfl
  | succ fuel ih =>
    have hpage : s.kernel.deviceRead p (sb.dirContentOffset lba) 4096 page =
        k.deviceRead p (sb.dirContentOffset lba) 4096 page := by
      rw [deviceRead, deviceRead, hdisk]
    rw [loadDirPages_reads, hpage, loadEntries_visited, dirEntries, chainEnds,
      loadAll_append, bind_assoc]
    cases hentries : loadAll sb dir (visitedEntries
        (k.deviceRead p (sb.dirContentOffset lba) 4096 page) 128 0) s with
    | error c => rfl
    | ok s₁ =>
      have hdisk₁ := (loadAll_disk hentries).trans hdisk
      have hstale₁ := (loadAll_stalePage hentries).trans hstale
      have hfat : s₁.kernel.readFatEntry sb p lba = k.readFatEntry sb p lba := by
        rw [readFatEntry, readFatEntry, deviceRead, deviceRead, hdisk₁, hstale₁]
      rw [ok_bind, ok_bind, hfat]
      by_cases hends : endsChain (k.readFatEntry sb p lba) = true
      · rw [hends, if_pos rfl, if_pos rfl]
        rfl
      · rw [Bool.eq_false_iff.mpr hends, if_neg Bool.false_ne_true, if_neg Bool.false_ne_true,
          Bool.false_or]
        exact ih _ _ hdisk₁ hstale₁

theorem Slabs.dentryAlloc_room (h : k.Slabs) {n : Nat} (hroom : n + 1 ≤ k.freePages) :
    ∃ d k', k.dentryAlloc = .ok (d, k') ∧ n ≤ k'.freePages := by
  obtain ⟨⟨d, k'⟩, hd, hleft⟩ := h.dentryAlloc_affords.returns hroom
  exact ⟨d, k', hd, hleft⟩

theorem Slabs.inodeAlloc_room (h : k.Slabs) {n : Nat} (hroom : n + 1 ≤ k.freePages) :
    ∃ i k', k.inodeAlloc = .ok (i, k') ∧ n ≤ k'.freePages := by
  obtain ⟨⟨i, k'⟩, hi, hleft⟩ := h.inodeAlloc_affords.returns hroom
  exact ⟨i, k', hi, hleft⟩

theorem Slabs.exfatInodeAlloc_room (h : k.Slabs) {n : Nat} (hroom : n + 1 ≤ k.freePages) :
    ∃ e k', k.exfatInodeAlloc = .ok (e, k') ∧ n ≤ k'.freePages := by
  obtain ⟨⟨e, k'⟩, he, hleft⟩ := h.exfatInodeAlloc_affords.returns hroom
  exact ⟨e, k', he, hleft⟩

theorem setFileType_freePages (k : FsKernel) (x : Nat → U8) (i e : U64) :
    (k.setFileType x i e).freePages = k.freePages := by
  rw [setFileType]
  split <;> rfl

/-- Three pages are enough for what an entry of type 0x85 allocates. -/
theorem Slabs.loadFileEntry_room (h : k.Slabs) (dir : U64) (x : Nat → U8) {n : Nat}
    (hroom : n + 3 ≤ k.freePages) :
    ∃ d k', k.loadFileEntry dir x = .ok (d, k') ∧ n ≤ k'.freePages := by
  obtain ⟨d, k₁, hd, hroom₁⟩ := h.dentryAlloc_room hroom
  have h₁ : (k₁.modifyDentry d fun _ =>
      ⟨List.replicate (dentryMaxNameLength + 1) 0, 0, 0⟩).Slabs :=
    (h.dentryAlloc hd).slabs.congr rfl rfl rfl rfl rfl rfl rfl
  obtain ⟨i, k₂, hi, hroom₂⟩ := h₁.inodeAlloc_room hroom₁
  have h₂ : (k₂.modifyInode i fun inode =>
      { inode with superblock := (k₂.inode dir).superblock }).Slabs :=
    (h₁.inodeAlloc hi).slabs.congr rfl rfl rfl rfl rfl rfl rfl
  obtain ⟨e, k₃, he, hroom₃⟩ := h₂.exfatInodeAlloc_room hroom₂
  rw [FsKernel.loadFileEntry, hd, ok_bind]
  dsimp only
  rw [hi, ok_bind]
  dsimp only
  rw [he, ok_bind]
  refine ⟨_, _, rfl, ?_⟩
  have hset := setFileType_freePages (((k₃.modifyInode i fun inode =>
    { inode with privateData := e }).modifyDentry d fun dentry =>
      { dentry with inode := i }).addDentry dir d) x i e
  exact hroom₃.trans_eq hset.symm

/-- What an entry leaves is a kernel that the next one can be taken in, and there is a current
dentry once there was a file. -/
theorem loadEntry_frame (hslabs : s.kernel.Slabs) (hdir : s.kernel.Known dir)
    (hl : loadEntry sb dir x s = .ok s') : s'.kernel.Slabs ∧ s'.kernel.Known dir ∧
      (s'.fileDentry = 0 ↔ x 0 ≠ 0x85 ∧ s.fileDentry = 0) := by
  rcases loadEntry_cases hl with ⟨hfile, d, k', hnew, rfl⟩ | ⟨hinfo, -, rfl⟩ |
    ⟨hname, -, name, i, -, rfl⟩ | ⟨hfile, -, -, rfl⟩
  · obtain ⟨i, e, hnew⟩ := hslabs.loadFileEntry_new hdir hnew
    refine ⟨hnew.slabs, (hnew.known_iff dir).mpr (.inr hdir), ?_⟩
    exact iff_of_false hnew.filling.dentry_ne_zero fun hh => hh.1 hfile
  · refine ⟨?_, ?_, ?_⟩
    · rw [loadInfoEntry]
      split <;> exact hslabs.congr rfl rfl rfl rfl rfl rfl rfl
    · rw [loadInfoEntry]
      split <;> exact hdir
    · rw [hinfo, and_iff_right (by decide)]
  · refine ⟨hslabs.congr rfl rfl rfl rfl rfl rfl rfl, hdir, ?_⟩
    rw [hname, and_iff_right (by decide)]
  · exact ⟨hslabs, hdir, (and_iff_right hfile).symm⟩

theorem loadEntry_freePages (hfile : x 0 ≠ 0x85) (hl : loadEntry sb dir x s = .ok s') :
    s'.kernel.freePages = s.kernel.freePages := by
  rcases loadEntry_cases hl with ⟨hh, -⟩ | ⟨-, -, rfl⟩ | ⟨-, -, name, i, -, rfl⟩ | ⟨-, -, -, rfl⟩
  · exact absurd hh hfile
  · dsimp only
    rw [loadInfoEntry]
    split <;> rfl
  · rfl
  · rfl

/-- With no file before it, an entry of type 0xC0 goes through the null pointer. -/
theorem loadAll_infoFirst {xs : List (Nat → U8)} (hnone : s.fileDentry = 0)
    (h : infoFirst xs = true) : loadAll sb dir xs s = .error .outOfBounds := by
  induction xs with
  | nil => cases h
  | cons x xs ih =>
    rw [infoFirst] at h
    rw [loadAll_cons, loadEntry]
    by_cases hfile : x 0 = 0x85
    · rw [if_pos hfile] at h
      cases h
    · rw [if_neg hfile] at h
      rw [if_neg hfile, if_pos hnone, if_pos hnone]
      by_cases hinfo : x 0 = 0xC0
      · rw [if_pos hinfo]
        rfl
      · rw [decide_eq_false hinfo, Bool.false_or] at h
        rw [if_neg hinfo, ite_self, ok_bind, ih h]

/-- With three free pages for each file, nothing else stops the loader. -/
theorem loadAll_room {xs : List (Nat → U8)} (hslabs : s.kernel.Slabs) (hdir : s.kernel.Known dir)
    (hroom : 3 * fileEntries xs ≤ s.kernel.freePages)
    (hinfo : s.fileDentry = 0 → infoFirst xs = false) :
    ∃ s', loadAll sb dir xs s = .ok s' := by
  induction xs generalizing s with
  | nil => exact ⟨s, rfl⟩
  | cons x xs ih =>
    rw [loadAll_cons]
    by_cases hfile : x 0 = 0x85
    · have hcount : fileEntries (x :: xs) = fileEntries xs + 1 :=
        List.countP_cons_of_pos (decide_eq_true hfile)
      obtain ⟨d, k', hnew, hroom'⟩ := hslabs.loadFileEntry_room (n := 3 * fileEntries xs) dir x
        (by omega)
      have hentry : loadEntry sb dir x s = .ok ⟨k', d, 0⟩ := by
        rw [loadEntry, if_pos hfile, hnew]
        rfl
      obtain ⟨hslabs', hdir', hcurrent⟩ := loadEntry_frame hslabs hdir hentry
      rw [hentry]
      exact ih hslabs' hdir' hroom' fun hnone => absurd hfile (hcurrent.mp hnone).1
    · have hcount : fileEntries (x :: xs) = fileEntries xs :=
        List.countP_cons_of_neg (Bool.eq_false_iff.mp (decide_eq_false hfile))
      rw [infoFirst, if_neg hfile] at hinfo
      have hentry : ∃ s', loadEntry sb dir x s = .ok s' := by
        rw [loadEntry, if_neg hfile]
        by_cases htype : x 0 = 0xC0
        · have hcurrent : s.fileDentry ≠ 0 := fun hnone => by
            have hh := hinfo hnone
            rw [decide_eq_true htype] at hh
            cases hh
          rw [if_pos htype, if_neg hcurrent]
          exact ⟨_, rfl⟩
        · rw [if_neg htype]
          split
          · split <;> exact ⟨_, rfl⟩
          · exact ⟨_, rfl⟩
      obtain ⟨s', hentry⟩ := hentry
      obtain ⟨hslabs', hdir', hcurrent⟩ := loadEntry_frame hslabs hdir hentry
      rw [hentry]
      refine ih hslabs' hdir' ?_ fun hnone => ?_
      · rw [loadEntry_freePages hfile hentry, ← hcount]
        exact hroom
      · exact (Bool.or_eq_false_iff.mp (hinfo (hcurrent.mp hnone).2)).2

theorem dirEntries_prefix {n m : Nat} (h : n ≤ m) (lba : U32) (page : Nat → U8) :
    k.dirEntries sb p n lba page <+: k.dirEntries sb p m lba page := by
  induction n generalizing m lba page with
  | zero => exact List.nil_prefix
  | succ n ih =>
    cases m with
    | zero => exact absurd h (Nat.not_succ_le_zero n)
    | succ m =>
      rw [dirEntries, dirEntries]
      refine (List.prefix_append_right_inj _).mpr ?_
      split
      · exact List.nil_prefix
      · exact ih (Nat.le_of_succ_le_succ h) _ _

/-- Behind the end of the chain there are no more entries. -/
theorem dirEntries_ended {n m : Nat} (h : n ≤ m) {lba : U32} {page : Nat → U8}
    (hends : k.chainEnds sb p n lba = true) :
    k.dirEntries sb p m lba page = k.dirEntries sb p n lba page := by
  induction n generalizing m lba page with
  | zero => cases hends
  | succ n ih =>
    cases m with
    | zero => exact absurd h (Nat.not_succ_le_zero n)
    | succ m =>
      rw [dirEntries, dirEntries]
      by_cases hend : endsChain (k.readFatEntry sb p lba) = true
      · rw [if_pos hend, if_pos hend]
      · rw [chainEnds, Bool.eq_false_iff.mpr hend, Bool.false_or] at hends
        rw [if_neg hend, if_neg hend, ih (Nat.le_of_succ_le_succ h) hends]

theorem infoFirst_dirEntries {n m : Nat} {lba : U32} {page : Nat → U8}
    (hends : k.chainEnds sb p m lba = true)
    (h : infoFirst (k.dirEntries sb p n lba page) = true) :
    infoFirst (k.dirEntries sb p m lba page) = true := by
  rcases Nat.le_total n m with hle | hle
  · have hprefix : k.dirEntries sb p n lba page <+: k.dirEntries sb p m lba page :=
      dirEntries_prefix hle lba page
    obtain ⟨rest, hrest⟩ := hprefix
    rw [← hrest]
    exact infoFirst_append rest h
  · rw [← dirEntries_ended hle hends]
    exact h

/-- The sector that a directory starts with. -/
def startLba (k : FsKernel) (dir : U64) : U32 :=
  (k.exfatInodes.objects (k.inode dir).privateData).exfatStartLba

theorem exfatLoadDirInode_entries (k : FsKernel) (sb : ExfatSuperblock) (p : NvmepartDevice)
    (dir : U64) (fuel : Nat) :
    k.exfatLoadDirInode fuel sb p dir =
      loadAll sb dir (k.dirEntries sb p fuel (k.startLba dir) k.stalePage) ⟨k, 0, 0⟩ >>= fun s =>
        if k.chainEnds sb p fuel (k.startLba dir) then
          .ok (s.kernel.modifyExfatInode (k.inode dir).privateData fun e =>
            { e with loadNeeded := false })
        else .error .endless := by
  have hpages : loadDirPages sb p dir fuel (k.startLba dir) k.stalePage ⟨k, 0, 0⟩ =
      loadAll sb dir (k.dirEntries sb p fuel (k.startLba dir) k.stalePage) ⟨k, 0, 0⟩ >>= fun s =>
        if k.chainEnds sb p fuel (k.startLba dir) then .ok s else .error .endless :=
    loadDirPages_entries fuel (k.startLba dir) k.stalePage rfl rfl
  rw [exfatLoadDirInode]
  change loadDirPages sb p dir fuel (k.startLba dir) k.stalePage ⟨k, 0, 0⟩ >>= _ = _
  rw [hpages, bind_assoc]
  refine congrArg _ (funext fun s => ?_)
  split <;> rfl

/-- An empty directory in a cluster that the FAT leads back to. -/
def selfLinked : FsKernel :=
  { contiguousFile with disk := fun x => if x = 4104 then 2 else 0 }

end FsKernel

end Persistos
