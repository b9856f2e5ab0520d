import Persistos.RamfsCreate
import Persistos.RamfsTree
import Persistos.Theory.Budget

/-! How many pages the calls of the file systems take at most. With fewer than that left they
may end in the panic of the page allocator. -/

namespace Persistos

open Theory

theorem Slab.Ok.alloc_affords {α : Type} {supply : PageSupply} {slab : Slab α} {live : List U64}
    (h : slab.Ok supply live) (zero : α) :
    Affords (slab.alloc zero supply) outOfMemory supply.pages.length
      (fun r => r.2.1.pages.length) 1 := by
  cases ha : slab.alloc zero supply with
  | ok r => exact .inl ⟨r, rfl, (h.alloc ha).supply_length⟩
  | error e =>
    obtain ⟨hpages, rfl⟩ := h.alloc_error ha
    refine .inr ⟨?_, ?_⟩
    · rfl
    · rw [hpages]
      exact Nat.zero_lt_one

namespace RamfsInv

variable {fs : Ramfs} {files : List U64} {filp : File}

theorem setSize_affords (h : RamfsInv fs files) (hf : filp.inode ∈ files) {size : U64}
    (hsize : size.toNat ≤ 2 ^ 64 - 128) :
    Affords (ramfsSetSize fs filp size) outOfMemory fs.supply.pages.length
      (fun r => r.2.supply.pages.length)
      (Image.clustersFor size.toNat - (fs.clustersOf filp.inode).length) := by
  rcases h.toRamfsHeap.grow_all hf hsize with ⟨fs₁, new, hrun, happ, hlen⟩ | ⟨hrun, hpages⟩
  · obtain ⟨fs₂, hdrop, hd⟩ := happ.heap.dropClusters hf
      (List.take_append_drop (Image.clustersFor size.toNat) (fs₁.clustersOf filp.inode)).symm
    have hsupply := happ.supply
    rw [hlen] at hsupply
    rw [Ramfs.clustersOf] at hrun
    rw [ramfsSetSize]
    dsimp only
    rw [hrun, ok_bind]
    dsimp only
    rw [← happ.others.privateOf filp.inode, hdrop, ok_bind]
    refine .inl ⟨_, rfl, ?_⟩
    dsimp only
    rw [hd.supply]
    exact hsupply
  · refine .inr ⟨?_, hpages⟩
    rw [Ramfs.clustersOf] at hrun
    rw [ramfsSetSize]
    dsimp only
    rw [hrun, error_bind]

theorem makeRoom_affords (h : RamfsInv fs files) (hf : filp.inode ∈ files) {stop : U64}
    (hstop : stop.toNat ≤ 2 ^ 64 - 128) :
    Affords (ramfsMakeRoom fs filp stop) outOfMemory fs.supply.pages.length
      (fun fs' => fs'.supply.pages.length)
      (Image.clustersFor stop.toNat - (fs.clustersOf filp.inode).length) := by
  rw [ramfsMakeRoom]
  split
  · exact (h.setSize_affords hf hstop).bind_free fun r _ => .ok rfl (Nat.le_refl _)
  · exact .ok rfl (Nat.le_refl _)

/-- A write takes no more pages than it needs new clusters. -/
theorem write_affords (h : RamfsInv fs files) (hf : filp.inode ∈ files) (buffer : Nat → U8)
    {length : U64} (hstop : filp.offset.toNat + length.toNat ≤ 2 ^ 64 - 128) :
    Affords (ramfsWrite fs filp buffer length) outOfMemory fs.supply.pages.length
      (fun r => r.2.supply.pages.length)
      (Image.clustersFor (filp.offset.toNat + length.toNat) -
        (fs.clustersOf filp.inode).length) := by
  have hadd : (filp.offset + length).toNat = filp.offset.toNat + length.toNat := by bv_omega
  rw [ramfsWrite]
  split
  · exact .ok rfl (Nat.le_refl _)
  · rw [← hadd] at hstop ⊢
    refine (h.makeRoom_affords hf hstop).bind_free fun fs₁ hroom => ?_
    rcases h.makeRoom hf hstop with ⟨fs₂, hroom', hcall, hsize⟩ | ⟨hroom', -⟩
    · obtain rfl := Except.ok.inj (hroom'.symm.trans hroom)
      have hle : filp.offset.toNat ≤ (filp.offset + length).toNat := by omega
      obtain ⟨slab, hloop, -⟩ := hcall.inv.write_of_room hf buffer length hle (by omega) hsize
      rw [Ramfs.clustersOf] at hloop
      rw [hloop]
      exact .ok rfl (Nat.le_refl _)
    · cases hroom'.symm.trans hroom

end RamfsInv

namespace FsKernel

variable {k : FsKernel}

/-- The pages that the allocators can still take. -/
def freePages (k : FsKernel) : Nat := k.fs.supply.pages.length

theorem Slabs.inodeAlloc_affords (h : k.Slabs) :
    Affords k.inodeAlloc Persistos.outOfMemory k.freePages (fun r => r.2.freePages) 1 :=
  (h.inodes.alloc_affords clearedInode).bind_free fun _ _ => .ok rfl (Nat.le_refl _)

theorem Slabs.dentryAlloc_affords (h : k.Slabs) :
    Affords k.dentryAlloc Persistos.outOfMemory k.freePages (fun r => r.2.freePages) 1 :=
  (h.dentries.alloc_affords clearedDentry).bind_free fun _ _ => .ok rfl (Nat.le_refl _)

theorem Slabs.exfatInodeAlloc_affords (h : k.Slabs) :
    Affords k.exfatInodeAlloc Persistos.outOfMemory k.freePages (fun r => r.2.freePages) 1 :=
  (h.exfatInodes.alloc_affords clearedExfatNode).bind_free fun _ _ => .ok rfl (Nat.le_refl _)

theorem Slabs.allocEntry_affords (h : k.Slabs) :
    Affords k.allocEntry Persistos.outOfMemory k.freePages (fun r => r.2.2.freePages) 2 :=
  h.inodeAlloc_affords.bind fun _ hi =>
    (h.inodeAlloc hi).slabs.dentryAlloc_affords.bind_free fun _ _ => .ok rfl (Nat.le_refl _)

theorem setName_affords (k : FsKernel) (d : U64) {name : List U8}
    (hname : (cString name).length ≤ dentryMaxNameLength) :
    Affords (k.setName d name) Persistos.outOfMemory k.freePages freePages 0 := by
  rw [setName, if_neg (Nat.not_lt.mpr hname)]
  exact .ok rfl (Nat.le_refl _)

variable {parent : U64} {name : List U8}

theorem Slabs.vfsMkdir_affords (h : k.Slabs)
    (hname : (cString name).length ≤ dentryMaxNameLength) (parent : U64) :
    Affords (k.vfsMkdir parent name) Persistos.outOfMemory k.freePages (fun r => r.2.freePages)
      2 := by
  refine h.allocEntry_affords.bind_free fun _ _ => (setName_affords _ _ hname).bind_free fun _ _ => ?_
  rw [createDirInode]
  split <;> exact .ok rfl (Nat.le_refl _)

/-- A file in RAM needs a record. -/
theorem Slabs.vfsCreate_affords (h : k.Slabs) (hr : RamfsRecords k) (hp : k.Known parent)
    (htype : k.typeOf parent = .ramfs) (hname : (cString name).length ≤ dentryMaxNameLength) :
    Affords (k.vfsCreate parent name) Persistos.outOfMemory k.freePages (fun r => r.2.freePages)
      3 := by
  refine h.allocEntry_affords.bind fun r ha => (setName_affords _ _ hname).bind fun k₂ hn => ?_
  have hnamed := h.namedEntry ha hn
  have hrecords : Slab.Ok k₂.fs.supply k₂.fs.ramfsInodes k.fs.ramfsInodes.slots := by
    rw [hnamed.records]
    exact hr.records.of_subset hnamed.supply
  rw [finishCreate, createFileInode, hnamed.typeOf hp, htype]
  dsimp only
  rw [ramfsCreateFileInode]
  rcases hrecords.alloc_affords clearedRamfsInode with ⟨e, hrun, hleft⟩ | ⟨hrun, hleft⟩
  · rw [hrun]
    exact .inl ⟨_, rfl, hleft⟩
  · rw [hrun]
    exact .inr ⟨rfl, hleft⟩

end FsKernel

end Persistos
