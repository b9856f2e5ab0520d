import Persistos.ExfatEntries
import Persistos.FsSlots

/-! The list of clusters that is built for a file. The loop counts the file in pieces of
4096 bytes and takes one step in the FAT for each of them. -/

namespace Persistos

/-- The clusters that the loop over a file adds, as the FAT is read. -/
def filePieces (sb : ExfatSuperblock) (fat : U32 → U32) (fileLength : U64) :
    Nat → U32 → U32 → Option (List ExfatFileCluster)
  | 0, _, _ => none
  | fuel + 1, byteOffset, lba =>
    if byteOffset.setWidth 64 < fileLength then
      let cluster : ExfatFileCluster :=
        ⟨byteOffset, lba.setWidth 64 <<< sb.bytesPerSectorExponent.toNat⟩
      if endsChain (fat lba) then some [cluster]
      else (filePieces sb fat fileLength fuel (byteOffset + 4096) (sb.clusterLba (fat lba))).map
        (cluster :: ·)
    else some []

namespace FsKernel

variable {k k' k'' : FsKernel} {sb : ExfatSuperblock} {p : NvmepartDevice} {e : U64}

/-- `slots` are new at the end of the list of `e`, and hold `clusters`. -/
structure ClustersAdded (k k' : FsKernel) (e : U64) (slots : List U64)
    (clusters : List ExfatFileCluster) : Prop where
  slabs : k'.Slabs
  grown : ∀ y ∈ k.exfatFileClusters.slots, y ∈ k'.exfatFileClusters.slots
  new : ∀ y ∈ slots, y ∉ k.exfatFileClusters.slots ∧ y ∈ k'.exfatFileClusters.slots
  nodup : slots.Nodup
  kept : ∀ y ∈ k.exfatFileClusters.slots,
    k'.exfatFileClusters.objects y = k.exfatFileClusters.objects y
  list : (k'.exfatInodes.objects e).fileClusters =
    (k.exfatInodes.objects e).fileClusters ++ slots
  objects : slots.map k'.exfatFileClusters.objects = clusters
  disk : k'.disk = k.disk
  stalePage : k'.stalePage = k.stalePage

namespace ClustersAdded

variable {slots slots' : List U64} {clusters clusters' : List ExfatFileCluster}

theorem refl (h : k.Slabs) (e : U64) : ClustersAdded k k e [] [] where
  slabs := h
  grown _ hy := hy
  new _ hy := absurd hy List.not_mem_nil
  nodup := List.nodup_nil
  kept _ _ := rfl
  list := (List.append_nil _).symm
  objects := rfl
  disk := rfl
  stalePage := rfl

theorem trans (h : ClustersAdded k k' e slots clusters)
    (h' : ClustersAdded k' k'' e slots' clusters') :
    ClustersAdded k k'' e (slots ++ slots') (clusters ++ clusters') where
  slabs := h'.slabs
  grown y hy := h'.grown y (h.grown y hy)
  new y hy := by
    rcases List.mem_append.mp hy with hy | hy
    · exact ⟨(h.new y hy).1, h'.grown y (h.new y hy).2⟩
    · exact ⟨fun hh => (h'.new y hy).1 (h.grown y hh), (h'.new y hy).2⟩
  nodup := by
    refine List.nodup_append.mpr ⟨h.nodup, h'.nodup, ?_⟩
    rintro y hy z hz rfl
    exact (h'.new y hz).1 (h.new y hy).2
  kept y hy := (h'.kept y (h.grown y hy)).trans (h.kept y hy)
  list := by rw [h'.list, h.list, List.append_assoc]
  objects := by
    have hkept : slots.map k''.exfatFileClusters.objects = slots.map k'.exfatFileClusters.objects :=
      List.map_congr_left fun y hy => h'.kept y (h.new y hy).2
    rw [List.map_append, hkept, h.objects, h'.objects]
  disk := h'.disk.trans h.disk
  stalePage := h'.stalePage.trans h.stalePage

end ClustersAdded

theorem Slabs.addFileCluster (h : k.Slabs) {c : ExfatFileCluster}
    (ha : k.addFileCluster e c = .ok k') : ∃ slot, ClustersAdded k k' e [slot] [c] := by
  obtain ⟨⟨slot, k₁⟩, halloc, he⟩ := bind_eq_ok ha
  obtain rfl := Except.ok.inj he
  obtain ⟨hframe, -, -, -⟩ := h.exfatFileClusterAlloc halloc
  obtain ⟨⟨y, supply, slab⟩, hslab, he⟩ := bind_eq_ok halloc
  simp only [Except.ok.injEq, Prod.mk.injEq] at he
  obtain ⟨rfl, rfl⟩ := he
  obtain ⟨-, hperm⟩ := h.exfatFileClusters.alloc_slots hslab
  have hnew := h.exfatFileClusters.alloc hslab
  refine ⟨y, ?_⟩
  constructor
  · exact hframe.slabs.congr rfl rfl rfl rfl rfl rfl rfl
  · exact fun z hz => hperm.mem_iff.mpr (List.mem_cons_of_mem y hz)
  · intro z hz
    obtain rfl := List.mem_singleton.mp hz
    exact ⟨hnew.not_live, hperm.mem_iff.mpr List.mem_cons_self⟩
  · exact List.nodup_singleton y
  · intro z hz
    have hne : z ≠ y := fun hh => hnew.not_live (hh ▸ hz)
    exact (slab.modify_objects_ne hne fun _ => c).trans (hnew.objects z hz)
  · exact congrArg ExfatNode.fileClusters (k.exfatInodes.modify_objects_self e fun n =>
      { n with fileClusters := n.fileClusters ++ [y] })
  · exact congrArg (fun object => [object]) (slab.modify_objects_self y fun _ => c)
  · rfl
  · rfl

theorem Slabs.addFileCluster_error (h : k.Slabs) {c : ExfatFileCluster} {crash : Crash}
    (ha : k.addFileCluster e c = .error crash) : crash = outOfMemory := by
  rcases bind_eq_error ha with halloc | ⟨r, -, he⟩
  · rcases bind_eq_error halloc with hslab | ⟨r, -, he⟩
    · exact (h.exfatFileClusters.alloc_error hslab).2
    · cases he
  · cases he

/-- The loop adds the clusters that `filePieces` lists, as far as the memory lasts. -/
theorem loadFileClusters_eq (sb : ExfatSuperblock) (p : NvmepartDevice) (e fileLength : U64)
    (fuel : Nat) (byteOffset lba : U32) (h : k.Slabs) :
    loadFileClusters sb p e fileLength fuel byteOffset lba k = .error outOfMemory ∨
      match filePieces sb (k.readFatEntry sb p) fileLength fuel byteOffset lba with
      | none => loadFileClusters sb p e fileLength fuel byteOffset lba k = .error .endless
      | some clusters => ∃ k' slots,
        loadFileClusters sb p e fileLength fuel byteOffset lba k = .ok k' ∧
          ClustersAdded k k' e slots clusters := by
  induction fuel generalizing byteOffset lba k with
  | zero => exact .inr rfl
  | succ fuel ih =>
    rw [loadFileClusters, filePieces]
    by_cases hlt : byteOffset.setWidth 64 < fileLength
    · rw [if_pos hlt, if_pos hlt]
      cases hadd : k.addFileCluster e
          ⟨byteOffset, lba.setWidth 64 <<< sb.bytesPerSectorExponent.toNat⟩ with
      | error c =>
        obtain rfl := h.addFileCluster_error hadd
        exact .inl rfl
      | ok k₁ =>
        obtain ⟨slot, hone⟩ := h.addFileCluster hadd
        have hfat : k₁.readFatEntry sb p = k.readFatEntry sb p := by
          funext lba
          rw [readFatEntry, readFatEntry, deviceRead, deviceRead, hone.disk, hone.stalePage]
        rw [ok_bind, hfat]
        dsimp only
        by_cases hends : endsChain (k.readFatEntry sb p lba) = true
        · rw [if_pos hends, if_pos hends]
          exact .inr ⟨k₁, [slot], rfl, hone⟩
        · rw [if_neg hends, if_neg hends, ← hfat]
          rcases ih (byteOffset + 4096) (sb.clusterLba (k₁.readFatEntry sb p lba)) hone.slabs with
            hmemory | hrest
          · exact .inl hmemory
          · right
            cases hpieces : filePieces sb (k₁.readFatEntry sb p) fileLength fuel
                (byteOffset + 4096) (sb.clusterLba (k₁.readFatEntry sb p lba)) with
            | none =>
              rw [hpieces] at hrest
              exact hrest
            | some clusters =>
              rw [hpieces] at hrest
              obtain ⟨k', slots, hload, hadded⟩ := hrest
              exact ⟨k', slot :: slots, hload, hone.trans hadded⟩
    · rw [if_neg hlt, if_neg hlt]
      exact .inr ⟨k, [], rfl, .refl h e⟩

end FsKernel

end Persistos
