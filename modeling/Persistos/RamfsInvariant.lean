import Persistos.RamfsLoops
import Persistos.RamfsImage
import Mathlib.Data.List.Pairwise

/-! What the slabs of the RAM file system hold between two calls: every
allocated cluster is on the list of one file. -/

namespace Persistos

open Theory

theorem flatMap_perm_append {α β : Type} [DecidableEq α] {keys : List α} {k : α} (hk : k ∈ keys)
    (hn : keys.Nodup) {f g : α → List β} (hg : ∀ j ∈ keys, j ≠ k → g j = f j) (extra : List β)
    (hp : (g k).Perm (extra ++ f k)) : (keys.flatMap g).Perm (extra ++ keys.flatMap f) := by
  have hsplit := List.perm_cons_erase hk
  have hrest : (keys.erase k).flatMap g = (keys.erase k).flatMap f := by
    apply List.flatMap_congr
    intro j hj
    exact hg j (List.mem_of_mem_erase hj) (hn.mem_erase_iff.mp hj).1
  calc keys.flatMap g
      |>.Perm ((k :: keys.erase k).flatMap g) := hsplit.flatMap_right g
    _ |>.Perm ((extra ++ f k) ++ (keys.erase k).flatMap f) := by
      rw [List.flatMap_cons, hrest]
      exact hp.append_right _
    _ |>.Perm (extra ++ keys.flatMap f) := by
      rw [List.append_assoc, ← List.flatMap_cons]
      exact (hsplit.flatMap_right f).symm.append_left extra

namespace Ramfs

variable (fs : Ramfs)

def clustersOf (f : U64) : List U64 := (fs.ramfsInodeOf f).ramfsClusters

def image (f : U64) : Image :=
  ⟨clusterBytes fs.ramfsClusters.objects (fs.clustersOf f), (fs.ramfsInodeOf f).size.toNat⟩

end Ramfs

/-- The inodes in `files` are regular files, and the slabs hold their records
and clusters. Besides them the inode slab holds directories. -/
structure RamfsHeap (fs : Ramfs) (files : List U64) : Prop where
  inodes : ∃ dirs, fs.inodes.Ok fs.supply (files ++ dirs)
  dentries : ∃ live, fs.dentries.Ok fs.supply live
  ramfsInodes : fs.ramfsInodes.Ok fs.supply (files.map fs.privateOf)
  unused : fs.ramfsInodes.Unused clearedRamfsInode (files.map fs.privateOf)
  ramfsClusters : fs.ramfsClusters.Ok fs.supply (files.flatMap fs.clustersOf)
  regular : ∀ f ∈ files, (fs.inodes.objects f).type = inodeRegularFile ∧
    (fs.inodes.objects f).superblock ≠ 0

/-- A file has the clusters that its size needs, and an empty one may have one. -/
structure Sized (count : Nat) (size : U64) : Prop where
  covered : size.toNat ≤ 128 * count
  count_le : count ≤ Image.clustersFor size.toNat
  size_le : size.toNat ≤ 2 ^ 64 - 128

structure RamfsInv (fs : Ramfs) (files : List U64) : Prop extends RamfsHeap fs files where
  sized : ∀ f ∈ files, Sized (fs.clustersOf f).length (fs.ramfsInodeOf f).size

/-- Every file except `f` has its record and the data of its clusters as before. -/
structure OnlyChanged (fs fs' : Ramfs) (files : List U64) (f : U64) : Prop where
  inodes : fs'.inodes = fs.inodes
  ramfsInodeOf : ∀ g ∈ files, g ≠ f → fs'.ramfsInodeOf g = fs.ramfsInodeOf g
  data : ∀ g ∈ files, g ≠ f → ∀ c ∈ fs.clustersOf g,
    fs'.ramfsClusters.objects c = fs.ramfsClusters.objects c

namespace OnlyChanged

variable {fs fs' fs'' : Ramfs} {files : List U64} {f : U64}

theorem refl (fs : Ramfs) (files : List U64) (f : U64) : OnlyChanged fs fs files f :=
  ⟨rfl, fun _ _ _ => rfl, fun _ _ _ _ _ => rfl⟩

theorem clustersOf (h : OnlyChanged fs fs' files f) {g : U64} (hg : g ∈ files) (hne : g ≠ f) :
    fs'.clustersOf g = fs.clustersOf g :=
  congrArg RamfsInode.ramfsClusters (h.ramfsInodeOf g hg hne)

theorem trans (h : OnlyChanged fs fs' files f) (h' : OnlyChanged fs' fs'' files f) :
    OnlyChanged fs fs'' files f where
  inodes := h'.inodes.trans h.inodes
  ramfsInodeOf g hg hne := (h'.ramfsInodeOf g hg hne).trans (h.ramfsInodeOf g hg hne)
  data g hg hne c hc :=
    (h'.data g hg hne c ((h.clustersOf hg hne).symm ▸ hc)).trans (h.data g hg hne c hc)

theorem image (h : OnlyChanged fs fs' files f) {g : U64} (hg : g ∈ files) (hne : g ≠ f) :
    fs'.image g = fs.image g := by
  rw [Ramfs.image, Ramfs.image, h.clustersOf hg hne, h.ramfsInodeOf g hg hne,
    clusterBytes_congr (h.data g hg hne)]

theorem privateOf (h : OnlyChanged fs fs' files f) (g : U64) :
    fs'.privateOf g = fs.privateOf g := by
  rw [Ramfs.privateOf, h.inodes, Ramfs.privateOf]

end OnlyChanged

namespace RamfsHeap

variable {fs fs' : Ramfs} {files : List U64} {f : U64}

theorem files_nodup (h : RamfsHeap fs files) : files.Nodup := by
  obtain ⟨dirs, hok⟩ := h.inodes
  exact (List.nodup_append.mp hok.inv.live_nodup).1

theorem privateOf_ne (h : RamfsHeap fs files) {g : U64} (hf : f ∈ files) (hg : g ∈ files)
    (hne : g ≠ f) : fs.privateOf g ≠ fs.privateOf f := fun he =>
  hne (List.inj_on_of_nodup_map h.ramfsInodes.inv.live_nodup hg hf he)

theorem clusters_nodup (h : RamfsHeap fs files) : (files.flatMap fs.clustersOf).Nodup :=
  h.ramfsClusters.inv.live_nodup

theorem clustersOf_nodup (h : RamfsHeap fs files) (hf : f ∈ files) : (fs.clustersOf f).Nodup :=
  (List.nodup_flatMap.mp h.clusters_nodup).1 f hf

theorem clustersOf_disjoint (h : RamfsHeap fs files) {g c : U64} (hf : f ∈ files) (hg : g ∈ files)
    (hne : g ≠ f) (hc : c ∈ fs.clustersOf f) : c ∉ fs.clustersOf g := by
  have hd := (List.nodup_flatMap.mp h.clusters_nodup).2
  have : Std.Symm (Function.onFun List.Disjoint fs.clustersOf) :=
    ⟨fun _ _ hxy => List.disjoint_symm hxy⟩
  exact fun hm => hd.forall hf hg hne.symm hc hm

theorem ramfsInodeOf_modify (h : RamfsHeap fs files) (hf : f ∈ files)
    (hinodes : fs'.inodes = fs.inodes) {φ : RamfsInode → RamfsInode}
    (hrecords : fs'.ramfsInodes = fs.ramfsInodes.modify (fs.privateOf f) φ) :
    fs'.ramfsInodeOf f = φ (fs.ramfsInodeOf f) ∧
      ∀ g ∈ files, g ≠ f → fs'.ramfsInodeOf g = fs.ramfsInodeOf g := by
  have hprivate : ∀ g, fs'.privateOf g = fs.privateOf g := by
    intro g
    rw [Ramfs.privateOf, hinodes, Ramfs.privateOf]
  constructor
  · rw [Ramfs.ramfsInodeOf, hprivate, hrecords, Slab.modify_objects_self, Ramfs.ramfsInodeOf]
  · intro g hg hne
    rw [Ramfs.ramfsInodeOf, hprivate, hrecords,
      Slab.modify_objects_ne _ (h.privateOf_ne hf hg hne), Ramfs.ramfsInodeOf]

theorem of_onlyChanged (h : RamfsHeap fs files) (ho : OnlyChanged fs fs' files f)
    (hs : fs'.supply.pages ⊆ fs.supply.pages) (hdentries : fs'.dentries = fs.dentries)
    (hf : f ∈ files) {φ : RamfsInode → RamfsInode}
    (hrecords : fs'.ramfsInodes = fs.ramfsInodes.modify (fs.privateOf f) φ)
    (hclusters : fs'.ramfsClusters.Ok fs'.supply (files.flatMap fs'.clustersOf)) :
    RamfsHeap fs' files := by
  obtain ⟨dirs, hinodes⟩ := h.inodes
  obtain ⟨live, hlive⟩ := h.dentries
  have hprivate : files.map fs'.privateOf = files.map fs.privateOf :=
    List.map_congr_left fun g _ => ho.privateOf g
  refine ⟨⟨dirs, ?_⟩, ⟨live, ?_⟩, ?_, ?_, hclusters, ?_⟩
  · rw [ho.inodes]
    exact hinodes.of_subset hs
  · rw [hdentries]
    exact hlive.of_subset hs
  · rw [hprivate, hrecords]
    exact (h.ramfsInodes.of_subset hs).modify _ φ
  · rw [hprivate, hrecords]
    exact h.unused.modify (List.mem_map_of_mem hf) φ
  · rw [ho.inodes]
    exact h.regular

structure Appended (fs fs' : Ramfs) (files : List U64) (f : U64) (new : List U64) : Prop where
  heap : RamfsHeap fs' files
  others : OnlyChanged fs fs' files f
  clustersOf : fs'.clustersOf f = fs.clustersOf f ++ new
  size : (fs'.ramfsInodeOf f).size = (fs.ramfsInodeOf f).size
  data : ∀ c ∈ fs.clustersOf f, fs'.ramfsClusters.objects c = fs.ramfsClusters.objects c
  cleared : ∀ c ∈ new, fs'.ramfsClusters.objects c = clearedCluster
  supply : fs.supply.pages.length ≤ fs'.supply.pages.length + new.length

theorem appendCluster (h : RamfsHeap fs files) (hf : f ∈ files)
    (ha : ramfsAppendCluster fs (fs.privateOf f) = .ok fs') :
    ∃ c, Appended fs fs' files f [c] := by
  obtain ⟨⟨c, supply, clusters⟩, hc, he⟩ := bind_eq_ok ha
  have hfs := Except.ok.inj he
  have hsupply : fs'.supply = supply := hfs ▸ rfl
  have hinodes : fs'.inodes = fs.inodes := hfs ▸ rfl
  have hrecords : fs'.ramfsInodes = fs.ramfsInodes.modify (fs.privateOf f) fun r =>
      { r with ramfsClusters := r.ramfsClusters ++ [c] } := hfs ▸ rfl
  have hslab : fs'.ramfsClusters = clusters.modify c fun _ => clearedCluster := hfs ▸ rfl
  have hall := h.ramfsClusters.alloc hc
  have hdata : ∀ g ∈ files, ∀ y ∈ fs.clustersOf g,
      fs'.ramfsClusters.objects y = fs.ramfsClusters.objects y := by
    intro g hg y hy
    have hlive := List.mem_flatMap.mpr ⟨g, hg, hy⟩
    rw [hslab, clusters.modify_objects_ne (ne_of_mem_of_not_mem hlive hall.not_live)]
    exact hall.objects y hlive
  obtain ⟨hself, hother⟩ := h.ramfsInodeOf_modify hf hinodes hrecords
  have hothers : OnlyChanged fs fs' files f := ⟨hinodes, hother, fun g hg _ => hdata g hg⟩
  have hclusters : fs'.clustersOf f = fs.clustersOf f ++ [c] := by
    rw [Ramfs.clustersOf, hself]
    rfl
  have hperm : (c :: files.flatMap fs.clustersOf).Perm (files.flatMap fs'.clustersOf) :=
    (flatMap_perm_append hf h.files_nodup (fun g hg hne => hothers.clustersOf hg hne)
      [c] (by rw [hclusters]; exact List.perm_append_comm)).symm
  refine ⟨c, ?_, hothers, hclusters, by rw [hself], hdata f hf, ?_, ?_⟩
  · refine h.of_onlyChanged hothers (hsupply ▸ hall.supply_subset) (hfs ▸ rfl) hf hrecords ?_
    rw [hsupply, hslab]
    exact (hall.ok.modify c _).perm hperm
  · intro y hy
    obtain rfl := List.mem_singleton.mp hy
    rw [hslab, Slab.modify_objects_self]
  · rw [hsupply]
    exact hall.supply_length

theorem Appended.refl (h : RamfsHeap fs files) (f : U64) : Appended fs fs files f [] where
  heap := h
  others := .refl fs files f
  clustersOf := (List.append_nil _).symm
  size := rfl
  data _ _ := rfl
  cleared _ hc := absurd hc List.not_mem_nil
  supply := Nat.le_refl _

theorem Appended.trans {fs'' : Ramfs} {new new' : List U64} (h : Appended fs fs' files f new)
    (h' : Appended fs' fs'' files f new') : Appended fs fs'' files f (new ++ new') where
  heap := h'.heap
  others := h.others.trans h'.others
  clustersOf := by rw [h'.clustersOf, h.clustersOf, List.append_assoc]
  size := h'.size.trans h.size
  data c hc := (h'.data c (h.clustersOf ▸ List.mem_append_left new hc)).trans (h.data c hc)
  cleared c hc := by
    rcases List.mem_append.mp hc with hc | hc
    · rw [h'.data c (h.clustersOf ▸ List.mem_append_right _ hc), h.cleared c hc]
    · exact h'.cleared c hc
  supply := by
    have hs := h.supply
    have hs' := h'.supply
    rw [List.length_append]
    omega

theorem appendCluster_error (h : RamfsHeap fs files) {e : Crash} {r : U64}
    (ha : ramfsAppendCluster fs r = .error e) :
    fs.supply.pages = [] ∧ e = .panic "Out of physical memory\n" := by
  cases hc : fs.ramfsClusters.alloc clearedCluster fs.supply with
  | error e' =>
    rw [ramfsAppendCluster, hc, error_bind, Except.error.injEq] at ha
    exact ha ▸ h.ramfsClusters.alloc_error hc
  | ok result =>
    rw [ramfsAppendCluster, hc, ok_bind] at ha
    cases ha

structure Dropped (fs fs' : Ramfs) (files : List U64) (f : U64) (kept : List U64) : Prop where
  heap : RamfsHeap fs' files
  others : OnlyChanged fs fs' files f
  clustersOf : fs'.clustersOf f = kept
  size : (fs'.ramfsInodeOf f).size = (fs.ramfsInodeOf f).size
  data : fs'.ramfsClusters.objects = fs.ramfsClusters.objects
  supply : fs'.supply = fs.supply

theorem dropCluster (h : RamfsHeap fs files) (hf : f ∈ files) {c : U64}
    (hc : c ∈ fs.clustersOf f) :
    ∃ fs', ramfsDropCluster fs (fs.privateOf f) c = .ok fs' ∧
      Dropped fs fs' files f ((fs.clustersOf f).erase c) := by
  obtain ⟨slab, hfree, hok, hobjects⟩ :=
    h.ramfsClusters.free (List.mem_flatMap.mpr ⟨f, hf, hc⟩)
  let fs' : Ramfs := { fs with
    ramfsInodes := fs.ramfsInodes.modify (fs.privateOf f) fun r =>
      { r with ramfsClusters := r.ramfsClusters.erase c }
    ramfsClusters := slab }
  have hrecords : fs'.ramfsInodes = fs.ramfsInodes.modify (fs.privateOf f) fun r =>
      { r with ramfsClusters := r.ramfsClusters.erase c } := rfl
  obtain ⟨hself, hother⟩ := h.ramfsInodeOf_modify hf (show fs'.inodes = fs.inodes from rfl) hrecords
  have hothers : OnlyChanged fs fs' files f :=
    ⟨rfl, hother, fun g _ _ y _ => congrFun hobjects y⟩
  have hclusters : fs'.clustersOf f = (fs.clustersOf f).erase c := by
    rw [Ramfs.clustersOf, hself]
    rfl
  have hperm : (files.flatMap fs.clustersOf).Perm (c :: files.flatMap fs'.clustersOf) := by
    refine flatMap_perm_append hf h.files_nodup
      (fun g hg hne => (hothers.clustersOf hg hne).symm) [c] ?_
    rw [hclusters]
    exact List.perm_cons_erase hc
  refine ⟨fs', ?_, ?_, hothers, hclusters, by rw [hself], hobjects, rfl⟩
  · rw [ramfsDropCluster, hfree]
    rfl
  · refine h.of_onlyChanged hothers (List.Subset.refl _) rfl hf hrecords ?_
    have he := hperm.erase c
    rw [List.erase_cons_head] at he
    exact hok.perm he

theorem dropClusters (h : RamfsHeap fs files) (hf : f ∈ files) {kept rest : List U64}
    (hc : fs.clustersOf f = kept ++ rest) :
    ∃ fs', ramfsDropClusters (fs.privateOf f) fs rest = .ok fs' ∧
      Dropped fs fs' files f kept := by
  induction rest generalizing fs with
  | nil =>
    exact ⟨fs, rfl, h, .refl fs files f, by rw [hc, List.append_nil], rfl, rfl, rfl⟩
  | cons c rest ih =>
    have hnd := h.clustersOf_nodup hf
    rw [hc] at hnd
    have hnot : c ∉ kept := fun hm =>
      (List.nodup_append.mp hnd).2.2 c hm c List.mem_cons_self rfl
    obtain ⟨fs₁, hrun, hd⟩ := h.dropCluster hf (c := c) (by rw [hc]; simp)
    have hc₁ : fs₁.clustersOf f = kept ++ rest := by
      rw [hd.clustersOf, hc, List.erase_append_right _ hnot, List.erase_cons_head]
    obtain ⟨fs₂, hrun₂, hd₂⟩ := ih hd.heap hc₁
    refine ⟨fs₂, ?_, hd₂.heap, hd.others.trans hd₂.others, hd₂.clustersOf,
      hd₂.size.trans hd.size, hd₂.data.trans hd.data, hd₂.supply.trans hd.supply⟩
    rw [ramfsDropClusters, hrun, ok_bind, ← hd.others.privateOf f]
    exact hrun₂

end RamfsHeap

end Persistos
