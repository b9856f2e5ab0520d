import Persistos.RamfsInvariant

/-! Each call on a RAM file acts on its bytes as on the abstract ones, and on no
other file. -/

namespace Persistos

open Theory

def outOfMemory : Crash := .panic "Out of physical memory\n"

namespace RamfsHeap

variable {fs fs' : Ramfs} {files : List U64} {f : U64}

/-- One pass of the first loop, with `k` passes behind it. -/
theorem growPass (h : RamfsHeap fs files) (hf : f ∈ files) {k : Nat}
    (hk : k ≤ (fs.clustersOf f).length) :
    (∃ fs' new, ramfsGrowPass fs (fs.privateOf f) ((fs.clustersOf f).drop k) =
          .ok (fs', (fs'.clustersOf f).drop (k + 1)) ∧ Appended fs fs' files f new ∧
        new.length = k + 1 - (fs.clustersOf f).length) ∨
      ramfsGrowPass fs (fs.privateOf f) ((fs.clustersOf f).drop k) = .error outOfMemory ∧
        fs.supply.pages = [] ∧ (fs.clustersOf f).length ≤ k := by
  cases hnext : (fs.clustersOf f).drop k with
  | nil =>
    have hlen := List.drop_eq_nil_iff.mp hnext
    rw [ramfsGrowPass]
    cases ha : ramfsAppendCluster fs (fs.privateOf f) with
    | ok fs' =>
      obtain ⟨c, hc⟩ := h.appendCluster hf ha
      have hnil : (fs'.clustersOf f).drop (k + 1) = [] := by
        rw [hc.clustersOf]
        exact List.drop_eq_nil_iff.mpr (by simp; omega)
      refine Or.inl ⟨fs', [c], ?_, hc, ?_⟩
      · rw [hnil, ok_bind]
      · rw [List.length_singleton]
        omega
    | error e =>
      obtain ⟨hs, rfl⟩ := h.appendCluster_error ha
      exact Or.inr ⟨rfl, hs, hlen⟩
  | cons c next =>
    have hlen : k < (fs.clustersOf f).length := by
      have := congrArg List.length hnext
      simp at this
      omega
    have htail : (fs.clustersOf f).drop (k + 1) = next := by
      rw [← List.tail_drop, hnext, List.tail_cons]
    refine Or.inl ⟨fs, [], ?_, .refl h f, ?_⟩
    · rw [ramfsGrowPass, htail]
    · rw [List.length_nil]
      omega

/-- The first loop leaves at least `total` clusters, and stops there, unless
memory runs out. -/
theorem grow {size : U64} (hsize : size.toNat ≤ 2 ^ 64 - 128) (passes : Nat)
    (h : RamfsHeap fs files) (hf : f ∈ files) {k : Nat} {start : U64}
    (hk : k ≤ (fs.clustersOf f).length) (hstart : start.toNat = 128 * k)
    (hpasses : passes + k = size.toNat / 128 + 1) (hcont : k = 0 ∨ 128 * k < size.toNat) :
    (∃ fs' new, ramfsGrow (fs.privateOf f) size passes fs ((fs.clustersOf f).drop k) start =
          .ok (fs', (fs'.clustersOf f).drop (max (k + 1) ((size.toNat + 127) / 128))) ∧
        Appended fs fs' files f new ∧
        new.length = max (k + 1) ((size.toNat + 127) / 128) - (fs.clustersOf f).length) ∨
      ramfsGrow (fs.privateOf f) size passes fs ((fs.clustersOf f).drop k) start =
          .error outOfMemory ∧
        fs.supply.pages.length <
          max (k + 1) ((size.toNat + 127) / 128) - (fs.clustersOf f).length := by
  induction passes generalizing fs k start with
  | zero => omega
  | succ passes ih =>
    have hnext : (start + 128).toNat = 128 * (k + 1) := by bv_omega
    rw [ramfsGrow]
    rcases h.growPass hf hk with ⟨fs₁, new, hpass, happ, hlen⟩ | ⟨hpass, hnil, hlen⟩
    · rw [hpass, ok_bind]
      dsimp only
      have hcount : (fs₁.clustersOf f).length = (fs.clustersOf f).length + new.length := by
        rw [happ.clustersOf, List.length_append]
      split
      · next hlt =>
        rw [BitVec.lt_def, hnext] at hlt
        have htotal : max (k + 1) ((size.toNat + 127) / 128) =
            max (k + 1 + 1) ((size.toNat + 127) / 128) := by omega
        rw [htotal, ← happ.others.privateOf f]
        have hsupply := happ.supply
        rcases ih happ.heap (by omega) hnext (by omega) (Or.inr hlt) with
          ⟨fs₂, new₂, hrun, happ₂, hlen₂⟩ | ⟨hrun, hpages⟩
        · refine Or.inl ⟨fs₂, new ++ new₂, hrun, happ.trans happ₂, ?_⟩
          rw [List.length_append]
          omega
        · exact Or.inr ⟨hrun, by omega⟩
      · next hlt =>
        rw [BitVec.lt_def, hnext] at hlt
        have htotal : max (k + 1) ((size.toNat + 127) / 128) = k + 1 := by omega
        rw [htotal]
        exact Or.inl ⟨fs₁, new, rfl, happ, hlen⟩
    · rw [hpass, hnil, List.length_nil]
      exact Or.inr ⟨rfl, by omega⟩

theorem grow_all (h : RamfsHeap fs files) (hf : f ∈ files) {size : U64}
    (hsize : size.toNat ≤ 2 ^ 64 - 128) :
    (∃ fs' new, ramfsGrow (fs.privateOf f) size (size.toNat / 128 + 1) fs (fs.clustersOf f) 0 =
          .ok (fs', (fs'.clustersOf f).drop (Image.clustersFor size.toNat)) ∧
        Appended fs fs' files f new ∧
        new.length = Image.clustersFor size.toNat - (fs.clustersOf f).length) ∨
      ramfsGrow (fs.privateOf f) size (size.toNat / 128 + 1) fs (fs.clustersOf f) 0 =
          .error outOfMemory ∧
        fs.supply.pages.length < Image.clustersFor size.toNat - (fs.clustersOf f).length :=
  h.grow hsize (size.toNat / 128 + 1) hf (k := 0) (Nat.zero_le _) rfl rfl (Or.inl rfl)

/-- No pass reaches a size behind the last multiple of 128. -/
theorem grow_endless {size r : U64} (hsize : 2 ^ 64 - 128 < size.toNat) (passes : Nat)
    (fs : Ramfs) (next : List U64) {start : U64} (hstart : start.toNat % 128 = 0)
    (result : Ramfs × List U64) : ramfsGrow r size passes fs next start ≠ .ok result := by
  induction passes generalizing fs next start with
  | zero => nofun
  | succ passes ih =>
    have hlt : start + 128 < size := by bv_omega
    intro h
    obtain ⟨⟨fs', next'⟩, -, hrun⟩ := bind_eq_ok h
    dsimp only at hrun
    rw [if_pos hlt] at hrun
    exact ih fs' next' (by bv_omega) hrun

theorem Appended.clusterBytes_take {new : List U64} (h : Appended fs fs' files f new) (k : Nat) :
    clusterBytes fs'.ramfsClusters.objects ((fs'.clustersOf f).take k) =
      fun i => if i < 128 * k then
        clusterBytes fs.ramfsClusters.objects (fs.clustersOf f) i else 0 := by
  have hold : (fs.clustersOf f).map fs'.ramfsClusters.objects =
      (fs.clustersOf f).map fs.ramfsClusters.objects := List.map_congr_left h.data
  have hnew : new.map fs'.ramfsClusters.objects = List.replicate new.length clearedCluster :=
    List.map_eq_replicate_iff.mpr h.cleared
  funext i
  rw [clusterBytes, List.map_take, joinBlocks_take, h.clustersOf, List.map_append, hold, hnew]
  exact if_congr Iff.rfl (congrFun (joinBlocks_replicate _ _) i) rfl

end RamfsHeap

structure FileCall (fs fs' : Ramfs) (files : List U64) (f : U64) (image : Image) : Prop where
  inv : RamfsInv fs' files
  others : OnlyChanged fs fs' files f
  image : fs'.image f = image

theorem FileCall.trans {fs fs' fs'' : Ramfs} {files : List U64} {f : U64} {image image' : Image}
    (h : FileCall fs fs' files f image) (h' : FileCall fs' fs'' files f image') :
    FileCall fs fs'' files f image' :=
  ⟨h'.inv, h.others.trans h'.others, h'.image⟩

theorem Sized.clustersFor {size : U64} (h : size.toNat ≤ 2 ^ 64 - 128) :
    Sized (Image.clustersFor size.toNat) size where
  covered := by
    rw [Image.clustersFor]
    omega
  count_le := Nat.le_refl _
  size_le := h

namespace RamfsInv

variable {fs fs' : Ramfs} {files : List U64} {filp : File}

theorem sized_of_onlyChanged (h : RamfsInv fs files) {f : U64} (ho : OnlyChanged fs fs' files f)
    (hf : Sized (fs'.clustersOf f).length (fs'.ramfsInodeOf f).size) :
    ∀ g ∈ files, Sized (fs'.clustersOf g).length (fs'.ramfsInodeOf g).size := by
  intro g hg
  by_cases hne : g = f
  · exact hne ▸ hf
  · rw [ho.clustersOf hg hne, ho.ramfsInodeOf g hg hne]
    exact h.sized g hg

theorem assignSize (h : RamfsHeap fs files) (hf : filp.inode ∈ files) (size : U64)
    (hfs : fs' = { fs with
      ramfsInodes := fs.ramfsInodes.modify (fs.privateOf filp.inode) fun r => { r with size } }) :
    RamfsHeap fs' files ∧ OnlyChanged fs fs' files filp.inode ∧
      fs'.ramfsInodeOf filp.inode = ⟨fs.clustersOf filp.inode, size⟩ := by
  have hrecords : fs'.ramfsInodes =
      fs.ramfsInodes.modify (fs.privateOf filp.inode) fun r => { r with size } := hfs ▸ rfl
  have hinodes : fs'.inodes = fs.inodes := hfs ▸ rfl
  have hslab : fs'.ramfsClusters = fs.ramfsClusters := hfs ▸ rfl
  have hsupply : fs'.supply = fs.supply := hfs ▸ rfl
  obtain ⟨hself, hother⟩ := h.ramfsInodeOf_modify hf hinodes hrecords
  have hothers : OnlyChanged fs fs' files filp.inode :=
    ⟨hinodes, hother, fun _ _ _ c _ => by rw [hslab]⟩
  have hflat : files.flatMap fs'.clustersOf = files.flatMap fs.clustersOf := by
    apply List.flatMap_congr
    intro g hg
    by_cases hne : g = filp.inode
    · subst hne
      rw [Ramfs.clustersOf, hself]
      rfl
    · exact hothers.clustersOf hg hne
  refine ⟨?_, hothers, hself⟩
  refine h.of_onlyChanged hothers (hsupply ▸ List.Subset.refl _) (hfs ▸ rfl) hf hrecords ?_
  rw [hflat, hslab, hsupply]
  exact h.ramfsClusters

/-- The second loop and the assignment, once the first loop is through. -/
theorem setSize_of_grow {fs₁ : Ramfs} (h : RamfsInv fs files) (hf : filp.inode ∈ files)
    {size : U64} (hsize : size.toNat ≤ 2 ^ 64 - 128) {new : List U64}
    (hrun : ramfsGrow (fs.privateOf filp.inode) size (size.toNat / 128 + 1) fs
      (fs.ramfsInodeOf filp.inode).ramfsClusters 0 =
        .ok (fs₁, (fs₁.clustersOf filp.inode).drop (Image.clustersFor size.toNat)))
    (happ : RamfsHeap.Appended fs fs₁ files filp.inode new)
    (hlen : new.length = Image.clustersFor size.toNat - (fs.clustersOf filp.inode).length) :
    ∃ fs', ramfsSetSize fs filp size = .ok (0, fs') ∧
      FileCall fs fs' files filp.inode ((fs.image filp.inode).setSize size.toNat) ∧
      fs'.ramfsInodeOf filp.inode =
        ⟨(fs.clustersOf filp.inode ++ new).take (Image.clustersFor size.toNat), size⟩ := by
  have hcount : Image.clustersFor size.toNat ≤ (fs₁.clustersOf filp.inode).length := by
    rw [happ.clustersOf, List.length_append]
    omega
  obtain ⟨fs₂, hdrop, hd⟩ := happ.heap.dropClusters hf
    (List.take_append_drop (Image.clustersFor size.toNat) (fs₁.clustersOf filp.inode)).symm
  have hprivate := happ.others.privateOf filp.inode
  obtain ⟨hheap, hothers, hself⟩ := assignSize hd.heap hf size rfl
  have hall := happ.others.trans (hd.others.trans hothers)
  rw [hd.clustersOf] at hself
  refine ⟨_, ?_, ⟨⟨hheap, ?_⟩, hall, ?_⟩, happ.clustersOf ▸ hself⟩
  · rw [ramfsSetSize]
    dsimp only
    rw [hrun, ok_bind]
    dsimp only
    rw [← hprivate, hdrop, ok_bind, hd.others.privateOf]
  · apply h.sized_of_onlyChanged hall
    rw [Ramfs.clustersOf, hself]
    dsimp only
    rw [List.length_take_of_le hcount]
    exact Sized.clustersFor hsize
  · rw [Ramfs.image, Ramfs.clustersOf, hself]
    dsimp only
    rw [hd.data, happ.clusterBytes_take]
    rfl

theorem setSize (h : RamfsInv fs files) (hf : filp.inode ∈ files) {size : U64}
    (hsize : size.toNat ≤ 2 ^ 64 - 128) :
    (∃ fs', ramfsSetSize fs filp size = .ok (0, fs') ∧
        FileCall fs fs' files filp.inode ((fs.image filp.inode).setSize size.toNat) ∧
        (fs'.ramfsInodeOf filp.inode).size = size) ∨
      ramfsSetSize fs filp size = .error outOfMemory ∧
        fs.supply.pages.length <
          Image.clustersFor size.toNat - (fs.clustersOf filp.inode).length := by
  rcases h.toRamfsHeap.grow_all hf hsize with ⟨fs₁, new, hrun, happ, hlen⟩ | ⟨hrun, hpages⟩
  · obtain ⟨fs', hset, hcall, hself⟩ := h.setSize_of_grow hf hsize hrun happ hlen
    exact Or.inl ⟨fs', hset, hcall, congrArg RamfsInode.size hself⟩
  · refine Or.inr ⟨?_, hpages⟩
    rw [ramfsSetSize]
    dsimp only
    rw [Ramfs.clustersOf] at hrun
    rw [hrun, error_bind]

theorem setSize_ne_ok {size : U64} (hsize : 2 ^ 64 - 128 < size.toNat) (fs : Ramfs) (filp : File)
    (result : U64 × Ramfs) : ramfsSetSize fs filp size ≠ .ok result := by
  intro h
  obtain ⟨grown, hgrow, -⟩ := bind_eq_ok h
  exact RamfsHeap.grow_endless hsize _ _ _ rfl _ hgrow

theorem setSize_ok (h : RamfsInv fs files) (hf : filp.inode ∈ files) {size n : U64}
    (hs : ramfsSetSize fs filp size = .ok (n, fs')) :
    FileCall fs fs' files filp.inode ((fs.image filp.inode).setSize size.toNat) := by
  by_cases hsize : size.toNat ≤ 2 ^ 64 - 128
  · rcases h.setSize hf hsize with ⟨fs₁, hrun, hcall, -⟩ | ⟨hrun, -⟩
    · rw [hrun] at hs
      cases hs
      exact hcall
    · rw [hrun] at hs
      cases hs
  · exact absurd hs (setSize_ne_ok (Nat.lt_of_not_le hsize) fs filp _)

/-- The file is long enough for the write, or memory ran out. -/
theorem makeRoom (h : RamfsInv fs files) (hf : filp.inode ∈ files) {stop : U64}
    (hstop : stop.toNat ≤ 2 ^ 64 - 128) :
    (∃ fs', ramfsMakeRoom fs filp stop = .ok fs' ∧
        FileCall fs fs' files filp.inode
          (if (fs.image filp.inode).size < stop.toNat then
            (fs.image filp.inode).setSize stop.toNat else fs.image filp.inode) ∧
        stop.toNat ≤ (fs'.image filp.inode).size) ∨
      ramfsMakeRoom fs filp stop = .error outOfMemory ∧
        fs.supply.pages.length <
          Image.clustersFor stop.toNat - (fs.clustersOf filp.inode).length := by
  rw [ramfsMakeRoom]
  by_cases hlt : (fs.image filp.inode).size < stop.toNat
  · rw [if_pos (show stop > _ from hlt), if_pos hlt]
    rcases h.setSize hf hstop with ⟨fs', hrun, hcall, hsize⟩ | ⟨hrun, hpages⟩
    · rw [hrun, ok_bind]
      exact Or.inl ⟨fs', rfl, hcall, Nat.le_of_eq (congrArg BitVec.toNat hsize.symm)⟩
    · rw [hrun, error_bind]
      exact Or.inr ⟨rfl, hpages⟩
  · rw [if_neg (show ¬ stop > _ from hlt), if_neg hlt]
    exact Or.inl ⟨fs, rfl, ⟨h, .refl fs files _, rfl⟩, Nat.le_of_not_lt hlt⟩

theorem makeRoom_ne_ok (h : RamfsInv fs files) (hf : filp.inode ∈ files) {stop : U64}
    (hstop : 2 ^ 64 - 128 < stop.toNat) : ramfsMakeRoom fs filp stop ≠ .ok fs' := by
  have hsize := (h.sized filp.inode hf).size_le
  have hlt : stop > (fs.ramfsInodeOf filp.inode).size := by bv_omega
  rw [ramfsMakeRoom, if_pos hlt]
  intro hok
  obtain ⟨result, hrun, -⟩ := bind_eq_ok hok
  exact setSize_ne_ok hstop fs filp result hrun

theorem storeClusters (h : RamfsInv fs files) {f : U64} (hf : f ∈ files) {slab : Slab (Nat → U8)}
    (halloc : slab.allocator = fs.ramfsClusters.allocator)
    (hframe : ∀ y, y ∉ fs.clustersOf f → slab.objects y = fs.ramfsClusters.objects y)
    (hfs : fs' = { fs with ramfsClusters := slab }) :
    RamfsInv fs' files ∧ OnlyChanged fs fs' files f := by
  subst hfs
  have hok := h.ramfsClusters
  refine ⟨⟨⟨h.inodes, h.dentries, h.ramfsInodes, h.unused, ?_, h.regular⟩, h.sized⟩,
    rfl, fun _ _ _ => rfl, ?_⟩
  · exact ⟨halloc ▸ hok.inv, halloc ▸ hok.fresh⟩
  · intro g hg hne c hc
    exact hframe c fun hm => h.clustersOf_disjoint hf hg hne hm hc

theorem write_of_room {fs₁ : Ramfs} (h : RamfsInv fs₁ files) (hf : filp.inode ∈ files)
    (buffer : Nat → U8) (length : U64) {stop : U64} (hle : filp.offset.toNat ≤ stop.toNat)
    (hlen : stop.toNat ≤ filp.offset.toNat + length.toNat)
    (hroom : stop.toNat ≤ (fs₁.image filp.inode).size) :
    ∃ slab, ramfsWriteClusters buffer length filp.offset stop (fs₁.clustersOf filp.inode) 0
        fs₁.ramfsClusters = .ok slab ∧
      FileCall fs₁ { fs₁ with ramfsClusters := slab } files filp.inode
        { fs₁.image filp.inode with
          bytes := overlay (fs₁.image filp.inode).bytes filp.offset.toNat
            (stop.toNat - filp.offset.toNat) buffer } := by
  have hsized := h.sized filp.inode hf
  have hsize : stop.toNat ≤ (fs₁.ramfsInodeOf filp.inode).size.toNat := hroom
  have hstart : ClusterStart 0 stop := ⟨rfl, Nat.le_trans hsize hsized.size_le⟩
  obtain ⟨slab, hrun, halloc, hframe, hbytes⟩ := ramfsWriteClusters_ok buffer hle hlen
    (h.clustersOf_nodup hf) hstart
    (by have := hsized.covered; change _ ≤ 0 + _; omega) fs₁.ramfsClusters
  obtain ⟨hinv, hothers⟩ := h.storeClusters hf halloc hframe rfl
  refine ⟨slab, hrun, hinv, hothers, ?_⟩
  have hov : clusterBytes slab.objects (fs₁.clustersOf filp.inode) =
      overlay (fs₁.image filp.inode).bytes filp.offset.toNat
        (stop.toNat - filp.offset.toNat) buffer := by
    funext i
    have hi := hbytes i
    rw [show BitVec.toNat (0 : U64) = 0 from rfl, Nat.zero_add] at hi
    rw [hi, overlay]
    exact if_congr (by omega) rfl rfl
  exact congrArg (fun bytes => Image.mk bytes (fs₁.image filp.inode).size) hov

/-- A write that returns acts on the bytes as the abstract one does. -/
theorem write_ok (h : RamfsInv fs files) (hf : filp.inode ∈ files) {buffer : Nat → U8}
    {length n : U64} (hw : ramfsWrite fs filp buffer length = .ok (n, fs')) :
    n = length ∧
      FileCall fs fs' files filp.inode ((fs.image filp.inode).write filp.offset buffer length) := by
  rw [ramfsWrite] at hw
  split at hw
  · next hz =>
    cases hw
    rw [Image.write, if_pos hz]
    exact ⟨hz.symm, h, .refl fs files _, rfl⟩
  · next hz =>
    obtain ⟨fs₁, hroom, hw⟩ := bind_eq_ok hw
    obtain ⟨slab, hloop, he⟩ := bind_eq_ok hw
    cases he
    rw [Image.write, if_neg hz]
    dsimp only
    by_cases hstop : (filp.offset + length).toNat ≤ 2 ^ 64 - 128
    · rcases h.makeRoom hf hstop with ⟨fs₂, hroom', hcall, hsize⟩ | ⟨hroom', -⟩
      · obtain rfl := Except.ok.inj (hroom'.symm.trans hroom)
        refine ⟨rfl, ?_⟩
        by_cases hle : filp.offset.toNat ≤ (filp.offset + length).toNat
        · obtain ⟨slab', hloop', hwritten⟩ := hcall.inv.write_of_room hf buffer length
            hle (by bv_omega) hsize
          obtain rfl := Except.ok.inj (hloop'.symm.trans hloop)
          rw [← hcall.image]
          exact hcall.trans hwritten
        · have hz' : (filp.offset + length).toNat - filp.offset.toNat = 0 := by omega
          have hstart : ClusterStart 0 (filp.offset + length) := ⟨rfl, hstop⟩
          obtain rfl :=
            ramfsWriteClusters_reversed_ok buffer (Nat.lt_of_not_le hle) hstart hloop
          rw [hz', overlay_zero]
          exact hcall
      · rw [hroom'] at hroom
        cases hroom
    · exact absurd hroom (h.makeRoom_ne_ok hf (Nat.lt_of_not_le hstop))

theorem write_total (h : RamfsInv fs files) (hf : filp.inode ∈ files) (buffer : Nat → U8)
    (length : U64) (hstop : filp.offset.toNat + length.toNat ≤ 2 ^ 64 - 128) :
    (∃ fs', ramfsWrite fs filp buffer length = .ok (length, fs')) ∨
      ramfsWrite fs filp buffer length = .error outOfMemory ∧
        fs.supply.pages.length <
          Image.clustersFor (filp.offset.toNat + length.toNat) -
            (fs.clustersOf filp.inode).length := by
  have hadd : (filp.offset + length).toNat = filp.offset.toNat + length.toNat := by bv_omega
  rw [ramfsWrite]
  split
  · next hz => exact Or.inl ⟨fs, by rw [hz]⟩
  · rw [← hadd] at hstop ⊢
    dsimp only
    rcases h.makeRoom hf hstop with ⟨fs₁, hroom, hcall, hsize⟩ | ⟨hroom, hpages⟩
    · obtain ⟨slab, hloop, -⟩ := hcall.inv.write_of_room hf buffer length
        (show filp.offset.toNat ≤ (filp.offset + length).toNat by omega) (by omega) hsize
      rw [Ramfs.clustersOf] at hloop
      rw [hroom, ok_bind, hloop]
      exact Or.inl ⟨_, rfl⟩
    · rw [hroom]
      exact Or.inr ⟨rfl, hpages⟩

theorem read_eq (h : RamfsInv fs files) (hf : filp.inode ∈ files) (buffer : Nat → U8)
    (length : U64) :
    ramfsRead fs filp buffer length = (do
      let (n, buffer) ← (fs.image filp.inode).read filp.offset buffer length
      .ok ⟨n, filp.advance n, buffer, fs⟩) := by
  have hsized := h.sized filp.inode hf
  have hsize : (fs.image filp.inode).size = (fs.ramfsInodeOf filp.inode).size.toNat := rfl
  have hz : BitVec.toNat (0 : U64) = 0 := rfl
  have hzero : filp.advance 0 = filp := congrArg (File.mk filp.inode) (BitVec.add_zero _)
  rw [ramfsRead, Image.read]
  dsimp only
  generalize hend : (if filp.offset + length < (fs.ramfsInodeOf filp.inode).size then
    filp.offset + length else (fs.ramfsInodeOf filp.inode).size) = readEnd
  have hmin : min (filp.offset + length).toNat (fs.image filp.inode).size = readEnd.toNat := by
    rw [hsize, ← hend]
    split <;> bv_omega
  have hstart : ClusterStart 0 readEnd := ⟨rfl, by have := hsized.size_le; omega⟩
  have hcover : readEnd.toNat ≤ BitVec.toNat (0 : U64) +
      128 * (fs.ramfsInodeOf filp.inode).ramfsClusters.length := by
    have hc := hsized.covered
    change _ ≤ 0 + 128 * (fs.clustersOf filp.inode).length
    omega
  rw [hmin]
  by_cases heq : readEnd = filp.offset
  · rw [if_pos heq, if_pos (Nat.le_of_eq (congrArg BitVec.toNat heq.symm)), heq, Nat.sub_self,
      overlay_zero]
    exact congrArg (fun filp => Except.ok (ReadResult.mk 0 filp buffer fs)) hzero.symm
  rw [if_neg heq]
  by_cases hle : filp.offset.toNat ≤ readEnd.toNat
  · have hnone : BitVec.toNat (0 : U64) =
        min (max filp.offset.toNat (BitVec.toNat (0 : U64))) readEnd.toNat - filp.offset.toNat := by
      rw [hz]
      omega
    rw [ramfsReadClusters_ok hle (by bv_omega) _ hstart hcover hnone, if_pos hle]
    have hnum : readEnd - filp.offset = BitVec.ofNat 64 (readEnd.toNat - filp.offset.toNat) := by
      bv_omega
    rw [hnum, ok_bind, ok_bind]
    dsimp only
    congr 2
    funext i
    rw [hz, overlay, Nat.zero_add, Nat.sub_zero]
    rfl
  · rw [if_neg hle]
    by_cases hin : filp.offset.toNat < (readEnd.toNat + 127) / 128 * 128
    · have hpos : BitVec.toNat (0 : U64) < readEnd.toNat := by
        rw [hz]
        omega
      rw [ramfsReadClusters_inside (Nat.lt_of_not_le hle) _ hstart hpos hcover hin, if_pos hin]
    · rw [ramfsReadClusters_behind _ hstart (by intro k hk; omega), if_neg hin]

theorem read_ok (h : RamfsInv fs files) (hf : filp.inode ∈ files) {buffer : Nat → U8}
    {length : U64} {r : ReadResult Ramfs} (hr : ramfsRead fs filp buffer length = .ok r) :
    (fs.image filp.inode).read filp.offset buffer length = .ok (r.bytesRead, r.buffer) ∧
      r.state = fs := by
  rw [h.read_eq hf] at hr
  obtain ⟨result, hread, he⟩ := bind_eq_ok hr
  cases he
  exact ⟨hread, rfl⟩

end RamfsInv

end Persistos
