import Persistos.TarExtract
import Persistos.UserFiles

/-! Files with given contents in the root directory of a tree in RAM. -/

namespace Persistos

open Theory

namespace FsKernel

variable {k k' : FsKernel} {ramFiles : List U64} {w : List U8} {j : U64}

/-- A tree with its root in RAM, and all of its files there. -/
structure RamRoot (k : FsKernel) (ramFiles : List U64) : Prop
    extends RootTree k ramFiles, RamKernel k ramFiles

theorem RamRoot.vfsCreate (h : k.RamRoot ramFiles) (hn : k.locate [w] = none) (hw : cString w = w)
    (hc : k.vfsCreate k.vfsRootInode w = .ok (j, k')) :
    k'.RamRoot (ramFiles ++ [j]) ∧ PathAdded k k' [w] j ∧
      (∀ g ∈ ramFiles, k'.fs.image g = k.fs.image g) ∧ k'.fs.ramfsInodeOf j = ⟨[], 0⟩ := by
  have hplace := h.rootPlace
  have hmounted := hplace.mounted
  have hroot := h.toInv.locate_known hplace.leads
  obtain ⟨hmade, hz, hregular, htype, hempty⟩ := hplace.create_made h.toInv h.toRootTree.ram hn hw hc
  obtain ⟨dir, fs, hramfs, hk'⟩ := h.toInv.toSlabs.vfsCreate_ramfs hroot hplace.onRamfs hc
  obtain ⟨-, -, -, -, hkept, -⟩ := h.toRootTree.ram.create hmounted hramfs
  have hclusters : k'.fs.ramfsClusters = k.fs.ramfsClusters := by
    rw [hk']
    exact hkept.ramfsClusters
  have hrootInode : k'.vfsRootInode = k.vfsRootInode := by rw [hmade.same]
  refine ⟨⟨⟨hmade.inv, hmade.ram, ?_⟩, ?_, ?_⟩, hmade.toPathAdded, hmade.images, hempty⟩
  · rw [hrootInode]
    exact hplace.of_pathAdded hmade.toPathAdded h.toInv
  · intro g hg
    rcases List.mem_append.mp hg with hg | hg
    · have hknown : k.Known g := by
        obtain ⟨dirs, hok⟩ := h.toRootTree.ram.inodes
        exact .inl (hok.inv.allocatedSlots_perm.mem_iff.mpr (List.mem_append_left dirs hg))
      exact (hmade.toPathAdded.typeOf hknown).trans (h.onRamfs g hg)
    · rw [List.mem_singleton.mp hg]
      exact htype
  · rw [hclusters]
    exact h.clusterSize

theorem RamRoot.write (h : k.RamRoot ramFiles) {filp : File} (hf : filp.inode ∈ ramFiles)
    {buffer : Nat → U8} {length n : U64} {fs : Ramfs}
    (hw : ramfsWrite k.fs filp buffer length = .ok (n, fs)) : { k with fs }.RamRoot ramFiles := by
  obtain ⟨hkernel, hkept, -⟩ := h.toRamKernel.write hf hw
  exact ⟨⟨h.toInv.of_recordStep (.write hw), hkernel.ram, h.rootPlace.kept hkept⟩, hkernel.onRamfs,
    hkernel.clusterSize⟩

/-- A new file that is filled with this content. -/
theorem RamRoot.fill {content : List U8} (h : k.RamRoot ramFiles) (hn : k.locate [w] = none)
    (hw : cString w = w) (hsize : content.length < 2 ^ 33)
    (hc : k.vfsCreate k.vfsRootInode w = .ok (j, k')) {n : U64} {fs : Ramfs}
    (hwrite : ramfsWrite k'.fs ⟨j, 0⟩ (content.getD · 0) (BitVec.ofNat 64 content.length) =
      .ok (n, fs)) :
    RamRoot { k' with fs } (ramFiles ++ [j]) ∧ PathAdded k { k' with fs } [w] j ∧
      (∀ g ∈ ramFiles, fs.image g = k.fs.image g) ∧ (fs.image j).content = content := by
  obtain ⟨h', hadded, himages, hempty⟩ := h.vfsCreate hn hw hc
  have hfile : (File.mk j 0).inode ∈ ramFiles ++ [j] :=
    List.mem_append_right _ (List.mem_singleton_self j)
  obtain ⟨-, -, -, hself, hothers⟩ := h'.toRamKernel.write hfile hwrite
  have hzero : (k'.fs.image j).size = 0 := by
    rw [Ramfs.image, hempty]
    rfl
  have hcount : (BitVec.ofNat 64 content.length).toNat = content.length := by
    rw [BitVec.toNat_ofNat]
    omega
  refine ⟨h'.write hfile hwrite, hadded.of_recordStep (.write hwrite), ?_, ?_⟩
  · intro g hg
    have hne : g ≠ j := by
      rintro rfl
      exact (List.nodup_append.mp h'.toRootTree.ram.files_nodup).2.2 g hg g
        (List.mem_singleton_self g) rfl
    exact (hothers g (List.mem_append_left _ hg) hne).trans (himages g hg)
  · have hself : fs.image j = (k'.fs.image j).write 0 (content.getD · 0) _ := hself
    rw [hself, Image.content_new hzero, hcount]
    exact slice_getD_self content 0

/-- A new file with this content, where there are pages for it. -/
theorem RamRoot.exists_file (content : List U8) (left : Nat) (h : k.RamRoot ramFiles)
    (hn : k.locate [w] = none) (hw : cString w = w) (hlength : w.length ≤ dentryMaxNameLength)
    (hsize : content.length < 2 ^ 33)
    (hpages : left + ((content.length + 127) / 128 + 3) ≤ k.freePages) :
    ∃ k' j, k'.RamRoot (ramFiles ++ [j]) ∧ PathAdded k k' [w] j ∧
      (∀ g ∈ ramFiles, k'.fs.image g = k.fs.image g) ∧ (k'.fs.image j).content = content ∧
      left ≤ k'.freePages := by
  have hroot := h.toInv.locate_known h.rootPlace.leads
  have hname : (cString w).length ≤ dentryMaxNameLength := hw.symm ▸ hlength
  obtain ⟨⟨j, k₁⟩, hc, hleft⟩ := (h.toInv.toSlabs.vfsCreate_affords
    (ramfsRecords_of_inv h.toRootTree.ram) hroot h.rootPlace.onRamfs hname).returns
    (n := left + (content.length + 127) / 128) (by omega)
  obtain ⟨h₁, -, -, hempty⟩ := h.vfsCreate hn hw hc
  have hj : j ∈ ramFiles ++ [j] := List.mem_append_right _ (List.mem_singleton_self j)
  obtain ⟨⟨n, fs⟩, hwrite, hleft⟩ := (h₁.toRootTree.ram.write_new_affords hj hempty
    (content.getD · 0) hsize).returns (n := left) hleft
  obtain ⟨hroot', hadded, himages, hcontent⟩ := h.fill hn hw hsize hc hwrite
  exact ⟨{ k₁ with fs }, j, hroot', hadded, himages, hcontent, hleft⟩

/-- The paths of two files that are made one after the other. -/
theorem paths_of_added {k'' : FsKernel} {f g : U64} {v : List U8} (hadded : PathAdded k k' [v] f)
    (hadded' : PathAdded k' k'' [w] g) (hv : components slash (cString v) = [v])
    (hw : components slash (cString w) = [w]) (hvend : endsIn slash (cString v) = false)
    (hwend : endsIn slash (cString w) = false) : k''.PathOf v f ∧ k''.PathOf w g := by
  constructor
  · exact .of_locate ((hadded'.locate _ f).mpr (.inl ((hadded.locate _ f).mpr (.inr ⟨rfl, rfl⟩))))
      (hadded'.still _ hadded.stillNew) hv hvend
  · exact .of_locate ((hadded'.locate _ g).mpr (.inr ⟨rfl, rfl⟩)) hadded'.stillNew hw hwend

theorem locate_none_of_added {v : List U8} (hadded : PathAdded k k' [v] j)
    (hn : k.locate [w] = none) (hne : w ≠ v) : k'.locate [w] = none := by
  refine Option.eq_none_iff_forall_ne_some.mpr fun y hy => ?_
  rcases (hadded.locate _ y).mp hy with hy | ⟨hname, -⟩
  · rw [hn] at hy
    cases hy
  · exact hne (List.singleton_inj.mp hname)

end FsKernel

open FsKernel

theorem TreeBoot.ramRoot (b : TreeBoot) : b.kernel.RamRoot [] :=
  ⟨b.rootTree, fun _ hf => absurd hf List.not_mem_nil, rfl⟩

/-- `n` pages in the kernel's half of the memory. -/
def pagesUpTo (n : Nat) : List U64 :=
  (List.range n).map fun i : Nat => 0xFFFF800000100000 + BitVec.ofNat 64 (4096 * i)

theorem mem_pagesUpTo {n : Nat} (hn : n ≤ 2 ^ 20) {p : U64} (hp : p ∈ pagesUpTo n) :
    ∃ i < n, p.toNat = 0xFFFF800000100000 + 4096 * i := by
  obtain ⟨i, hi, rfl⟩ := List.mem_map.mp hp
  have hlt := List.mem_range.mp hi
  exact ⟨i, hlt, by bv_omega⟩

def supplyOf (n : Nat) (hn : n ≤ 2 ^ 20) : PageSupply where
  pages := pagesUpTo n
  aligned p hp := by
    obtain ⟨i, -, hi⟩ := mem_pagesUpTo hn hp
    rw [PageAligned, hi]
    omega
  nodup := by
    refine List.Nodup.map_on (fun i hi j hj he => ?_) List.nodup_range
    have hi := List.mem_range.mp hi
    have hj := List.mem_range.mp hj
    bv_omega

/-- `bareBoot` with so many pages. -/
def bootOf (n : Nat) (hn : n ≤ 2 ^ 20) : TreeBoot :=
  bootWith (supplyOf n hn)
    (fun p hp => by
      obtain ⟨i, -, hi⟩ := mem_pagesUpTo hn hp
      rw [hi, userEnd]
      omega)
    (fun hp => by
      obtain ⟨i, -, hi⟩ := mem_pagesUpTo hn hp
      have hroot : (rootAddress &&& pageAddressMask).toNat < 0xFFFF800000100000 := by decide
      omega)

def wideBoot : TreeBoot := bootOf 100 (by decide)

/-- The files `a` and `b` in the root. -/
theorem exists_two_files {a b : List U8} (ha : a.length ≤ 4200) (hb : b.length ≤ 4200) :
    ∃ k f g, FsKernel.RamRoot k [f, g] ∧ k.PathOf [0x61] f ∧ k.PathOf [0x62] g ∧
      (k.fs.image f).content = a ∧ (k.fs.image g).content = b ∧ 10 ≤ k.freePages := by
  have hpages : wideBoot.kernel.freePages = 100 := by
    change (pagesUpTo 100).length = 100
    simp [pagesUpTo]
  have hempty : ∀ w ws, wideBoot.kernel.locate (w :: ws) = none := fun _ _ => rfl
  obtain ⟨k₁, f, h₁, hadded₁, -, hf, hleft₁⟩ := wideBoot.ramRoot.exists_file a 50
    (hempty [0x61] _) (by decide) (by decide) (by omega) (by omega)
  have hnone := locate_none_of_added hadded₁ (hempty [0x62] []) (by decide)
  obtain ⟨k₂, g, h₂, hadded₂, himages, hg, hleft₂⟩ := h₁.exists_file b 10 hnone
    (by decide) (by decide) (by omega) (by omega)
  obtain ⟨hpath, hpath'⟩ :=
    paths_of_added hadded₁ hadded₂ (by decide) (by decide) (by decide) (by decide)
  refine ⟨k₂, f, g, h₂, hpath, hpath', ?_, hg, hleft₂⟩
  rw [himages f (List.mem_singleton_self f), hf]

/-- A task of which nothing matters but its files. -/
def plainTask : UserTask where
  address := 0
  fops _ := devzeroFops
  sysfs := ⟨1, 2, 3, [], [], 0, 0⟩
  fuel := 0
  lookupResult := noResult
  stack _ := 0

def startOf (k : FsKernel) : Process := ⟨⟨k, fun _ => []⟩, [], []⟩

/-- The process whose standard output is the file at `g`. -/
def withOutput (k : FsKernel) (address g : U64) : Process :=
  ⟨⟨k, fun _ => [⟨address, 1, g, 0⟩]⟩, [], []⟩

theorem at_withOutput (k : FsKernel) (address g : U64) :
    plainTask.At (withOutput k address g).tables 1 g 0 := ⟨⟨address, 1, g, 0⟩, rfl, rfl, rfl⟩

theorem room_withOutput (k : FsKernel) (address g : U64) :
    plainTask.Room (withOutput k address g).tables 1 :=
  List.forall_mem_singleton.mpr (by decide : (1 : U32).toNat + 1 < 2 ^ 32)

end Persistos
