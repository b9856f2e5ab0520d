import Persistos.RamFiles
import Persistos.RamfsRuns
import Persistos.TarEntries

/-! The extraction of an archive. Every entry becomes an object at its path, with its
content, and the tree that was there stays. -/

namespace Persistos

open Theory

theorem Image.content_new {image : Image} (h : image.size = 0) (buffer : Nat → U8) {size : U64} :
    (image.write 0 buffer size).content = slice buffer 0 size.toNat := by
  have hzero : (0 : U64).toNat = 0 := rfl
  have hnil : image.content = [] := by
    rw [Image.content, h]
    rfl
  rw [Image.content_write buffer (by rw [hzero]; exact Nat.zero_le _) (by rw [hzero]; omega), hnil,
    List.take_nil, List.drop_nil, List.nil_append, List.append_nil]

/-- What is written to a new file takes a page for each of its clusters at most. -/
theorem RamfsInv.write_new_affords {fs : Ramfs} {files : List U64} (h : RamfsInv fs files) {j : U64}
    (hj : j ∈ files) (hempty : fs.ramfsInodeOf j = ⟨[], 0⟩) (data : Nat → U8) {n : Nat}
    (hn : n < 2 ^ 33) :
    Affords (ramfsWrite fs ⟨j, 0⟩ data (BitVec.ofNat 64 n)) outOfMemory fs.supply.pages.length
      (fun r => r.2.supply.pages.length) ((n + 127) / 128) := by
  have hsize : (BitVec.ofNat 64 n).toNat = n := by
    rw [BitVec.toNat_ofNat]
    omega
  have hoffset : (0 : U64).toNat = 0 := rfl
  rcases Nat.eq_zero_or_pos n with rfl | hpos
  · exact .ok rfl (Nat.le_refl _)
  · have hstop : (0 : U64).toNat + (BitVec.ofNat 64 n).toNat ≤ 2 ^ 64 - 128 := by
      rw [hoffset, hsize]
      omega
    have hfile : (File.mk j 0).inode ∈ files := hj
    refine (h.write_affords hfile data hstop).mono ?_
    dsimp only
    rw [hoffset, hsize, Nat.zero_add, Image.clustersFor]
    omega

namespace TarEntry

/-- The pages that an entry needs at most. -/
def cost (e : TarEntry) : Nat :=
  if e.typeflag = 0x35 then 2 else (e.content.length + 127) / 128 + 3

theorem zero_not_mem_trimSlash (e : TarEntry) : 0 ∉ trimSlash e.name := by
  rw [trimSlash]
  split
  · exact fun hh => e.name_nonzero (List.dropLast_subset _ hh)
  · exact e.name_nonzero

theorem cString_trimSlash (e : TarEntry) : cString (trimSlash e.name) = trimSlash e.name :=
  cString_of_notMem e.zero_not_mem_trimSlash

theorem components_trimSlash (e : TarEntry) :
    components slash (cString (trimSlash e.name)) = e.path := by
  rw [e.cString_trimSlash, Persistos.components_trimSlash]
  rfl

/-- The name does not end in two slashes. -/
def Single (e : TarEntry) : Prop := endsIn slash (trimSlash e.name) = false

theorem Single.endsIn {e : TarEntry} (h : e.Single) :
    endsIn slash (cString (trimSlash e.name)) = false := e.cString_trimSlash.symm ▸ h

theorem path_eq (e : TarEntry) :
    e.path = e.path.dropLast ++ [e.path.getLast e.name_ne_root] :=
  (List.dropLast_append_getLast e.name_ne_root).symm

theorem content_length_lt (e : TarEntry) : e.content.length < 2 ^ 33 := by
  have hlt := octalFrom_lt e.size_octal 0
  rw [e.size_value, e.size_length] at hlt
  exact hlt

end TarEntry

namespace FsKernel

variable {k k' : FsKernel} {files : List U64} {us : List (List U8)} {w path : List U8} {i : U64}
  {fops : FileOperations FsKernel} {fuel : Nat} {r : VfsLookupResult} {data : Nat → U8}
  {typeflag : U8}

/-- Where the name is missing, the entry is made there. -/
theorem Place.extractTarFile (h : Place k us i) (hn : k.locate (us ++ [w]) = none)
    (hpath : components slash (cString path) = us ++ [w])
    (hend : endsIn slash (cString path) = false) (size : U64) :
    cString w = w ∧ k.extractTarFile fops fuel r path typeflag data size =
      if typeflag = 0x35 then (do
        let (_, k) ← k.vfsMkdir i w
        .ok k)
      else (do
        let (inode, k) ← k.vfsCreate i w
        let (_, _, k) ← k.vfsWrite fops ⟨inode, 0⟩ data size
        .ok k) := by
  obtain ⟨r', hr, hstatus, hparent, hname, hw⟩ := h.resolve hn hpath hend fuel r
  refine ⟨hw, ?_⟩
  rw [FsKernel.extractTarFile, hr, ok_bind]
  dsimp only
  rw [if_neg (not_not_intro hstatus), hparent, hname]

theorem vfsWrite_new_affords (hr : RamfsInv k.fs files) (hi : i ∈ files) (hz : i ≠ 0)
    (htype : k.typeOf i = .ramfs) (hempty : k.fs.ramfsInodeOf i = ⟨[], 0⟩) {n : Nat}
    (hn : n < 2 ^ 33) :
    Affords (k.vfsWrite fops ⟨i, 0⟩ data (BitVec.ofNat 64 n)) outOfMemory k.freePages
      (fun r => r.2.2.freePages) ((n + 127) / 128) := by
  rw [vfsWrite_ramfs hr hi hz htype]
  exact (hr.write_new_affords hi hempty data hn).bind_free fun _ _ => .ok rfl (Nat.le_refl _)

/-- What an entry with the path `ws` leaves, with the new inode at `j`. Nothing outside of the
slabs of the RAM file system changes. -/
structure EntryMade (k k' : FsKernel) (files files' : List U64) (ws : List (List U8)) (j : U64) :
    Prop extends PathAdded k k' ws j where
  ram : RamfsInv k'.fs files'
  kept : files ⊆ files'
  images : ∀ g ∈ files, k'.fs.image g = k.fs.image g
  same : k' = { k with fs := k'.fs }

section Entry

variable (hk : k.Inv) (hr : RamfsInv k.fs files) (h : Place k us i)
  (hn : k.locate (us ++ [w]) = none) (hw : cString w = w) (hlength : w.length ≤ dentryMaxNameLength)

include hk hr h hn hw

theorem Place.mkdir_made {j : U64} (hc : k.vfsMkdir i w = .ok (j, k')) :
    EntryMade k k' files files (us ++ [w]) j ∧ Place k' (us ++ [w]) j := by
  have hi := hk.locate_known h.leads
  obtain ⟨-, d, hnew⟩ := hk.toSlabs.vfsMkdir (ramfsRecords_of_inv hr) hi h.onRamfs hc
  obtain ⟨hram, himages⟩ := hk.toSlabs.vfsMkdir_files hr hi h.onRamfs h.directory hc
  obtain ⟨dir, fs, -, rfl⟩ := hk.toSlabs.vfsMkdir_ramfs hi h.onRamfs hc
  rw [hw] at hnew
  have hadded := hnew.pathAdded hk h hw hn
  refine ⟨⟨hadded, hram, List.Subset.refl _, himages, rfl⟩, hadded.place hk hnew.type ?_ ?_⟩
  · exact hnew.typeOf_new.trans h.onRamfs
  · rw [hnew.superblock]
    exact h.mounted

theorem Place.create_made {j : U64} (hc : k.vfsCreate i w = .ok (j, k')) :
    EntryMade k k' files (files ++ [j]) (us ++ [w]) j ∧ j ≠ 0 ∧
      (k'.inode j).type = inodeRegularFile ∧ k'.typeOf j = .ramfs ∧
      k'.fs.ramfsInodeOf j = ⟨[], 0⟩ := by
  have hi := hk.locate_known h.leads
  obtain ⟨hz, d, hnew⟩ := hk.toSlabs.vfsCreate (ramfsRecords_of_inv hr) hi h.onRamfs hc
  obtain ⟨hram, himages, hempty⟩ :=
    hk.toSlabs.vfsCreate_files hr hi h.onRamfs h.directory h.mounted hc
  obtain ⟨dir, fs, -, rfl⟩ := hk.toSlabs.vfsCreate_ramfs hi h.onRamfs hc
  rw [hw] at hnew
  exact ⟨⟨hnew.pathAdded hk h hw hn, hram, List.subset_append_left _ _, himages, rfl⟩, hz,
    hnew.type, hnew.typeOf_new.trans h.onRamfs, hempty⟩

/-- A new file takes its content. -/
theorem Place.file_made {j size : U64} {n : U64} {filp : File} {k₁ : FsKernel}
    (hc : k.vfsCreate i w = .ok (j, k₁))
    (hwrite : k₁.vfsWrite fops ⟨j, 0⟩ data size = .ok (n, filp, k')) :
    EntryMade k k' files (files ++ [j]) (us ++ [w]) j ∧
      (k'.inode j).type = inodeRegularFile ∧
      (k'.fs.image j).content = slice data 0 size.toNat := by
  obtain ⟨hmade, hz, hregular, htype, hempty⟩ := h.create_made hk hr hn hw hc
  have hj : j ∈ files ++ [j] := List.mem_append_right _ (List.mem_singleton_self j)
  rw [vfsWrite_ramfs hmade.ram hj hz htype] at hwrite
  obtain ⟨⟨n', fs⟩, hramfs, hwrite⟩ := bind_eq_ok hwrite
  cases hwrite
  have hstep := RecordStep.write hramfs
  obtain ⟨-, hcall⟩ := hmade.ram.write_ok hj hramfs
  have hsize : (k₁.fs.image j).size = 0 := by
    rw [Ramfs.image, hempty]
    rfl
  refine ⟨⟨hmade.toPathAdded.of_recordStep hstep, hcall.inv, hmade.kept, fun g hg => ?_, ?_⟩, ?_, ?_⟩
  · have hne : g ≠ j := by
      rintro rfl
      exact (List.nodup_append.mp hmade.ram.files_nodup).2.2 g hg g (List.mem_singleton_self g) rfl
    exact (hcall.others.image (hmade.kept hg) hne).trans (hmade.images g hg)
  · have hsame := hmade.same
    dsimp only
    rw [hsame]
  · rw [FsKernel.inode, hstep.inodes]
    exact hregular
  · rw [hcall.image, Image.content_new hsize]

end Entry

/-- The object at `j` is what the entry says. -/
structure Made (k : FsKernel) (files : List U64) (e : TarEntry) (j : U64) : Prop where
  directory : e.typeflag = 0x35 → (k.inode j).type = inodeDirectory
  file : e.typeflag ≠ 0x35 → j ∈ files ∧ (k.inode j).type = inodeRegularFile ∧
    (k.fs.image j).content = e.content

section Entries

variable {e : TarEntry}

/-- An entry with its parent in its place. -/
theorem Place.entry_affords (hk : k.Inv) (hr : RamfsInv k.fs files)
    (h : Place k e.path.dropLast i) (hn : k.locate e.path = none) (hsingle : e.Single)
    (hshort : ∀ w ∈ e.path, w.length ≤ dentryMaxNameLength) :
    Affords (k.extractTarFile fops fuel r (trimSlash e.name) e.typeflag data
      (BitVec.ofNat 64 e.content.length)) outOfMemory k.freePages freePages e.cost := by
  rw [e.path_eq] at hn
  obtain ⟨hw, hrun⟩ := h.extractTarFile hn (e.components_trimSlash.trans e.path_eq)
    hsingle.endsIn (BitVec.ofNat 64 e.content.length)
  have hlength : (cString (e.path.getLast e.name_ne_root)).length ≤ dentryMaxNameLength := by
    rw [hw]
    exact hshort _ (List.getLast_mem e.name_ne_root)
  rw [hrun, TarEntry.cost]
  split
  · exact (hk.toSlabs.vfsMkdir_affords hlength i).bind_free fun _ _ => .ok rfl (Nat.le_refl _)
  · refine (hk.toSlabs.vfsCreate_affords (ramfsRecords_of_inv hr) (hk.locate_known h.leads)
      h.onRamfs hlength).bind fun ⟨j, k₁⟩ hc => ?_
    obtain ⟨hmade, hz, -, htype, hempty⟩ := h.create_made hk hr hn hw hc
    have hj : j ∈ files ++ [j] := List.mem_append_right _ (List.mem_singleton_self j)
    exact (vfsWrite_new_affords hmade.ram hj hz htype hempty e.content_length_lt).bind_free
      fun _ _ => .ok rfl (Nat.le_refl _)

/-- What the entry leaves. -/
theorem Place.entry_made (hk : k.Inv) (hr : RamfsInv k.fs files)
    (h : Place k e.path.dropLast i) (hn : k.locate e.path = none) (hsingle : e.Single)
    (hdata : slice data 0 e.content.length = e.content)
    (hrun : k.extractTarFile fops fuel r (trimSlash e.name) e.typeflag data
      (BitVec.ofNat 64 e.content.length) = .ok k') :
    ∃ files' j, EntryMade k k' files files' e.path j ∧ Made k' files' e j ∧
      (e.typeflag = 0x35 → Place k' e.path j) := by
  have hlt := e.content_length_lt
  rw [e.path_eq] at hn
  obtain ⟨hw, hcalls⟩ := h.extractTarFile hn (e.components_trimSlash.trans e.path_eq)
    hsingle.endsIn (BitVec.ofNat 64 e.content.length)
  rw [hcalls] at hrun
  split at hrun
  · next hflag =>
    obtain ⟨⟨j, k₁⟩, hc, hrun⟩ := bind_eq_ok hrun
    cases hrun
    obtain ⟨hmade, hplace⟩ := h.mkdir_made hk hr hn hw hc
    rw [← e.path_eq] at hmade hplace
    exact ⟨files, j, hmade, ⟨fun _ => hplace.directory, fun hh => absurd hflag hh⟩, fun _ => hplace⟩
  · next hflag =>
    obtain ⟨⟨j, k₁⟩, hc, hrun⟩ := bind_eq_ok hrun
    obtain ⟨⟨n, filp, k₂⟩, hwrite, hrun⟩ := bind_eq_ok hrun
    cases hrun
    obtain ⟨hmade, hregular, hcontent⟩ := h.file_made hk hr hn hw hc hwrite
    rw [← e.path_eq] at hmade
    have hsize : (BitVec.ofNat 64 e.content.length).toNat = e.content.length := by
      rw [BitVec.toNat_ofNat]
      omega
    have hj : j ∈ files ++ [j] := List.mem_append_right _ (List.mem_singleton_self j)
    rw [hsize, hdata] at hcontent
    exact ⟨files ++ [j], j, hmade, ⟨fun hh => absurd hh hflag, fun _ => ⟨hj, hregular, hcontent⟩⟩,
      fun hh => absurd hh hflag⟩

end Entries

section Archive

variable {memory : U64 → U8} {a : U64} {passes : Nat}

/-- The loop takes one entry and goes on behind it. -/
theorem extractTarFiles_entry (e : TarEntry) (hm : HoldsAt memory a e.bytes) (hfuel : 12 ≤ fuel)
    (k : FsKernel) : ∃ data, slice data 0 e.content.length = e.content ∧
      extractTarFiles fops fuel r memory (passes + 1) a k = (do
        let k ← k.extractTarFile fops fuel r (trimSlash e.name) e.typeflag data
          (BitVec.ofNat 64 e.content.length)
        extractTarFiles fops fuel r memory passes (a + BitVec.ofNat 64 e.bytes.length) k) := by
  obtain ⟨hheader, hrest⟩ := holdsAt_append.mp hm
  obtain ⟨hcontent, -⟩ := holdsAt_append.mp hrest
  rw [e.header_length] at hcontent
  refine ⟨bytesFrom memory (a + 512), hcontent, ?_⟩
  obtain ⟨hmore, n, hsize⟩ := e.parseOct_size hheader hfuel
  have hname : e.name ≠ [] := by
    intro hh
    refine e.name_ne_root ?_
    rw [hh]
    rfl
  have hlength : ¬e.name.length > filepathMaxLength := by
    have hfield := e.name_length
    rw [filepathMaxLength]
    omega
  rw [FsKernel.extractTarFiles]
  dsimp only
  rw [if_neg hmore, hsize, ok_bind]
  dsimp only
  rw [e.name_string hheader, if_neg hlength, stripSlash_eq hname, ok_bind, e.typeflag_byte hheader,
    incrementBlocks_eq e.content_length_lt, ← e.bytes_length]

theorem extractTarFiles_end (hm : HoldsAt memory a (tarArchive [])) (k : FsKernel) :
    extractTarFiles fops fuel r memory (passes + 1) a k = .ok k := by
  have hlength : (tarArchive []).length = 512 := List.length_replicate
  have hzero : slice (bytesFrom memory a) 124 12 = List.replicate 12 0 := by
    rw [hm.slice_eq (by rw [hlength]; decide), tarArchive, List.flatMap_nil, List.nil_append,
      List.drop_replicate, List.take_replicate]
    rfl
  rw [FsKernel.extractTarFiles]
  dsimp only
  rw [if_pos hzero]

/-- The parent of every entry is one of `dirs` or a directory before it. -/
def ParentsFirst : List (List (List U8)) → List TarEntry → Prop
  | _, [] => True
  | dirs, e :: entries => e.path.dropLast ∈ dirs ∧
      ParentsFirst (if e.typeflag = 0x35 then e.path :: dirs else dirs) entries

/-- The entries are new, and each comes behind its parent. -/
structure Extractable (k : FsKernel) (dirs : List (List (List U8))) (entries : List TarEntry) :
    Prop where
  single : ∀ e ∈ entries, e.Single
  short : ∀ e ∈ entries, ∀ w ∈ e.path, w.length ≤ dentryMaxNameLength
  parents : ParentsFirst dirs entries
  nodup : (entries.map TarEntry.path).Nodup
  fresh : ∀ e ∈ entries, k.locate e.path = none

/-- `k'` is `k` with the entries, and their inodes are `made`. -/
structure Extracted (k k' : FsKernel) (files files' : List U64) (entries : List TarEntry)
    (made : List U64) : Prop where
  inv : k'.Inv
  ram : RamfsInv k'.fs files'
  kept : files ⊆ files'
  objects : List.Forall₂ (Made k' files') entries made
  locate : ∀ us j, k'.locate us = some j ↔
    k.locate us = some j ∨ (us, j) ∈ (entries.map TarEntry.path).zip made
  inodeSlots : k'.inodeSlots.Perm (made ++ k.inodeSlots)
  dentrySlots : ∃ ds, ds.length = entries.length ∧ k'.dentrySlots.Perm (ds ++ k.dentrySlots)
  inodes : ∀ y, k.Known y →
    k'.inode y = { k.inode y with dentries := (k'.inode y).dentries }
  images : ∀ g ∈ files, k'.fs.image g = k.fs.image g
  same : k' = { k with fs := k'.fs }
  still : ∀ us, k.StillAlong k.vfsRootInode us → k'.StillAlong k'.vfsRootInode us
  stillNew : ∀ e ∈ entries, k'.StillAlong k'.vfsRootInode e.path

theorem Extracted.refl (hk : k.Inv) (hr : RamfsInv k.fs files) :
    Extracted k k files files [] [] where
  inv := hk
  ram := hr
  kept := List.Subset.refl _
  objects := .nil
  locate us j := (or_iff_left List.not_mem_nil).symm
  inodeSlots := .refl _
  dentrySlots := ⟨[], rfl, .refl _⟩
  inodes _ _ := rfl
  images _ _ := rfl
  same := rfl
  still _ hs := hs
  stillNew _ he := absurd he List.not_mem_nil

variable {e : TarEntry} {entries : List TarEntry} {dirs : List (List (List U8))}
  {files₁ files' made : List U64} {k₁ : FsKernel} {j : U64}

/-- One entry, and then the others. -/
theorem Extracted.cons (h : EntryMade k k₁ files files₁ e.path j) (hm : Made k₁ files₁ e j)
    (h' : Extracted k₁ k' files₁ files' entries made) :
    Extracted k k' files files' (e :: entries) (j :: made) where
  inv := h'.inv
  ram := h'.ram
  kept := List.Subset.trans h.kept h'.kept
  objects := by
    have hj := h.inv.locate_known ((h.locate e.path j).mpr (.inr ⟨rfl, rfl⟩))
    have htype : (k'.inode j).type = (k₁.inode j).type := by rw [h'.inodes j hj]
    refine .cons ⟨fun hd => htype.trans (hm.directory hd), fun hf => ?_⟩ h'.objects
    obtain ⟨hmem, hregular, hcontent⟩ := hm.file hf
    exact ⟨h'.kept hmem, htype.trans hregular, by rw [h'.images j hmem, hcontent]⟩
  locate us y := by
    rw [h'.locate, h.locate, List.map_cons, List.zip_cons_cons, List.mem_cons, Prod.mk.injEq,
      or_assoc]
  inodeSlots := h'.inodeSlots.trans ((h.inodeSlots.append_left made).trans List.perm_middle)
  dentrySlots := by
    obtain ⟨d, hd⟩ := h.dentrySlots
    obtain ⟨ds, hlength, hds⟩ := h'.dentrySlots
    exact ⟨d :: ds, congrArg (· + 1) hlength, hds.trans ((hd.append_left ds).trans List.perm_middle)⟩
  inodes y hy := by
    rw [h'.inodes y (h.known hy), h.inodes y hy]
  images g hg := (h'.images g (h.kept hg)).trans (h.images g hg)
  same := h'.same.trans (congrArg (fun l => { l with fs := k'.fs }) h.same)
  still us hs := h'.still us (h.still us hs)
  stillNew e' he' := by
    rcases List.mem_cons.mp he' with rfl | he'
    · exact h'.still _ h.stillNew
    · exact h'.stillNew e' he'

/-- Behind an entry, the others are still new. -/
theorem Extractable.tail (he : Extractable k dirs (e :: entries)) (h : PathAdded k k₁ e.path j) :
    Extractable k₁ (if e.typeflag = 0x35 then e.path :: dirs else dirs) entries where
  single e' he' := he.single e' (List.mem_cons_of_mem e he')
  short e' he' := he.short e' (List.mem_cons_of_mem e he')
  parents := he.parents.2
  nodup := (List.nodup_cons.mp he.nodup).2
  fresh e' he' := by
    refine Option.eq_none_iff_forall_ne_some.mpr fun y hy => ?_
    rcases (h.locate e'.path y).mp hy with hy | ⟨hpath, -⟩
    · cases (he.fresh e' (List.mem_cons_of_mem e he')).symm.trans hy
    · have hnot := (List.nodup_cons.mp he.nodup).1
      exact hnot (hpath ▸ List.mem_map_of_mem he')

/-- The pages that the entries need at most. -/
def tarCost (entries : List TarEntry) : Nat := (entries.map TarEntry.cost).sum

theorem tarCost_cons (e : TarEntry) (entries : List TarEntry) :
    tarCost (e :: entries) = tarCost entries + e.cost := Nat.add_comm _ _

theorem extractTarFiles_run (hk : k.Inv) (hr : RamfsInv k.fs files)
    (hplaces : ∀ us ∈ dirs, ∃ i, Place k us i) (he : Extractable k dirs entries)
    (hm : HoldsAt memory a (tarArchive entries)) (hpasses : entries.length < passes)
    (hfuel : 12 ≤ fuel) :
    Affords (extractTarFiles fops fuel r memory passes a k) outOfMemory k.freePages freePages
        (tarCost entries) ∧
      ∀ k', extractTarFiles fops fuel r memory passes a k = .ok k' →
        ∃ files' made, Extracted k k' files files' entries made := by
  induction entries generalizing k files dirs a passes with
  | nil =>
    obtain ⟨passes, rfl⟩ := Nat.exists_eq_succ_of_ne_zero (Nat.ne_of_gt hpasses)
    rw [extractTarFiles_end hm]
    refine ⟨.ok rfl (Nat.le_refl _), fun k' hk' => ?_⟩
    cases hk'
    exact ⟨files, [], .refl hk hr⟩
  | cons e entries ih =>
    obtain ⟨passes, rfl⟩ := Nat.exists_eq_succ_of_ne_zero
      (Nat.ne_of_gt (Nat.zero_lt_of_lt hpasses))
    obtain ⟨hentry, hrest⟩ := holdsAt_tarArchive.mp hm
    obtain ⟨data, hdata, hrun⟩ := extractTarFiles_entry e hentry hfuel k
    obtain ⟨i, hplace⟩ := hplaces _ he.parents.1
    have hfresh := he.fresh e List.mem_cons_self
    have hsingle := he.single e List.mem_cons_self
    have hstep : ∀ k₁, k.extractTarFile fops fuel r (trimSlash e.name) e.typeflag data
        (BitVec.ofNat 64 e.content.length) = .ok k₁ → ∃ files₁ j,
          EntryMade k k₁ files files₁ e.path j ∧ Made k₁ files₁ e j ∧
          Affords (extractTarFiles fops fuel r memory passes
            (a + BitVec.ofNat 64 e.bytes.length) k₁) outOfMemory k₁.freePages freePages
            (tarCost entries) ∧
          ∀ k', extractTarFiles fops fuel r memory passes
            (a + BitVec.ofNat 64 e.bytes.length) k₁ = .ok k' →
            ∃ files' made, Extracted k₁ k' files₁ files' entries made := by
      intro k₁ hk₁
      obtain ⟨files₁, j, hmade, hobject, hnew⟩ := hplace.entry_made hk hr hfresh hsingle hdata hk₁
      have hplaces₁ : ∀ us ∈ (if e.typeflag = 0x35 then e.path :: dirs else dirs),
          ∃ i, Place k₁ us i := by
        have hold : ∀ us ∈ dirs, ∃ i, Place k₁ us i := by
          intro us hus
          obtain ⟨y, hy⟩ := hplaces us hus
          exact ⟨y, hy.of_pathAdded hmade.toPathAdded hk⟩
        split
        · next hflag => exact List.forall_mem_cons.mpr ⟨⟨j, hnew hflag⟩, hold⟩
        · exact hold
      exact ⟨files₁, j, hmade, hobject, ih hmade.inv hmade.ram hplaces₁
        (he.tail hmade.toPathAdded) hrest (Nat.lt_of_succ_lt_succ hpasses)⟩
    rw [hrun, tarCost_cons]
    constructor
    · refine (hplace.entry_affords hk hr hfresh hsingle (he.short e List.mem_cons_self)).bind ?_
      intro k₁ hk₁
      obtain ⟨-, -, -, -, haffords, -⟩ := hstep k₁ hk₁
      exact haffords
    · intro k' hk'
      obtain ⟨k₁, hk₁, hk'⟩ := bind_eq_ok hk'
      obtain ⟨files₁, j, hmade, hobject, -, hextracted⟩ := hstep k₁ hk₁
      obtain ⟨files', made, hextracted⟩ := hextracted k' hk'
      exact ⟨files', j :: made, .cons hmade hobject hextracted⟩

/-- A tree whose root is a directory in RAM that nothing leads back to. -/
structure RootTree (k : FsKernel) (ramFiles : List U64) : Prop extends Inv k where
  ram : RamfsInv k.fs ramFiles
  rootPlace : Place k [] k.vfsRootInode

theorem Extracted.resolvesTo (h : Extracted k k' files files' entries made) {path : List U8}
    (hj : (components slash (cString path), j) ∈ (entries.map TarEntry.path).zip made)
    (hend : endsIn slash (cString path) = false) (fuel : Nat) (r : VfsLookupResult) :
    k'.ResolvesTo fuel r path j := by
  obtain ⟨e, he, hpath⟩ := List.mem_map.mp (List.of_mem_zip hj).1
  have hstill := h.stillNew e he
  rw [hpath] at hstill
  obtain ⟨r', hr, hrep⟩ := hstill.vfsResolve_reports fuel r
  obtain ⟨q, hq, hqj⟩ := Directories.walk_found_of_reach (p := k'.tree.root)
    ((h.locate _ j).mpr (.inr hj))
  have ho : k'.tree.resolve path = .found q := by
    rw [VfsTree.resolve, hend, Bool.and_false]
    exact hq
  rw [ho, Reports] at hrep
  exact ⟨r', hr, by rw [hrep], by rw [hrep, hqj]⟩

/-- The extraction of what was archived leaves the tree with the entries. It may end in the
panic of the page allocator, with fewer pages than the entries need. -/
theorem extract_tar_restores (hk : k.RootTree files) (he : Extractable k [[]] entries)
    (hm : HoldsAt memory a (tarArchive entries)) (hpasses : entries.length < passes)
    (hfuel : 12 ≤ fuel) (fops : FileOperations FsKernel) (r : VfsLookupResult) :
    Affords (extractTarFiles fops fuel r memory passes a k) outOfMemory k.freePages freePages
        (tarCost entries) ∧
      ∀ k', extractTarFiles fops fuel r memory passes a k = .ok k' →
        ∃ files' made, Extracted k k' files files' entries made ∧
          ∀ path j, (components slash (cString path), j) ∈
              (entries.map TarEntry.path).zip made →
            endsIn slash (cString path) = false → ∀ fuel r, k'.ResolvesTo fuel r path j := by
  have hplaces : ∀ us ∈ [([] : List (List U8))], ∃ i, Place k us i := by
    intro us hus
    obtain rfl := List.mem_singleton.mp hus
    exact ⟨k.vfsRootInode, hk.rootPlace⟩
  refine And.imp_right (fun hruns k' hk' => ?_)
    (extractTarFiles_run hk.toInv hk.ram hplaces he hm hpasses hfuel)
  obtain ⟨files', made, hextracted⟩ := hruns k' hk'
  exact ⟨files', made, hextracted, fun _ _ hj hend => hextracted.resolvesTo hj hend⟩

end Archive

end FsKernel

open FsKernel

/-- The tree that the kernel boots with. -/
theorem TreeBoot.rootTree (b : TreeBoot) : b.kernel.RootTree [] where
  toInv := b.ramfsTree.toInv
  ram := (RunInv.boot b.memory).inv
  rootPlace := by
    have hroot : b.kernel.inode b.kernel.vfsRootInode = ⟨inodeDirectory, b.superblock, 0, []⟩ :=
      b.rootInode
    refine ⟨rfl, by rw [hroot], b.ramfsTree.onRamfs _ b.ramfsTree.root, ?_, ?_, trivial⟩
    · rw [hroot]
      exact b.superblock_ne
    · intro us hus
      cases us with
      | nil => rfl
      | cons w us =>
        have hnone : b.kernel.tree.directories.entry b.kernel.vfsRootInode w = none := by
          change (b.kernel.inode b.kernel.vfsRootInode).dentries.find? _ = none
          rw [hroot]
          rfl
        rw [locate, Directories.reach, hnone, Option.bind_none, ite_self] at hus
        cases hus

/-- `bareBoot` with these pages for the slabs. -/
def bootWith (supply : PageSupply) (kernelHalf : ∀ p ∈ supply.pages, userEnd ≤ p.toNat)
    (outside : rootAddress &&& pageAddressMask ∉ supply.pages) : TreeBoot :=
  { bareBoot with
    memory := { bareBoot.memory with supply }
    kernelHalf
    outside }

def roomyBoot : TreeBoot :=
  bootWith ⟨[0xFFFF800000001000, 0xFFFF800000002000, 0xFFFF800000003000, 0xFFFF800000004000,
    0xFFFF800000005000, 0xFFFF800000006000], by simp [PageAligned], by decide⟩
    (by simp [userEnd]) (by decide)

def fullBoot : TreeBoot :=
  bootWith ⟨[], fun _ hp => absurd hp List.not_mem_nil, .nil⟩
    (fun _ hp => absurd hp List.not_mem_nil) List.not_mem_nil

/-- The directory `d`. -/
def directoryEntry : TarEntry where
  name := [0x64, slash]
  nameRest := List.replicate 97 0
  owner := List.replicate 24 0x30
  size := List.replicate 11 0x30
  times := List.replicate 20 0x30
  typeflag := 0x35
  rest := List.replicate 355 0
  content := []
  name_length := by rw [List.length_replicate, List.length_cons, List.length_singleton]
  name_nonzero := by decide
  name_slash _ := by decide
  name_ne_root := by decide
  owner_length := List.length_replicate
  size_length := List.length_replicate
  size_octal c hc := by
    rw [List.eq_of_mem_replicate hc]
    exact ⟨by decide, by decide⟩
  size_value := by decide
  times_length := List.length_replicate
  rest_length := List.length_replicate
  empty _ := rfl

/-- The directory `d` with two slashes behind its name. -/
def doubledEntry : TarEntry :=
  { directoryEntry with
    name := [0x64, slash, slash]
    nameRest := List.replicate 96 0
    name_length := by
      rw [List.length_replicate, List.length_cons, List.length_cons, List.length_singleton]
    name_nonzero := by decide
    name_slash := fun _ => by decide
    name_ne_root := by decide }

/-- The file `d/f`, of two bytes. -/
def fileEntry : TarEntry :=
  { directoryEntry with
    name := [0x64, slash, 0x66]
    nameRest := List.replicate 96 0
    size := List.replicate 10 0x30 ++ [0x32]
    typeflag := 0x30
    content := [0x68, 0x69]
    name_length := by
      rw [List.length_replicate, List.length_cons, List.length_cons, List.length_singleton]
    name_nonzero := by decide
    name_slash := fun hh => absurd hh (by decide)
    name_ne_root := by decide
    size_length := by rw [List.length_append, List.length_replicate, List.length_singleton]
    size_octal := by
      intro c hc
      rcases List.mem_append.mp hc with hc | hc
      · rw [List.eq_of_mem_replicate hc]
        exact ⟨by decide, by decide⟩
      · rw [List.mem_singleton.mp hc]
        exact ⟨by decide, by decide⟩
    size_value := by decide
    empty := fun hh => absurd hh (by decide) }

/-- The memory with an archive at its beginning. -/
def archiveMemory (entries : List TarEntry) : U64 → U8 :=
  fun x => (tarArchive entries).getD x.toNat 0

theorem holdsAt_archiveMemory {entries : List TarEntry} (h : (tarArchive entries).length ≤ 2 ^ 64) :
    HoldsAt (archiveMemory entries) 0 (tarArchive entries) := holdsAt_getD h

/-- A device that takes and gives nothing. -/
def deafDevice : FileOperations FsKernel where
  write k _ _ _ := (0, k)
  read k _ _ := ([], k)

/-- `d/` and `d/f`. -/
theorem extract_tar_restores_file : ∃ k' files' made,
    extractTarFiles deafDevice 12 noResult (archiveMemory [directoryEntry, fileEntry]) 3 0
      roomyBoot.kernel = .ok k' ∧
    Extracted roomyBoot.kernel k' [] files' [directoryEntry, fileEntry] made := by
  have he : Extractable roomyBoot.kernel [[]] [directoryEntry, fileEntry] := by
    refine ⟨?_, by decide, ⟨by decide, by decide, trivial⟩, by decide, by decide +kernel⟩
    intro e he
    rcases List.mem_cons.mp he with rfl | he
    · exact (by decide : endsIn slash (trimSlash directoryEntry.name) = false)
    · rw [List.mem_singleton.mp he]
      exact (by decide : endsIn slash (trimSlash fileEntry.name) = false)
  have hlength : (tarArchive [directoryEntry, fileEntry]).length ≤ 2 ^ 64 := by
    rw [tarArchive, List.flatMap_cons, List.flatMap_singleton, List.length_append,
      List.length_append, TarEntry.bytes_length, TarEntry.bytes_length, List.length_replicate]
    decide
  obtain ⟨haffords, hruns⟩ := @extract_tar_restores roomyBoot.kernel [] 12 _ 0 3 _
    roomyBoot.rootTree he (holdsAt_archiveMemory hlength) (by decide) (Nat.le_refl 12) deafDevice noResult
  obtain ⟨k', hk', -⟩ := haffords.returns (n := 0) (by decide +kernel)
  obtain ⟨files', made, hextracted, -⟩ := hruns k' hk'
  exact ⟨k', files', made, hk', hextracted⟩

theorem extractTarFiles_error {e : TarEntry} {c : Crash} (hempty : e.content = [])
    {fops : FileOperations FsKernel} {fuel passes : Nat} {r : VfsLookupResult} {k : FsKernel}
    (hfuel : 12 ≤ fuel)
    (h : ∀ data, k.extractTarFile fops fuel r (trimSlash e.name) e.typeflag data
      (BitVec.ofNat 64 e.content.length) = .error c) :
    extractTarFiles fops fuel r (archiveMemory [e]) (passes + 1) 0 k = .error c := by
  have hlength : (tarArchive [e]).length ≤ 2 ^ 64 := by
    rw [tarArchive, List.flatMap_singleton, List.length_append, TarEntry.bytes_length, hempty,
      List.length_replicate]
    decide
  have hm := (holdsAt_tarArchive.mp (holdsAt_archiveMemory hlength)).1
  obtain ⟨data, -, hrun⟩ := extractTarFiles_entry e hm hfuel k
  have hcall := h data
  rw [hrun, hcall]
  rfl

/-- Without a page for the inode of `d`, the extraction ends in a panic. So it does for a
directory with two slashes behind its name, which resolves to no place. -/
theorem extract_tar_panics :
    (Extractable fullBoot.kernel [[]] [directoryEntry] ∧
      ∀ passes fuel r, 12 ≤ fuel → extractTarFiles deafDevice fuel r (archiveMemory [directoryEntry])
        (passes + 1) 0 fullBoot.kernel = .error outOfMemory) ∧
    ∀ passes fuel r, 12 ≤ fuel → extractTarFiles deafDevice fuel r (archiveMemory [doubledEntry])
      (passes + 1) 0 roomyBoot.kernel =
        .error (.panic "Unexpected resolve status while extracting tar") := by
  have hsingle : directoryEntry.Single :=
    (by decide : endsIn slash (trimSlash directoryEntry.name) = false)
  have he : Extractable fullBoot.kernel [[]] [directoryEntry] :=
    ⟨List.forall_mem_singleton.mpr hsingle, by decide, ⟨by decide, trivial⟩, by decide,
      by decide +kernel⟩
  exact ⟨⟨he, fun _ _ _ hfuel => extractTarFiles_error rfl hfuel fun _ => rfl⟩,
    fun _ _ _ hfuel => extractTarFiles_error rfl hfuel fun _ => rfl⟩

end Persistos
