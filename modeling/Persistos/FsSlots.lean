import Persistos.FsKernel

/-! The slots behind a tree of files. Each slab has its own, the variables of the kernel
lie outside of them, and what loads an exFAT directory only adds to them. -/

namespace Persistos

namespace Slab

variable {α : Type}

/-- The slots in use. -/
def slots (slab : Slab α) : List U64 := slab.allocator.allocatedSlots

@[simp] theorem slots_modify (slab : Slab α) (x : U64) (f : α → α) :
    (slab.modify x f).slots = slab.slots := rfl

variable {supply supply' : PageSupply} {slab slab' : Slab α} {zero : α} {x : U64}

theorem Ok.alloc_slots (h : Ok supply slab slab.slots)
    (ha : slab.alloc zero supply = .ok (x, supply', slab')) :
    Ok supply' slab' slab'.slots ∧ slab'.slots.Perm (x :: slab.slots) := by
  have hok := (h.alloc ha).ok
  have hperm := hok.inv.allocatedSlots_perm
  exact ⟨hok.perm hperm.symm, hperm⟩

theorem Ok.congr_slots (h : Ok supply slab slab.slots) (hs : supply' = supply)
    (ha : slab'.allocator = slab.allocator) : Ok supply' slab' slab'.slots := by
  have hslots : slab'.slots = slab.slots := congrArg SlabAllocator.allocatedSlots ha
  rw [hs, hslots]
  exact ⟨ha ▸ h.inv, ha ▸ h.fresh⟩

theorem Ok.free_slots (h : Ok supply slab slab.slots) (hx : x ∈ slab.slots)
    (hf : slab.free x = .ok slab') :
    Ok supply slab' slab'.slots ∧ slab'.slots.Perm (slab.slots.erase x) ∧
      slab'.objects = slab.objects ∧ slab'.allocator.pages = slab.allocator.pages ∧
      slab'.allocator.objectSize = slab.allocator.objectSize := by
  obtain ⟨b, hb, hsize, -, hpages, -, -⟩ := h.inv.free hx
  obtain ⟨s, hs, hok, hobjects⟩ := h.free hx
  obtain rfl := Except.ok.inj (hs.symm.trans hf)
  have hperm := hok.inv.allocatedSlots_perm
  refine ⟨hok.perm hperm.symm, hperm, hobjects, ?_⟩
  rw [Slab.free, hb] at hf
  obtain rfl := Except.ok.inj hf
  exact ⟨hpages, hsize⟩

theorem Ok.alloc_pages (h : Ok supply slab slab.slots)
    (ha : slab.alloc zero supply = .ok (x, supply', slab')) :
    slab'.allocator.pages ⊆ slab.allocator.pages ++ supply.pages ∧
      slab'.allocator.objectSize = slab.allocator.objectSize := by
  obtain ⟨⟨z, s, a, new⟩, hslab, he⟩ := bind_eq_ok ha
  simp only [Except.ok.injEq, Prod.mk.injEq] at he
  obtain ⟨rfl, rfl, rfl⟩ := he
  obtain ⟨-, -, hsize, -, hpages, -⟩ := h.inv.alloc h.freshPages hslab
  refine ⟨?_, hsize⟩
  rcases hpages with ⟨-, -, hpages⟩ | ⟨p, -, hp, hpages⟩
  · rw [hpages]
    exact List.subset_append_left _ _
  · rw [hpages, (PageSupply.alloc_ok hp).1]
    exact List.cons_subset.mpr ⟨List.mem_append_right _ List.mem_cons_self,
      List.subset_append_left _ _⟩

/-- An address on no page of the slab and none that it may get keeps its place. -/
theorem alloc_outside (h : Ok supply slab slab.slots)
    (ha : slab.alloc zero supply = .ok (x, supply', slab')) {y : U64}
    (hs : y &&& pageAddressMask ∉ supply.pages)
    (hp : y &&& pageAddressMask ∉ slab.allocator.pages) :
    slab'.objects y = slab.objects y ∧ x ≠ y ∧ y &&& pageAddressMask ∉ supply'.pages ∧
      y &&& pageAddressMask ∉ slab'.allocator.pages := by
  have hsub := (h.alloc ha).supply_subset
  have hmem := (h.alloc ha).ok.mask_mem_pages List.mem_cons_self
  obtain ⟨⟨z, s, a, new⟩, hslab, he⟩ := bind_eq_ok ha
  simp only [Except.ok.injEq, Prod.mk.injEq] at he
  obtain ⟨rfl, rfl, rfl⟩ := he
  obtain ⟨-, -, -, -, hpages, -⟩ := h.inv.alloc h.freshPages hslab
  have hout : y &&& pageAddressMask ∉ a.pages ∧ new ≠ some (y &&& pageAddressMask) := by
    rcases hpages with ⟨rfl, -, hpages⟩ | ⟨p, rfl, hp', hpages⟩
    · rw [hpages]
      exact ⟨hp, by simp⟩
    · obtain ⟨hsupply, -, -⟩ := PageSupply.alloc_ok hp'
      have hne : y &&& pageAddressMask ≠ p := by
        rintro rfl
        exact hs (hsupply ▸ List.mem_cons_self)
      rw [hpages, List.mem_cons, not_or]
      exact ⟨⟨hne, hp⟩, fun hh => hne (Option.some.inj hh).symm⟩
  refine ⟨if_neg hout.2, ?_, fun hh => hs (hsub hh), hout.1⟩
  rintro rfl
  exact hout.1 hmem

end Slab

namespace FsKernel

variable {k k' k'' : FsKernel}

def inodeSlots (k : FsKernel) : List U64 := k.fs.inodes.slots

def dentrySlots (k : FsKernel) : List U64 := k.fs.dentries.slots

def exfatSlots (k : FsKernel) : List U64 := k.exfatInodes.slots

def fileSlots (k : FsKernel) : List U64 := k.files.allocatedSlots

/-- An inode that is in use. -/
def Known (k : FsKernel) (i : U64) : Prop := i ∈ k.inodeSlots ∨ i ∈ k.statics

def KnownDentry (k : FsKernel) (d : U64) : Prop := d ∈ k.dentrySlots ∨ d ∈ k.statics

def OnExfat (k : FsKernel) (i : U64) : Prop := ∃ sb partition, k.typeOf i = .exfat sb partition

/-- A directory on exFAT that has not been loaded. -/
structure NeedsLoad (k : FsKernel) (i : U64) : Prop where
  onExfat : k.OnExfat i
  directory : (k.inode i).type = inodeDirectory
  loadNeeded : (k.exfatInodes.objects (k.inode i).privateData).loadNeeded = true

/-- A variable of the kernel, which is on no page of a slab. -/
structure Outside (k : FsKernel) (y : U64) : Prop where
  supply : y &&& pageAddressMask ∉ k.fs.supply.pages
  inodes : y &&& pageAddressMask ∉ k.fs.inodes.allocator.pages
  dentries : y &&& pageAddressMask ∉ k.fs.dentries.allocator.pages

/-- The first address that no program has. -/
def userEnd : Nat := 0x800000000000

/-- The dentries are in the kernel's half of the memory. -/
structure DentryPages (k : FsKernel) : Prop where
  supply : ∀ p ∈ k.fs.supply.pages, userEnd ≤ p.toNat
  pages : ∀ p ∈ k.fs.dentries.allocator.pages, userEnd ≤ p.toNat
  size : k.fs.dentries.allocator.objectSize = 96

theorem DentryPages.of_subset (h : k.DentryPages) (hs : k'.fs.supply.pages ⊆ k.fs.supply.pages)
    (hd : k'.fs.dentries.allocator = k.fs.dentries.allocator) : k'.DentryPages :=
  ⟨fun p hp => h.supply p (hs hp), hd ▸ h.pages, hd ▸ h.size⟩

/-- The slabs are in order. -/
structure Slabs (k : FsKernel) : Prop where
  inodes : Slab.Ok k.fs.supply k.fs.inodes k.inodeSlots
  dentries : Slab.Ok k.fs.supply k.fs.dentries k.dentrySlots
  exfatInodes : Slab.Ok k.fs.supply k.exfatInodes k.exfatSlots
  exfatFileClusters : Slab.Ok k.fs.supply k.exfatFileClusters k.exfatFileClusters.slots
  files : SlabInv k.files k.fileSlots
  filesFresh : ∀ p ∈ k.fs.supply.pages, p ∉ k.files.pages
  statics : ∀ y ∈ k.statics, k.Outside y
  dentryPages : k.DentryPages

/-- The inodes in use lead to such again, and those on exFAT have their other half. -/
structure Inv (k : FsKernel) : Prop extends Slabs k where
  root : k.Known k.vfsRootInode
  privates : ∀ i, k.Known i → k.OnExfat i → (k.inode i).privateData ∈ k.exfatSlots
  entries : ∀ i, k.Known i → (k.inode i).type = inodeDirectory → ∀ d ∈ (k.inode i).dentries,
    k.KnownDentry d ∧ k.Known (k.tree.behind d)

/-- `k'` is `k` with directories loaded: new entries with new slots, and nothing else
that an old inode or the set of files could tell. Every new slot is one of an entry. -/
structure Grown (k k' : FsKernel) : Prop where
  inodes : k.inodeSlots ⊆ k'.inodeSlots
  dentries : k.dentrySlots ⊆ k'.dentrySlots
  exfat : k.exfatSlots ⊆ k'.exfatSlots
  files : k'.files = k.files
  statics : k'.statics = k.statics
  superblocks : k'.superblocks = k.superblocks
  entries : ∀ i, k.Known i → ∃ new,
    k'.inode i = { k.inode i with dentries := (k.inode i).dentries ++ new } ∧
      (new ≠ [] → k.NeedsLoad i) ∧ ∀ d ∈ new, d ∈ k'.dentrySlots ∧ d ∉ k.dentrySlots
  loaded : ∀ i, k.Known i → k'.NeedsLoad i → k.NeedsLoad i
  behind : ∀ d, k.KnownDentry d → k'.tree.behind d = k.tree.behind d
  newDentries : ∀ d ∈ k'.dentrySlots, d ∉ k.dentrySlots →
    ∃ dir, k'.Known dir ∧ k'.OnExfat dir ∧ d ∈ (k'.inode dir).dentries
  newInodes : ∀ i ∈ k'.inodeSlots, i ∉ k.inodeSlots →
    ∃ d ∈ k'.dentrySlots, d ∉ k.dentrySlots ∧ k'.tree.behind d = i
  still : (∀ i, k.Known i → ¬k.NeedsLoad i) →
    k'.inodeSlots ⊆ k.inodeSlots ∧ k'.dentrySlots ⊆ k.dentrySlots

namespace Grown

theorem refl (k : FsKernel) : Grown k k where
  inodes := List.Subset.refl _
  dentries := List.Subset.refl _
  exfat := List.Subset.refl _
  files := rfl
  statics := rfl
  superblocks := rfl
  entries i _ := ⟨[], by simp, by simp, by simp⟩
  loaded _ _ h := h
  behind _ _ := rfl
  newDentries _ h hn := absurd h hn
  newInodes _ h hn := absurd h hn
  still _ := ⟨List.Subset.refl _, List.Subset.refl _⟩

theorem known (h : Grown k k') {i : U64} (hi : k.Known i) : k'.Known i :=
  hi.imp (fun hh => h.inodes hh) fun hh => h.statics ▸ hh

theorem knownDentry (h : Grown k k') {d : U64} (hd : k.KnownDentry d) : k'.KnownDentry d :=
  hd.imp (fun hh => h.dentries hh) fun hh => h.statics ▸ hh

theorem typeOf (h : Grown k k') {i : U64} (hi : k.Known i) : k'.typeOf i = k.typeOf i := by
  obtain ⟨new, he, -, -⟩ := h.entries i hi
  rw [FsKernel.typeOf, FsKernel.typeOf, he, h.superblocks]

theorem trans (h : Grown k k') (h' : Grown k' k'') : Grown k k'' where
  inodes := List.Subset.trans h.inodes h'.inodes
  dentries := List.Subset.trans h.dentries h'.dentries
  exfat := List.Subset.trans h.exfat h'.exfat
  files := h'.files.trans h.files
  statics := h'.statics.trans h.statics
  superblocks := h'.superblocks.trans h.superblocks
  entries i hi := by
    obtain ⟨new, he, hneeds, hnew⟩ := h.entries i hi
    obtain ⟨new', he', hneeds', hnew'⟩ := h'.entries i (h.known hi)
    refine ⟨new ++ new', ?_, ?_, ?_⟩
    · rw [he', he, List.append_assoc]
    · intro hne
      by_cases hz : new = []
      · rw [hz, List.nil_append] at hne
        exact h.loaded i hi (hneeds' hne)
      · exact hneeds hz
    · intro d hd
      rcases List.mem_append.mp hd with hd | hd
      · exact ⟨h'.dentries (hnew d hd).1, (hnew d hd).2⟩
      · exact ⟨(hnew' d hd).1, fun hh => (hnew' d hd).2 (h.dentries hh)⟩
  loaded i hi hh := h.loaded i hi (h'.loaded i (h.known hi) hh)
  behind d hd := (h'.behind d (h.knownDentry hd)).trans (h.behind d hd)
  newDentries d hd hn := by
    by_cases hd' : d ∈ k'.dentrySlots
    · obtain ⟨dir, hdir, ⟨sb, partition, htype⟩, hmem⟩ := h.newDentries d hd' hn
      obtain ⟨new, he, -, -⟩ := h'.entries dir hdir
      refine ⟨dir, h'.known hdir, ⟨sb, partition, (h'.typeOf hdir).trans htype⟩, ?_⟩
      rw [he]
      exact List.mem_append_left new hmem
    · exact h'.newDentries d hd hd'
  newInodes i hi hn := by
    by_cases hi' : i ∈ k'.inodeSlots
    · obtain ⟨d, hd, hdn, hb⟩ := h.newInodes i hi' hn
      exact ⟨d, h'.dentries hd, hdn, (h'.behind d (.inl hd)).trans hb⟩
    · obtain ⟨d, hd, hdn, hb⟩ := h'.newInodes i hi hi'
      exact ⟨d, hd, fun hh => hdn (h.dentries hh), hb⟩
  still hn := by
    obtain ⟨hi, hd⟩ := h.still hn
    have hknown : ∀ i, k'.Known i → k.Known i :=
      fun i hh => hh.imp (fun hh => hi hh) fun hh => h.statics ▸ hh
    obtain ⟨hi', hd'⟩ := h'.still fun i hk hh =>
      hn i (hknown i hk) (h.loaded i (hknown i hk) hh)
    exact ⟨List.Subset.trans hi' hi, List.Subset.trans hd' hd⟩

end Grown

/-- What an allocation of any kind of slot keeps. -/
structure AllocFrame (k k' : FsKernel) : Prop where
  slabs : k'.Slabs
  files : k'.files = k.files
  statics : k'.statics = k.statics
  superblocks : k'.superblocks = k.superblocks
  root : k'.vfsRootInode = k.vfsRootInode
  records : k'.fs.ramfsInodes = k.fs.ramfsInodes
  supply : k'.fs.supply.pages ⊆ k.fs.supply.pages

structure InodeAlloc (k k' : FsKernel) (i : U64) : Prop extends AllocFrame k k' where
  new : ¬k.Known i
  slots : k'.inodeSlots.Perm (i :: k.inodeSlots)
  kept : ∀ y, k.Known y → k'.inode y = k.inode y
  dentries : k'.fs.dentries = k.fs.dentries
  exfatInodes : k'.exfatInodes = k.exfatInodes

structure DentryAlloc (k k' : FsKernel) (d : U64) : Prop extends AllocFrame k k' where
  new : ¬k.KnownDentry d
  slots : k'.dentrySlots.Perm (d :: k.dentrySlots)
  kept : ∀ y, k.KnownDentry y → k'.fs.dentries.objects y = k.fs.dentries.objects y
  inodes : k'.fs.inodes = k.fs.inodes
  exfatInodes : k'.exfatInodes = k.exfatInodes
  pages : k'.fs.dentries.allocator.pages ⊆ k.fs.dentries.allocator.pages ++ k.fs.supply.pages

structure ExfatInodeAlloc (k k' : FsKernel) (e : U64) : Prop extends AllocFrame k k' where
  new : e ∉ k.exfatSlots
  slots : k'.exfatSlots.Perm (e :: k.exfatSlots)
  kept : ∀ y ∈ k.exfatSlots, k'.exfatInodes.objects y = k.exfatInodes.objects y
  inodes : k'.fs.inodes = k.fs.inodes
  dentries : k'.fs.dentries = k.fs.dentries

namespace Slabs

/-- What is in the slots plays no part. -/
theorem congr (h : k.Slabs) (hsupply : k'.fs.supply = k.fs.supply)
    (hinodes : k'.fs.inodes.allocator = k.fs.inodes.allocator)
    (hdentries : k'.fs.dentries.allocator = k.fs.dentries.allocator)
    (hexfat : k'.exfatInodes.allocator = k.exfatInodes.allocator)
    (hclusters : k'.exfatFileClusters.allocator = k.exfatFileClusters.allocator)
    (hfiles : k'.files = k.files) (hstatics : k'.statics = k.statics) : k'.Slabs := by
  constructor
  · exact h.inodes.congr_slots hsupply hinodes
  · exact h.dentries.congr_slots hsupply hdentries
  · exact h.exfatInodes.congr_slots hsupply hexfat
  · exact h.exfatFileClusters.congr_slots hsupply hclusters
  · rw [fileSlots, hfiles]
    exact h.files
  · rw [hsupply, hfiles]
    exact h.filesFresh
  · intro y hy
    have ho := h.statics y (hstatics ▸ hy)
    exact ⟨hsupply ▸ ho.supply, hinodes ▸ ho.inodes, hdentries ▸ ho.dentries⟩
  · exact h.dentryPages.of_subset (hsupply ▸ List.Subset.refl _) hdentries

theorem inodeAlloc (h : k.Slabs) {i : U64} (ha : k.inodeAlloc = .ok (i, k')) :
    InodeAlloc k k' i := by
  obtain ⟨⟨j, supply, inodes⟩, hslab, he⟩ := bind_eq_ok ha
  simp only [Except.ok.injEq, Prod.mk.injEq] at he
  obtain ⟨rfl, rfl⟩ := he
  obtain ⟨hok, hperm⟩ := h.inodes.alloc_slots hslab
  have halloc := h.inodes.alloc hslab
  have hsub := halloc.supply_subset
  have hout : ∀ y ∈ k.statics, _ := fun y hy =>
    Slab.alloc_outside h.inodes hslab (h.statics y hy).supply (h.statics y hy).inodes
  refine ⟨⟨⟨hok, h.dentries.of_subset hsub, h.exfatInodes.of_subset hsub,
    h.exfatFileClusters.of_subset hsub, h.files, fun p hp => h.filesFresh p (hsub hp), ?_,
    h.dentryPages.of_subset hsub rfl⟩, rfl, rfl, rfl, rfl, rfl, hsub⟩, ?_, hperm, ?_, rfl, rfl⟩
  · intro y hy
    exact ⟨(hout y hy).2.2.1, (hout y hy).2.2.2, (h.statics y hy).dentries⟩
  · rintro (hi | hi)
    · exact halloc.not_live hi
    · exact (hout j hi).2.1 rfl
  · rintro y (hy | hy)
    · exact halloc.objects y hy
    · exact (hout y hy).1

theorem dentryAlloc (h : k.Slabs) {d : U64} (ha : k.dentryAlloc = .ok (d, k')) :
    DentryAlloc k k' d := by
  obtain ⟨⟨j, supply, dentries⟩, hslab, he⟩ := bind_eq_ok ha
  simp only [Except.ok.injEq, Prod.mk.injEq] at he
  obtain ⟨rfl, rfl⟩ := he
  obtain ⟨hok, hperm⟩ := h.dentries.alloc_slots hslab
  have halloc := h.dentries.alloc hslab
  have hsub := halloc.supply_subset
  have hout : ∀ y ∈ k.statics, _ := fun y hy =>
    Slab.alloc_outside h.dentries hslab (h.statics y hy).supply (h.statics y hy).dentries
  refine ⟨⟨⟨h.inodes.of_subset hsub, hok, h.exfatInodes.of_subset hsub,
    h.exfatFileClusters.of_subset hsub, h.files, fun p hp => h.filesFresh p (hsub hp), ?_, ?_⟩,
    rfl, rfl, rfl, rfl, rfl, hsub⟩, ?_, hperm, ?_, rfl, rfl, (h.dentries.alloc_pages hslab).1⟩
  · intro y hy
    exact ⟨(hout y hy).2.2.1, (h.statics y hy).inodes, (hout y hy).2.2.2⟩
  · obtain ⟨hpages, hsize⟩ := h.dentries.alloc_pages hslab
    refine ⟨fun p hp => h.dentryPages.supply p (hsub hp), fun p hp => ?_,
      hsize.trans h.dentryPages.size⟩
    exact (List.mem_append.mp (hpages hp)).elim (h.dentryPages.pages p) (h.dentryPages.supply p)
  · rintro (hi | hi)
    · exact halloc.not_live hi
    · exact (hout j hi).2.1 rfl
  · rintro y (hy | hy)
    · exact halloc.objects y hy
    · exact (hout y hy).1

theorem shrinkSupply (h : k.Slabs) {supply : PageSupply} (hsub : supply.pages ⊆ k.fs.supply.pages) :
    Slabs { k with fs := { k.fs with supply } } :=
  ⟨h.inodes.of_subset hsub, h.dentries.of_subset hsub, h.exfatInodes.of_subset hsub,
    h.exfatFileClusters.of_subset hsub, h.files, fun p hp => h.filesFresh p (hsub hp),
    fun y hy => ⟨fun hh => (h.statics y hy).supply (hsub hh), (h.statics y hy).inodes,
      (h.statics y hy).dentries⟩, h.dentryPages.of_subset hsub rfl⟩

theorem exfatInodeAlloc (h : k.Slabs) {e : U64} (ha : k.exfatInodeAlloc = .ok (e, k')) :
    ExfatInodeAlloc k k' e := by
  obtain ⟨⟨j, supply, exfatInodes⟩, hslab, he⟩ := bind_eq_ok ha
  simp only [Except.ok.injEq, Prod.mk.injEq] at he
  obtain ⟨rfl, rfl⟩ := he
  obtain ⟨hok, hperm⟩ := h.exfatInodes.alloc_slots hslab
  have halloc := h.exfatInodes.alloc hslab
  have hshrink := h.shrinkSupply halloc.supply_subset
  have hpages : DentryPages { k with fs := { k.fs with supply }, exfatInodes } :=
    hshrink.dentryPages.of_subset (List.Subset.refl _) rfl
  refine ⟨⟨⟨hshrink.inodes, hshrink.dentries, hok, hshrink.exfatFileClusters, hshrink.files,
    hshrink.filesFresh, ?_, hpages⟩, rfl, rfl, rfl, rfl, rfl, halloc.supply_subset⟩, halloc.not_live, hperm, halloc.objects, rfl, rfl⟩
  exact fun y hy => ⟨(hshrink.statics y hy).supply, (h.statics y hy).inodes,
    (h.statics y hy).dentries⟩

/-- A new cluster of a file touches no slab but that of the clusters. -/
theorem exfatFileClusterAlloc (h : k.Slabs) {c : U64}
    (ha : k.exfatFileClusterAlloc = .ok (c, k')) :
    AllocFrame k k' ∧ k'.fs.inodes = k.fs.inodes ∧ k'.fs.dentries = k.fs.dentries ∧
      k'.exfatInodes = k.exfatInodes := by
  obtain ⟨⟨j, supply, exfatFileClusters⟩, hslab, he⟩ := bind_eq_ok ha
  simp only [Except.ok.injEq, Prod.mk.injEq] at he
  obtain ⟨rfl, rfl⟩ := he
  have hok := (h.exfatFileClusters.alloc_slots hslab).1
  have hsub := (h.exfatFileClusters.alloc hslab).supply_subset
  have hshrink := h.shrinkSupply hsub
  have hpages : DentryPages { k with fs := { k.fs with supply }, exfatFileClusters } :=
    hshrink.dentryPages.of_subset (List.Subset.refl _) rfl
  refine ⟨⟨⟨hshrink.inodes, hshrink.dentries, hshrink.exfatInodes, hok, hshrink.files,
    hshrink.filesFresh, ?_, hpages⟩, rfl, rfl, rfl, rfl, rfl, hsub⟩, rfl, rfl, rfl⟩
  exact fun y hy => ⟨(hshrink.statics y hy).supply, (h.statics y hy).inodes,
    (h.statics y hy).dentries⟩

end Slabs

/-- What a directory entry of type 0x85 leaves: a dentry, an inode and the exFAT half of
it, all of them new. -/
structure FileEntry (k k' : FsKernel) (dir d i e : U64) : Prop where
  slabs : k'.Slabs
  newInode : ¬k.Known i
  newDentry : ¬k.KnownDentry d
  newExfat : e ∉ k.exfatSlots
  inodeSlots : k'.inodeSlots.Perm (i :: k.inodeSlots)
  dentrySlots : k'.dentrySlots.Perm (d :: k.dentrySlots)
  exfatSlots : k'.exfatSlots.Perm (e :: k.exfatSlots)
  kept : ∀ y, k.Known y → y ≠ dir → k'.inode y = k.inode y
  parent : k'.inode dir = { k.inode dir with dentries := (k.inode dir).dentries ++ [d] }
  superblock : (k'.inode i).superblock = (k.inode dir).superblock
  privateData : (k'.inode i).privateData = e
  empty : (k'.inode i).type = inodeDirectory → (k'.inode i).dentries = []
  dentries : ∀ y, k.KnownDentry y → k'.fs.dentries.objects y = k.fs.dentries.objects y
  behind : k'.tree.behind d = i
  exfat : ∀ y ∈ k.exfatSlots, k'.exfatInodes.objects y = k.exfatInodes.objects y
  files : k'.files = k.files
  statics : k'.statics = k.statics
  superblocks : k'.superblocks = k.superblocks
  root : k'.vfsRootInode = k.vfsRootInode

/-- The type of a new inode is all that is set with it. -/
structure TypeSet (k k' : FsKernel) (i e : U64) : Prop where
  inodes : k'.fs.inodes.allocator = k.fs.inodes.allocator
  kept : ∀ y, y ≠ i → k'.inode y = k.inode y
  superblock : (k'.inode i).superblock = (k.inode i).superblock
  privateData : (k'.inode i).privateData = (k.inode i).privateData
  empty : (k'.inode i).type = inodeDirectory → (k'.inode i).dentries = []
  supply : k'.fs.supply = k.fs.supply
  dentries : k'.fs.dentries = k.fs.dentries
  exfatInodes : k'.exfatInodes.allocator = k.exfatInodes.allocator
  exfat : ∀ y, y ≠ e → k'.exfatInodes.objects y = k.exfatInodes.objects y
  exfatFileClusters : k'.exfatFileClusters = k.exfatFileClusters
  files : k'.files = k.files
  statics : k'.statics = k.statics
  superblocks : k'.superblocks = k.superblocks
  root : k'.vfsRootInode = k.vfsRootInode

theorem setFileType_typeSet (k : FsKernel) (x : Nat → U8) (i e : U64) :
    TypeSet k (k.setFileType x i e) i e := by
  rw [setFileType]
  split
  · refine ⟨rfl, fun y hy => inode_modifyInode_ne k hy _, ?_, ?_, ?_, rfl, rfl, rfl,
      fun _ _ => rfl, rfl, rfl, rfl, rfl, rfl⟩
    · rw [inode_modifyInode_self]
    · rw [inode_modifyInode_self]
    · rw [inode_modifyInode_self]
      exact fun _ => rfl
  · have hself : (FsKernel.modifyExfatInode ((k.modifyInode i fun inode =>
        { inode with type := inodeRegularFile }).setFileLength i 0) e fun n =>
          { n with fileClusters := [] }).inode i =
        { k.inode i with type := inodeRegularFile } := inode_modifyInode_self k i _
    refine ⟨rfl, fun y hy => inode_modifyInode_ne k hy _, ?_, ?_, ?_, rfl, rfl, rfl,
      fun y hy => k.exfatInodes.modify_objects_ne hy fun n => { n with fileClusters := [] },
      rfl, rfl, rfl, rfl, rfl⟩
    · rw [hself]
    · rw [hself]
    · rw [hself]
      exact fun hh => absurd (a := inodeRegularFile = inodeDirectory) hh (by decide)

theorem Slabs.loadFileEntry (h : k.Slabs) {dir d : U64} (hdir : k.Known dir) {x : Nat → U8}
    (hl : k.loadFileEntry dir x = .ok (d, k')) : ∃ i e, FileEntry k k' dir d i e := by
  obtain ⟨⟨d', k₁⟩, hd, hl⟩ := bind_eq_ok hl
  have h₁ := h.dentryAlloc hd
  obtain ⟨⟨i, k₂⟩, hi, hl⟩ := bind_eq_ok hl
  have hslabs₁ : (k₁.modifyDentry d' fun _ =>
    ⟨List.replicate (dentryMaxNameLength + 1) 0, 0, 0⟩).Slabs :=
    h₁.slabs.congr rfl rfl rfl rfl rfl rfl rfl
  have h₂ := hslabs₁.inodeAlloc hi
  obtain ⟨⟨e, k₃⟩, he, hl⟩ := bind_eq_ok hl
  have hslabs₂ : (k₂.modifyInode i fun inode =>
    { inode with superblock := (k₂.inode dir).superblock }).Slabs :=
    h₂.slabs.congr rfl rfl rfl rfl rfl rfl rfl
  have h₃ := hslabs₂.exfatInodeAlloc he
  simp only [Except.ok.injEq, Prod.mk.injEq] at hl
  obtain ⟨rfl, rfl⟩ := hl
  have h₄ := setFileType_typeSet (((k₃.modifyInode i fun inode =>
    { inode with privateData := e }).modifyDentry d' fun dentry =>
      { dentry with inode := i }).addDentry dir d') x i e
  generalize FsKernel.setFileType _ x i e = k₄ at h₄ ⊢
  have hknown : ∀ y, k.Known y ↔ (k₁.modifyDentry d' fun _ =>
      ⟨List.replicate (dentryMaxNameLength + 1) 0, 0, 0⟩).Known y := by
    intro y
    have hs : k₁.inodeSlots = k.inodeSlots := congrArg Slab.slots h₁.inodes
    exact or_congr (by rw [← hs]; rfl) (by rw [← h₁.statics]; rfl)
  have hnew : ¬k.Known i := fun hh => h₂.new ((hknown i).mp hh)
  have hne : dir ≠ i := fun hh => hnew (hh ▸ hdir)
  have hkept : ∀ y, k.Known y → k₃.inode y = k.inode y := by
    intro y hy
    have hyi : y ≠ i := fun hh => hnew (hh ▸ hy)
    have hstep : k₃.inode y = k₂.inode y :=
      (congrArg (fun slab => slab.objects y) h₃.inodes).trans (inode_modifyInode_ne k₂ hyi _)
    rw [hstep, h₂.kept y ((hknown y).mp hy)]
    exact congrArg (fun slab => slab.objects y) h₁.inodes
  have hslabs₄ : k₄.Slabs := by
    refine h₃.slabs.congr h₄.supply h₄.inodes ?_ h₄.exfatInodes ?_ h₄.files h₄.statics
    · rw [h₄.dentries]
      rfl
    · rw [h₄.exfatFileClusters]
      rfl
  have hinodes : k₄.inodeSlots = k₂.inodeSlots := by
    have hs₄ : k₄.inodeSlots = k₃.inodeSlots := congrArg SlabAllocator.allocatedSlots h₄.inodes
    rw [hs₄, inodeSlots, h₃.inodes]
    rfl
  have hdentries : k₄.dentrySlots = k₁.dentrySlots := by
    have hs₄ : k₄.dentrySlots = k₃.dentrySlots := by
      rw [dentrySlots, h₄.dentries]
      rfl
    have hs₃ : k₃.dentrySlots = k₂.dentrySlots := by
      rw [dentrySlots, h₃.dentries]
      rfl
    rw [hs₄, hs₃, dentrySlots, h₂.dentries]
    rfl
  have hexfat₂ : k₂.exfatInodes = k.exfatInodes := h₂.exfatInodes.trans h₁.exfatInodes
  have hexfat : k₄.exfatSlots = k₃.exfatSlots :=
    congrArg SlabAllocator.allocatedSlots h₄.exfatInodes
  have hdentry : ∀ y, k₃.fs.dentries.objects y = (k₁.fs.dentries.modify d' fun _ =>
      ⟨List.replicate (dentryMaxNameLength + 1) 0, 0, 0⟩).objects y := by
    intro y
    exact congrArg (fun slab => slab.objects y) (h₃.dentries.trans h₂.dentries)
  have hchild : k₃.inode i = { k₂.inode i with superblock := (k₂.inode dir).superblock } :=
    (congrArg (fun slab => slab.objects i) h₃.inodes).trans (inode_modifyInode_self k₂ i _)
  have hparent : (k₂.inode dir).superblock = (k.inode dir).superblock := by
    rw [h₂.kept dir ((hknown dir).mp hdir)]
    exact congrArg (fun slab => (slab.objects dir).superblock) h₁.inodes
  have hbefore : ∀ y, y ≠ dir → (((k₃.modifyInode i fun inode =>
      { inode with privateData := e }).modifyDentry d' fun dentry =>
        { dentry with inode := i }).addDentry dir d').inode y =
      (k₃.modifyInode i fun inode => { inode with privateData := e }).inode y :=
    fun y hy => inode_modifyInode_ne _ hy _
  refine ⟨i, e, ?_⟩
  constructor
  · exact hslabs₄.congr rfl rfl rfl rfl rfl rfl rfl
  · exact hnew
  · exact h₁.new
  · intro hh
    refine h₃.new ?_
    change e ∈ k₂.exfatSlots
    rwa [exfatSlots, hexfat₂]
  · have hperm := h₂.slots
    rw [← hinodes] at hperm
    exact hperm.trans (List.Perm.of_eq (congrArg (i :: ·) (congrArg Slab.slots h₁.inodes)))
  · exact (List.Perm.of_eq hdentries).trans h₁.slots
  · have hperm := h₃.slots
    rw [← hexfat] at hperm
    exact hperm.trans (List.Perm.of_eq (congrArg (e :: ·) (congrArg Slab.slots hexfat₂)))
  · intro y hy hyd
    have hyi : y ≠ i := fun hh => hnew (hh ▸ hy)
    refine (h₄.kept y hyi).trans ((hbefore y hyd).trans ?_)
    rw [inode_modifyInode_ne _ hyi, hkept y hy]
  · refine (h₄.kept dir hne).trans ((inode_modifyInode_self _ dir _).trans ?_)
    have hdir₃ : (k₃.modifyInode i fun inode => { inode with privateData := e }).inode dir =
        k.inode dir := by rw [inode_modifyInode_ne _ hne, hkept dir hdir]
    exact congrArg (fun inode : Inode => { inode with dentries := inode.dentries ++ [d'] }) hdir₃
  · refine h₄.superblock.trans ?_
    rw [hbefore i hne.symm, inode_modifyInode_self, hchild]
    exact hparent
  · refine h₄.privateData.trans ?_
    rw [hbefore i hne.symm, inode_modifyInode_self]
  · exact h₄.empty
  · intro y hy
    have hyd : y ≠ d' := fun hh => h₁.new (hh ▸ hy)
    have hlast : k₄.fs.dentries.objects y = k₃.fs.dentries.objects y :=
      (congrArg (fun slab => slab.objects y) h₄.dentries).trans
        (k₃.fs.dentries.modify_objects_ne hyd fun dentry => { dentry with inode := i })
    refine hlast.trans ((hdentry y).trans ?_)
    rw [Slab.modify_objects_ne _ hyd, h₁.kept y hy]
  · have hobject : k₄.fs.dentries.objects d' = ⟨List.replicate (dentryMaxNameLength + 1) 0, 0, i⟩ := by
      have hlast : k₄.fs.dentries.objects d' = { k₃.fs.dentries.objects d' with inode := i } :=
        (congrArg (fun slab => slab.objects d') h₄.dentries).trans
          (k₃.fs.dentries.modify_objects_self d' fun dentry => { dentry with inode := i })
      rw [hlast, hdentry d', Slab.modify_objects_self]
    have hmounted : (k₄.fs.dentries.objects d').mountedInode = 0 := by rw [hobject]
    have hinode : (k₄.fs.dentries.objects d').inode = i := by rw [hobject]
    exact (if_neg (not_not_intro hmounted)).trans hinode
  · intro y hy
    have hy₂ : y ∈ k₂.exfatSlots := by rwa [exfatSlots, hexfat₂]
    have hye : y ≠ e := fun hh => h₃.new (hh ▸ hy₂)
    have hlast : k₄.exfatInodes.objects y = k₃.exfatInodes.objects y := h₄.exfat y hye
    refine (k₄.exfatInodes.modify_objects_ne hye fun n => { n with loadNeeded := true }).trans ?_
    exact (hlast.trans (h₃.kept y hy₂)).trans (congrArg (fun slab => slab.objects y) hexfat₂)
  · exact h₄.files.trans (h₃.files.trans (h₂.files.trans h₁.files))
  · exact h₄.statics.trans (h₃.statics.trans (h₂.statics.trans h₁.statics))
  · exact h₄.superblocks.trans (h₃.superblocks.trans (h₂.superblocks.trans h₁.superblocks))
  · exact h₄.root.trans (h₃.root.trans (h₂.root.trans h₁.root))

namespace FileEntry

variable {dir d i e : U64}

theorem known_iff (h : FileEntry k k' dir d i e) (y : U64) : k'.Known y ↔ y = i ∨ k.Known y := by
  rw [Known, Known, h.inodeSlots.mem_iff, List.mem_cons, h.statics, or_assoc]

/-- An old inode has the same type and halves as before. -/
theorem same (h : FileEntry k k' dir d i e) {y : U64} (hy : k.Known y) :
    (k'.inode y).type = (k.inode y).type ∧ (k'.inode y).superblock = (k.inode y).superblock ∧
      (k'.inode y).privateData = (k.inode y).privateData := by
  by_cases hd : y = dir
  · rw [hd, h.parent]
    exact ⟨rfl, rfl, rfl⟩
  · rw [h.kept y hy hd]
    exact ⟨rfl, rfl, rfl⟩

theorem onExfat_iff (h : FileEntry k k' dir d i e) {y : U64} (hy : k.Known y) :
    k'.OnExfat y ↔ k.OnExfat y := by
  rw [OnExfat, OnExfat, typeOf, typeOf, (h.same hy).2.1, h.superblocks]

theorem needsLoad_iff (h : FileEntry k k' dir d i e) (hk : k.Inv) {y : U64} (hy : k.Known y) :
    k'.NeedsLoad y ↔ k.NeedsLoad y := by
  obtain ⟨htype, -, hprivate⟩ := h.same hy
  constructor
  · intro hn
    have hexfat := (h.onExfat_iff hy).mp hn.onExfat
    refine ⟨hexfat, htype ▸ hn.directory, ?_⟩
    rw [← h.exfat _ (hk.privates y hy hexfat), ← hprivate]
    exact hn.loadNeeded
  · intro hn
    refine ⟨(h.onExfat_iff hy).mpr hn.onExfat, htype ▸ hn.directory, ?_⟩
    rw [hprivate, h.exfat _ (hk.privates y hy hn.onExfat)]
    exact hn.loadNeeded

theorem behind_old (h : FileEntry k k' dir d i e) {c : U64} (hc : k.KnownDentry c) :
    k'.tree.behind c = k.tree.behind c := by
  have hobject : k'.tree.dentries c = k.tree.dentries c := h.dentries c hc
  unfold VfsTree.behind
  rw [hobject]

theorem grown (h : FileEntry k k' dir d i e) (hk : k.Inv) (hdir : k.Known dir)
    (hn : k.NeedsLoad dir) : Grown k k' where
  inodes y hy := h.inodeSlots.mem_iff.mpr (List.mem_cons_of_mem i hy)
  dentries y hy := h.dentrySlots.mem_iff.mpr (List.mem_cons_of_mem d hy)
  exfat y hy := h.exfatSlots.mem_iff.mpr (List.mem_cons_of_mem e hy)
  files := h.files
  statics := h.statics
  superblocks := h.superblocks
  entries y hy := by
    by_cases hd : y = dir
    · refine ⟨[d], hd ▸ h.parent, fun _ => hd ▸ hn, fun c hc => ?_⟩
      obtain rfl := List.mem_singleton.mp hc
      exact ⟨h.dentrySlots.mem_iff.mpr List.mem_cons_self, fun hh => h.newDentry (.inl hh)⟩
    · refine ⟨[], ?_, fun hh => absurd rfl hh, fun c hc => absurd hc List.not_mem_nil⟩
      rw [h.kept y hy hd, List.append_nil]
  loaded y hy := (h.needsLoad_iff hk hy).mp
  behind _ := h.behind_old
  newDentries c hc hnew := by
    obtain rfl : c = d := (List.mem_cons.mp (h.dentrySlots.mem_iff.mp hc)).resolve_right hnew
    refine ⟨dir, (h.known_iff dir).mpr (.inr hdir), (h.onExfat_iff hdir).mpr hn.onExfat, ?_⟩
    rw [h.parent]
    exact List.mem_append_right _ List.mem_cons_self
  newInodes y hy hnew := by
    obtain rfl : y = i := (List.mem_cons.mp (h.inodeSlots.mem_iff.mp hy)).resolve_right hnew
    exact ⟨d, h.dentrySlots.mem_iff.mpr List.mem_cons_self, fun hh => h.newDentry (.inl hh), h.behind⟩
  still hnone := absurd hn (hnone dir hdir)

theorem inv (h : FileEntry k k' dir d i e) (hk : k.Inv) : k'.Inv where
  toSlabs := h.slabs
  root := by
    rw [h.root]
    exact (h.known_iff _).mpr (.inr hk.root)
  privates y hy hexfat := by
    rcases (h.known_iff y).mp hy with rfl | hy
    · rw [h.privateData]
      exact h.exfatSlots.mem_iff.mpr List.mem_cons_self
    · rw [(h.same hy).2.2]
      exact h.exfatSlots.mem_iff.mpr (List.mem_cons_of_mem e
        (hk.privates y hy ((h.onExfat_iff hy).mp hexfat)))
  entries y hy htype c hc := by
    have hold : ∀ c ∈ (k.inode y).dentries, k.Known y → (k.inode y).type = inodeDirectory →
        k'.KnownDentry c ∧ k'.Known (k'.tree.behind c) := by
      intro c hc hy htype
      obtain ⟨hcd, hbehind⟩ := hk.entries y hy htype c hc
      rw [h.behind_old hcd]
      refine ⟨hcd.imp (fun hh => ?_) fun hh => h.statics ▸ hh, (h.known_iff _).mpr (.inr hbehind)⟩
      exact h.dentrySlots.mem_iff.mpr (List.mem_cons_of_mem d hh)
    rcases (h.known_iff y).mp hy with rfl | hy
    · rw [h.empty htype] at hc
      exact absurd hc List.not_mem_nil
    · rw [(h.same hy).1] at htype
      by_cases hd : y = dir
      · rw [hd, h.parent, List.mem_append, List.mem_singleton] at hc
        rcases hc with hc | rfl
        · exact hold c (hd ▸ hc) hy htype
        · rw [h.behind]
          exact ⟨.inl (h.dentrySlots.mem_iff.mpr List.mem_cons_self), (h.known_iff i).mpr (.inl rfl)⟩
      · rw [h.kept y hy hd] at hc
        exact hold c hc hy htype

end FileEntry

/-- A step that touches no entry list and allocates nothing that a tree is made of. -/
structure Quiet (k k' : FsKernel) : Prop extends AllocFrame k k' where
  inodes : k'.fs.inodes = k.fs.inodes
  dentrySlots : k'.dentrySlots = k.dentrySlots
  behind : ∀ d, k'.tree.behind d = k.tree.behind d
  exfatSlots : k'.exfatSlots = k.exfatSlots
  loaded : ∀ e, (k'.exfatInodes.objects e).loadNeeded = true →
    (k.exfatInodes.objects e).loadNeeded = true

namespace Quiet

theorem trans (h : Quiet k k') (h' : Quiet k' k'') : Quiet k k'' where
  slabs := h'.slabs
  files := h'.files.trans h.files
  statics := h'.statics.trans h.statics
  superblocks := h'.superblocks.trans h.superblocks
  root := h'.root.trans h.root
  records := h'.records.trans h.records
  supply := List.Subset.trans h'.supply h.supply
  inodes := h'.inodes.trans h.inodes
  dentrySlots := h'.dentrySlots.trans h.dentrySlots
  behind d := (h'.behind d).trans (h.behind d)
  exfatSlots := h'.exfatSlots.trans h.exfatSlots
  loaded e he := h.loaded e (h'.loaded e he)

theorem known_iff (h : Quiet k k') (y : U64) : k'.Known y ↔ k.Known y := by
  rw [Known, Known, inodeSlots, h.inodes, h.statics]
  rfl

theorem inode (h : Quiet k k') (y : U64) : k'.inode y = k.inode y :=
  congrArg (fun slab => slab.objects y) h.inodes

theorem onExfat_iff (h : Quiet k k') (y : U64) : k'.OnExfat y ↔ k.OnExfat y := by
  rw [OnExfat, OnExfat, typeOf, typeOf, h.inode, h.superblocks]

theorem grown (h : Quiet k k') : Grown k k' where
  inodes y hy := by
    rw [inodeSlots, h.inodes]
    exact hy
  dentries y hy := h.dentrySlots ▸ hy
  exfat y hy := h.exfatSlots ▸ hy
  files := h.files
  statics := h.statics
  superblocks := h.superblocks
  entries y _ := by
    refine ⟨[], ?_, fun hh => absurd rfl hh, fun c hc => absurd hc List.not_mem_nil⟩
    rw [h.inode, List.append_nil]
  loaded y _ hn := by
    refine ⟨(h.onExfat_iff y).mp hn.onExfat, h.inode y ▸ hn.directory, h.loaded _ ?_⟩
    rw [← h.inode y]
    exact hn.loadNeeded
  behind d _ := h.behind d
  newDentries d hd hn := absurd (h.dentrySlots ▸ hd) hn
  newInodes i hi hn := by
    rw [inodeSlots, h.inodes] at hi
    exact absurd hi hn
  still _ := by
    rw [inodeSlots, h.inodes, h.dentrySlots]
    exact ⟨List.Subset.refl _, List.Subset.refl _⟩

theorem inv (h : Quiet k k') (hk : k.Inv) : k'.Inv where
  toSlabs := h.slabs
  root := by
    rw [h.root]
    exact (h.known_iff _).mpr hk.root
  privates y hy hexfat := by
    rw [h.inode, h.exfatSlots]
    exact hk.privates y ((h.known_iff y).mp hy) ((h.onExfat_iff y).mp hexfat)
  entries y hy htype d hd := by
    rw [h.inode] at htype hd
    obtain ⟨hcd, hbehind⟩ := hk.entries y ((h.known_iff y).mp hy) htype d hd
    rw [h.behind, h.known_iff, KnownDentry, h.dentrySlots, h.statics]
    exact ⟨hcd, hbehind⟩

end Quiet

end FsKernel

end Persistos
