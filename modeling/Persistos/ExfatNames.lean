import Persistos.ExfatDirLoads

/-! The names that the loader of a directory puts together from entries of any kind. It never
leaves the field of a name, but a name that fills its field has no end. -/

namespace Persistos

open Theory

/-- The characters of an entry of type 0xC1, of which the low bytes are kept. -/
def nameChars (x : Nat → U8) : List U8 := (List.range 15).map fun i => x (2 * (i + 1))

/-- An entry goes on with the last of the names, which comes first, or starts another. -/
def spell (names : List (List U8)) (x : Nat → U8) : List (List U8) :=
  if x 0 = 0x85 then [] :: names
  else if x 0 = 0xC1 then
    match names with
    | [] => []
    | name :: rest => (name ++ nameChars x) :: rest
  else names

def entryNames (xs : List (Nat → U8)) : List (List U8) := xs.foldl spell []

/-- A name that has an end in its field. -/
def FitsField (name : List U8) : Prop :=
  name.length ≤ dentryMaxNameLength ∨ 0 ∈ name.take (dentryMaxNameLength + 1)

namespace FsKernel

variable {k k' : FsKernel} {sb : ExfatSuperblock} {dir d : U64} {x : Nat → U8}
  {s s' : DirLoad} {ds : List U64} {names : List (List U8)}

/-- The places in the name field that `loadName` writes. -/
def loadNameWrites (fileNameIndex : U8) : Nat → Nat → List Nat
  | 0, _ => []
  | left + 1, i =>
    if fileNameIndex.toNat + i > dentryMaxNameLength then []
    else (fileNameIndex.toNat + i) :: loadNameWrites fileNameIndex left (i + 1)

def entryWrites (x : Nat → U8) (s : DirLoad) : List Nat :=
  if x 0 = 0xC1 ∧ s.fileDentry ≠ 0 then loadNameWrites s.fileNameIndex 15 0 else []

theorem loadName_writes (x : Nat → U8) (index : U8) (left i : Nat) (name : List U8) :
    (loadName x index left i name).1 =
      (loadNameWrites index left i).foldl
        (fun name j => name.set j (x (2 * (j - index.toNat + 1)))) name := by
  induction left generalizing i name with
  | zero => rfl
  | succ left ih =>
    rw [loadName, loadNameWrites]
    by_cases hfull : index.toNat + i > dentryMaxNameLength
    · rw [if_pos hfull, if_pos hfull]
      rfl
    · rw [if_neg hfull, if_neg hfull, ih, List.foldl_cons, Nat.add_sub_cancel_left]

theorem loadNameWrites_lt {index : U8} {left i : Nat} :
    ∀ j ∈ loadNameWrites index left i, j < dentryMaxNameLength + 1 := by
  induction left generalizing i with
  | zero => exact fun _ hj => absurd hj List.not_mem_nil
  | succ left ih =>
    intro j hj
    rw [loadNameWrites] at hj
    split at hj
    · exact absurd hj List.not_mem_nil
    · rcases List.mem_cons.mp hj with rfl | hj
      · omega
      · exact ih j hj

/-- The entries `xs` are taken without the null pointer, and no name is written outside of its
field or left without an end in it. -/
structure ParsesSafely (k : FsKernel) (sb : ExfatSuperblock) (dir : U64)
    (xs : List (Nat → U8)) : Prop where
  current : ∀ pre x s, pre ++ [x] <+: xs → loadAll sb dir pre ⟨k, 0, 0⟩ = .ok s →
    loadEntry sb dir x s ≠ .error .outOfBounds
  inside : ∀ pre x s, pre ++ [x] <+: xs → loadAll sb dir pre ⟨k, 0, 0⟩ = .ok s →
    ∀ j ∈ entryWrites x s, j < dentryMaxNameLength + 1
  terminated : ∀ s, loadAll sb dir xs ⟨k, 0, 0⟩ = .ok s →
    ∃ ds, (s.kernel.inode dir).dentries = (k.inode dir).dentries ++ ds ∧ ∀ d ∈ ds,
      (s.kernel.fs.dentries.objects d).name.length = dentryMaxNameLength + 1 ∧
        0 ∈ (s.kernel.fs.dentries.objects d).name

/-- The new dentries hold the names, both with the last one first. -/
structure Spelled (k : FsKernel) (dir : U64) (s : DirLoad) (ds : List U64)
    (names : List (List U8)) : Prop where
  slabs : s.kernel.Slabs
  known : s.kernel.Known dir
  list : (s.kernel.inode dir).dentries = (k.inode dir).dentries ++ ds.reverse
  knownDentries : ∀ d ∈ ds, s.kernel.KnownDentry d ∧ d ≠ 0
  nodup : ds.Nodup
  spelled : (ds.map fun d => (s.kernel.fs.dentries.objects d).name) =
    names.map fun name => nameField name name.length
  current : s.fileDentry = ds.headD 0
  index : s.fileNameIndex.toNat = min (dentryMaxNameLength + 1) (names.headD []).length

theorem nameField_length (name : List U8) (m : Nat) :
    (nameField name m).length = dentryMaxNameLength + 1 := by
  rw [nameField, List.length_map, List.length_range]

theorem zero_mem_nameField {name : List U8} :
    0 ∈ nameField name name.length ↔ FitsField name := by
  rw [nameField, List.mem_map, FitsField]
  constructor
  · rintro ⟨j, hj, hzero⟩
    have hlt := List.mem_range.mp hj
    by_cases hin : j < name.length
    · right
      rw [if_pos hin, List.getD, List.getElem?_eq_getElem hin, Option.getD_some] at hzero
      exact hzero ▸ List.mem_take_iff_getElem.mpr ⟨j, by omega, rfl⟩
    · left
      omega
  · rintro (hshort | hzero)
    · exact ⟨name.length, List.mem_range.mpr (by omega), if_neg (Nat.lt_irrefl _)⟩
    · obtain ⟨j, hj, hzero⟩ := List.mem_take_iff_getElem.mp hzero
      have hin : j < name.length := by omega
      refine ⟨j, List.mem_range.mpr (by omega), ?_⟩
      rw [if_pos hin, List.getD, List.getElem?_eq_getElem hin, Option.getD_some, hzero]

theorem nameChars_length (x : Nat → U8) : (nameChars x).length = 15 := by
  rw [nameChars, List.length_map, List.length_range]

theorem nameChars_getD {x : Nat → U8} {j : Nat} (hj : j < 15) :
    (nameChars x).getD j 0 = x (2 * (j + 1)) := by
  rw [nameChars, List.getD, List.getElem?_map, List.getElem?_range hj]
  rfl

/-- The characters of an entry go behind those that the name has, as far as the field. -/
theorem loadName_spells {x : Nat → U8} {index : U8} {name : List U8}
    (hindex : index.toNat = min (dentryMaxNameLength + 1) name.length) :
    ∃ i, loadName x index 15 0 (nameField name name.length) =
        (nameField (name ++ nameChars x) (name ++ nameChars x).length, i) ∧
      (index + BitVec.ofNat 8 i).toNat =
        min (dentryMaxNameLength + 1) (name ++ nameChars x).length := by
  have hload := loadName_eq x index 15 (i := 0) (by omega) (nameField_length name name.length)
  have hfield : ((List.range (dentryMaxNameLength + 1)).map fun j =>
      if index.toNat + 0 ≤ j ∧ j < index.toNat + 0 + 15 then x (2 * (j - index.toNat + 1))
      else (nameField name name.length).getD j 0) =
        nameField (name ++ nameChars x) (name ++ nameChars x).length := by
    refine List.map_congr_left fun j hj => ?_
    have hlt := List.mem_range.mp hj
    rw [List.length_append, nameChars_length]
    by_cases hin : index.toNat + 0 ≤ j ∧ j < index.toNat + 0 + 15
    · have hstart : index.toNat = name.length := by omega
      have hchar := nameChars_getD (x := x) (j := j - name.length) (by omega)
      rw [if_pos hin, if_pos (by omega), hstart, ← hchar, List.getD, List.getD,
        List.getElem?_append_right (by omega)]
    · rw [if_neg hin, nameField, List.getD, List.getElem?_map, List.getElem?_range hlt,
        Option.map_some, Option.getD_some]
      by_cases hold : j < name.length
      · rw [if_pos hold, if_pos (by omega), List.getD, List.getD, List.getElem?_append_left hold]
      · rw [if_neg hold, if_neg (by omega)]
  rw [hfield] at hload
  refine ⟨_, hload, ?_⟩
  rw [BitVec.toNat_add, BitVec.toNat_ofNat, hindex, List.length_append, nameChars_length]
  simp only [dentryMaxNameLength]
  omega

theorem loadInfoEntry_fs (k : FsKernel) (sb : ExfatSuperblock) (d : U64) (x : Nat → U8) :
    (k.loadInfoEntry sb d x).fs = k.fs := by
  rw [loadInfoEntry]
  split <;> rfl

theorem loadInfoEntry_statics (k : FsKernel) (sb : ExfatSuperblock) (d : U64) (x : Nat → U8) :
    (k.loadInfoEntry sb d x).statics = k.statics := by
  rw [loadInfoEntry]
  split <;> rfl

namespace Spelled

theorem start (hslabs : k.Slabs) (hdir : k.Known dir) : Spelled k dir ⟨k, 0, 0⟩ [] [] where
  slabs := hslabs
  known := hdir
  list := (List.append_nil _).symm
  knownDentries _ hd := absurd hd List.not_mem_nil
  nodup := List.nodup_nil
  spelled := rfl
  current := rfl
  index := rfl

theorem file (h : Spelled k dir s ds names) {i e : U64}
    (hnew : NewFile s.kernel k' dir d i e x) :
    Spelled k dir ⟨k', d, 0⟩ (d :: ds) ([] :: names) where
  slabs := hnew.slabs
  known := (hnew.known_iff dir).mpr (.inr h.known)
  list := by
    rw [hnew.parent, h.list, List.reverse_cons, List.append_assoc]
  knownDentries y hy := by
    rcases List.mem_cons.mp hy with rfl | hy
    · exact ⟨.inl hnew.filling.dentrySlot, hnew.filling.dentry_ne_zero⟩
    · exact ⟨hnew.filling.knownDentry y (h.knownDentries y hy).1, (h.knownDentries y hy).2⟩
  nodup := List.nodup_cons.mpr ⟨fun hd => hnew.newDentry (h.knownDentries d hd).1, h.nodup⟩
  spelled := by
    rw [List.map_cons, List.map_cons, ← h.spelled]
    refine congrArg₂ List.cons ?_ (List.map_congr_left fun y hy => ?_)
    · rw [hnew.dentry]
      exact (nameField_zero []).symm
    · rw [hnew.dentries y (h.knownDentries y hy).1]
  current := rfl
  index := rfl

theorem info (h : Spelled k dir s ds names) (hslabs : (s.kernel.loadInfoEntry sb d x).Slabs) :
    Spelled k dir { s with kernel := s.kernel.loadInfoEntry sb d x } ds names := by
  have hfs := loadInfoEntry_fs s.kernel sb d x
  have hstatics := loadInfoEntry_statics s.kernel sb d x
  constructor
  · exact hslabs
  · exact h.known.imp (fun hh => by rw [inodeSlots, hfs]; exact hh) fun hh => hstatics ▸ hh
  · have hlist := h.list
    rw [inode] at hlist ⊢
    rw [hfs]
    exact hlist
  · intro y hy
    exact ⟨(h.knownDentries y hy).1.imp (fun hh => by rw [dentrySlots, hfs]; exact hh)
      fun hh => hstatics ▸ hh, (h.knownDentries y hy).2⟩
  · exact h.nodup
  · rw [hfs]
    exact h.spelled
  · exact h.current
  · exact h.index

theorem name {name : List U8} (h : Spelled k dir s (d :: ds) (name :: names)) {i : Nat}
    (hindex : (s.fileNameIndex + BitVec.ofNat 8 i).toNat =
      min (dentryMaxNameLength + 1) (name ++ nameChars x).length) :
    Spelled k dir ⟨s.kernel.modifyDentry d fun dentry =>
        { dentry with name := nameField (name ++ nameChars x) (name ++ nameChars x).length },
      s.fileDentry, s.fileNameIndex + BitVec.ofNat 8 i⟩ (d :: ds)
        ((name ++ nameChars x) :: names) where
  slabs := h.slabs.congr rfl rfl rfl rfl rfl rfl rfl
  known := h.known
  list := h.list
  knownDentries := h.knownDentries
  nodup := h.nodup
  spelled := by
    have htail := (List.cons.inj h.spelled).2
    rw [List.map_cons, List.map_cons, ← htail]
    refine congrArg₂ List.cons ?_ (List.map_congr_left fun y hy => ?_)
    · rw [modifyDentry, Slab.modify_objects_self]
    · have hne : y ≠ d := fun hh => (List.nodup_cons.mp h.nodup).1 (hh ▸ hy)
      rw [modifyDentry, Slab.modify_objects_ne _ hne]
  current := h.current
  index := hindex

theorem length_eq (h : Spelled k dir s ds names) : ds.length = names.length := by
  have hlength := congrArg List.length h.spelled
  rwa [List.length_map, List.length_map] at hlength

/-- An entry changes the names as `spell` does. -/
theorem step (h : Spelled k dir s ds names) (hl : loadEntry sb dir x s = .ok s') :
    ∃ ds', Spelled k dir s' ds' (spell names x) := by
  have hframe := loadEntry_frame h.slabs h.known hl
  unfold spell
  rcases loadEntry_cases hl with ⟨hfile, d, k', hnew, rfl⟩ | ⟨hinfo, -, rfl⟩ |
    ⟨hname, hcurrent, field, i, hload, rfl⟩ | ⟨hfile, -, hname, rfl⟩
  · obtain ⟨i, e, hnew⟩ := h.slabs.loadFileEntry_new h.known hnew
    rw [if_pos hfile]
    exact ⟨d :: ds, h.file hnew⟩
  · rw [if_neg (by rw [hinfo]; decide), if_neg (by rw [hinfo]; decide)]
    exact ⟨ds, h.info hframe.1⟩
  · rw [if_neg (by rw [hname]; decide), if_pos hname]
    cases ds with
    | nil => exact absurd h.current hcurrent
    | cons d ds =>
      cases names with
      | nil => cases h.length_eq
      | cons name names =>
        have hd : s.fileDentry = d := h.current
        have hold : (s.kernel.fs.dentries.objects d).name = nameField name name.length :=
          (List.cons.inj h.spelled).1
        obtain ⟨j, hspells, hindex⟩ := loadName_spells (x := x) h.index
        rw [hd, hold] at hload
        obtain ⟨rfl, rfl⟩ := Prod.mk.inj (hload.symm.trans hspells)
        refine ⟨d :: ds, ?_⟩
        rw [hd]
        exact hd ▸ h.name hindex
  · rw [if_neg hfile]
    by_cases htype : x 0 = 0xC1
    · rw [if_pos htype]
      cases ds with
      | nil =>
        cases names with
        | nil => exact ⟨[], h⟩
        | cons name names => cases h.length_eq
      | cons d ds =>
        exact absurd (h.current.symm.trans (hname htype)) (h.knownDentries d List.mem_cons_self).2
    · rw [if_neg htype]
      exact ⟨ds, h⟩

theorem run (h : Spelled k dir s ds names) {xs : List (Nat → U8)}
    (hl : loadAll sb dir xs s = .ok s') : ∃ ds', Spelled k dir s' ds' (xs.foldl spell names) := by
  induction xs generalizing s ds names with
  | nil =>
    obtain rfl := Except.ok.inj hl
    exact ⟨ds, h⟩
  | cons x xs ih =>
    rw [loadAll_cons] at hl
    obtain ⟨s₁, hentry, hl⟩ := bind_eq_ok hl
    obtain ⟨ds₁, h₁⟩ := h.step hentry
    exact ih h₁ hl

/-- The names have an end in their fields exactly if they fit. -/
theorem terminated_iff (h : Spelled k dir s ds names) :
    (∃ ds', (s.kernel.inode dir).dentries = (k.inode dir).dentries ++ ds' ∧ ∀ d ∈ ds',
      (s.kernel.fs.dentries.objects d).name.length = dentryMaxNameLength + 1 ∧
        0 ∈ (s.kernel.fs.dentries.objects d).name) ↔ ∀ name ∈ names, FitsField name := by
  have hmem : ∀ field, (∃ d ∈ ds, (s.kernel.fs.dentries.objects d).name = field) ↔
      ∃ name ∈ names, nameField name name.length = field := by
    intro field
    have hfields := h.spelled
    rw [← List.mem_map, ← List.mem_map, hfields]
  constructor
  · rintro ⟨ds', hlist, hall⟩ name hname
    obtain rfl := List.append_cancel_left (h.list.symm.trans hlist)
    obtain ⟨d, hd, hfield⟩ := (hmem _).mpr ⟨name, hname, rfl⟩
    have hzero := (hall d (List.mem_reverse.mpr hd)).2
    rw [hfield] at hzero
    exact zero_mem_nameField.mp hzero
  · intro hall
    refine ⟨ds.reverse, h.list, fun d hd => ?_⟩
    obtain ⟨name, hname, hfield⟩ := (hmem _).mp ⟨d, List.mem_reverse.mp hd, rfl⟩
    rw [← hfield]
    exact ⟨nameField_length name name.length, zero_mem_nameField.mpr (hall name hname)⟩

end Spelled

/-- A load that stops does so at one of its entries. -/
theorem loadAll_stops {xs : List (Nat → U8)} {c : Crash} (hl : loadAll sb dir xs s = .error c) :
    ∃ pre x s', pre ++ [x] <+: xs ∧ loadAll sb dir pre s = .ok s' ∧
      loadEntry sb dir x s' = .error c := by
  induction xs generalizing s with
  | nil => cases hl
  | cons y xs ih =>
    rw [loadAll_cons] at hl
    rcases bind_eq_error hl with hentry | ⟨s₁, hentry, hl⟩
    · exact ⟨[], y, s, List.prefix_append [y] xs, rfl, hentry⟩
    · obtain ⟨pre, x, s', hpre, hrun, hstop⟩ := ih hl
      refine ⟨y :: pre, x, s', List.cons_prefix_cons.mpr ⟨rfl, hpre⟩, ?_, hstop⟩
      rw [loadAll_cons, hentry, ok_bind, hrun]

theorem loadAll_stopped {xs pre : List (Nat → U8)} {c : Crash} (hpre : pre ++ [x] <+: xs)
    (hrun : loadAll sb dir pre s = .ok s') (hstop : loadEntry sb dir x s' = .error c) :
    loadAll sb dir xs s = .error c := by
  obtain ⟨rest, rfl⟩ := hpre
  rw [List.append_assoc, loadAll_append, hrun, ok_bind, List.singleton_append, loadAll_cons,
    hstop, error_bind]

/-- Whatever the entries are, they are parsed safely exactly if none of them describes a file
before there is one and each of the names has an end in its field. -/
theorem entries_parse_safely_iff (sb : ExfatSuperblock) (hslabs : k.Slabs) (hdir : k.Known dir)
    (xs : List (Nat → U8)) : k.freePages < 3 * fileEntries xs ∨
      (k.ParsesSafely sb dir xs ↔
        infoFirst xs = false ∧ ∀ name ∈ entryNames xs, FitsField name) := by
  rcases Nat.lt_or_ge k.freePages (3 * fileEntries xs) with hshort | hroom
  · exact .inl hshort
  · right
    constructor
    · rintro ⟨hcurrent, -, hterminated⟩
      have hinfo : infoFirst xs = false := by
        by_contra hh
        have hnull : loadAll sb dir xs ⟨k, 0, 0⟩ = .error .outOfBounds :=
          loadAll_infoFirst rfl (Bool.eq_true_of_not_eq_false hh)
        obtain ⟨pre, x, s, hpre, hrun, hstop⟩ := loadAll_stops hnull
        exact hcurrent pre x s hpre hrun hstop
      obtain ⟨s, hrun⟩ : ∃ s, loadAll sb dir xs ⟨k, 0, 0⟩ = .ok s :=
        loadAll_room hslabs hdir hroom fun _ => hinfo
      obtain ⟨ds, hspelled⟩ := (Spelled.start hslabs hdir).run hrun
      exact ⟨hinfo, hspelled.terminated_iff.mp (hterminated s hrun)⟩
    · rintro ⟨hinfo, hfits⟩
      obtain ⟨s, hrun⟩ : ∃ s, loadAll sb dir xs ⟨k, 0, 0⟩ = .ok s :=
        loadAll_room hslabs hdir hroom fun _ => hinfo
      obtain ⟨ds, hspelled⟩ := (Spelled.start hslabs hdir).run hrun
      constructor
      · intro pre x s' hpre hbefore hstop
        have hstopped := loadAll_stopped hpre hbefore hstop
        rw [hrun] at hstopped
        cases hstopped
      · intro pre x s' _ _ j hj
        rw [entryWrites] at hj
        split at hj
        · exact loadNameWrites_lt j hj
        · exact absurd hj List.not_mem_nil
      · intro s' hrun'
        obtain rfl := Except.ok.inj (hrun.symm.trans hrun')
        exact hspelled.terminated_iff.mpr hfits

/-- An entry of a type, and one of characters that are not null. -/
def typedEntry (type : U8) : Nat → U8 := fun i => if i = 0 then type else 0

def letterEntry : Nat → U8 := fun i => if i = 0 then 0xC1 else 0x61

/-- A name of one entry fits. -/
theorem shortName_safe :
    bare.freePages < 3 * fileEntries [typedEntry 0x85, typedEntry 0xC0, letterEntry] ∨
      (bare.ParsesSafely smallSuperblock rootAddress
          [typedEntry 0x85, typedEntry 0xC0, letterEntry] ↔
        infoFirst [typedEntry 0x85, typedEntry 0xC0, letterEntry] = false ∧
          ∀ name ∈ entryNames [typedEntry 0x85, typedEntry 0xC0, letterEntry], FitsField name) :=
  entries_parse_safely_iff smallSuperblock bare_slabs (.inr (List.mem_singleton_self _)) _

/-- An entry of type 0xC0 before all others, and a name of 75 characters. -/
theorem entries_unsafe :
    bare.Slabs ∧ bare.Known rootAddress ∧
    ¬bare.ParsesSafely smallSuperblock rootAddress [typedEntry 0xC0] ∧
    ¬bare.ParsesSafely smallSuperblock rootAddress
      (typedEntry 0x85 :: typedEntry 0xC0 :: List.replicate 5 letterEntry) := by
  refine ⟨bare_slabs, .inr (List.mem_singleton_self _), ?_, ?_⟩
  · rintro ⟨hcurrent, -, -⟩
    exact hcurrent [] (typedEntry 0xC0) ⟨bare, 0, 0⟩ (List.prefix_refl _) rfl rfl
  · rintro ⟨-, -, hterminated⟩
    have hnames : (loadAll smallSuperblock rootAddress
        (typedEntry 0x85 :: typedEntry 0xC0 :: List.replicate 5 letterEntry) ⟨bare, 0, 0⟩).map
          (fun s => (s.kernel.inode rootAddress).dentries.map fun d =>
            (s.kernel.fs.dentries.objects d).name.contains 0) = .ok [false] := by
      decide +kernel
    cases hrun : loadAll smallSuperblock rootAddress
        (typedEntry 0x85 :: typedEntry 0xC0 :: List.replicate 5 letterEntry) ⟨bare, 0, 0⟩ with
    | error c =>
      rw [hrun] at hnames
      cases hnames
    | ok s =>
      rw [hrun] at hnames
      have hlist' : ((s.kernel.inode rootAddress).dentries.map fun d =>
          (s.kernel.fs.dentries.objects d).name.contains 0) = [false] := Except.ok.inj hnames
      obtain ⟨ds, hlist, hall⟩ := hterminated s hrun
      rw [hlist] at hlist'
      change (ds.map fun d => (s.kernel.fs.dentries.objects d).name.contains 0) = _ at hlist'
      have hmem : false ∈ ds.map fun d => (s.kernel.fs.dentries.objects d).name.contains 0 := by
        rw [hlist']
        exact List.mem_singleton_self false
      obtain ⟨d, hd, hzero⟩ := List.mem_map.mp hmem
      rw [List.contains_iff_mem.mpr (hall d hd).2] at hzero
      cases hzero

end FsKernel

end Persistos
