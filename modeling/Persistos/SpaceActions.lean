import Persistos.ElfImages
import Persistos.EmptiedSpaces
import Persistos.Theory.Footprints

/-! What the calls about one address space do to the frames of the kernel: each takes frames
that were free, and writes and gives back no frames but those behind that address space. -/

namespace Persistos

open Theory

namespace UserSpace

/-- The allocated frames, and the words in them. -/
def cells (s : UserSpace) :
    Cells U64 fun t => {a : U64 // a &&& pageAddressMask = t} → U64 where
  live := {t | ⟨t, 1⟩ ∈ s.kernel.live}
  val _ a := s.mem a

def owned (s : UserSpace) (pml4 : U64) : Set U64 := {t | s.Owns pml4 t}

end UserSpace

/-- Somebody with the frames `o` did something, and then has the frames `o'`. -/
structure Acts (s : UserSpace) (o : Set U64) (s' : UserSpace) (o' : Set U64) : Prop where
  steps : Relation.ReflTransGen KmemStep s.kernel s'.kernel
  cells : LocalStep s.cells o s'.cells o'

section

variable {s s₁ s' : UserSpace} {o o₁ o' : Set U64} {pml4 v f : U64} {b : U8} {ps : List U64}
  {moments : List Memory}

theorem cells_val_eq {t : U64} :
    s'.cells.val t = s.cells.val t ↔ ∀ a, a &&& pageAddressMask = t → s'.mem a = s.mem a := by
  refine ⟨fun h a ha => congrFun h ⟨a, ha⟩, fun h => ?_⟩
  funext ⟨a, ha⟩
  exact h a ha

namespace Acts

theorem of_kept (hsteps : Relation.ReflTransGen KmemStep s.kernel s'.kernel)
    (hlive : ∀ t, ⟨t, 1⟩ ∈ s.kernel.live → t ∉ o → ⟨t, 1⟩ ∈ s'.kernel.live)
    (hmem : ∀ a, ⟨a &&& pageAddressMask, 1⟩ ∈ s.kernel.live → a &&& pageAddressMask ∉ o →
      s'.mem a = s.mem a)
    (howned : ∀ t ∈ o', t ∈ o ∨ ⟨t, 1⟩ ∉ s.kernel.live) : Acts s o s' o' := by
  refine ⟨hsteps, hlive, fun t ht ho => cells_val_eq.mpr ?_, howned⟩
  rintro a rfl
  exact hmem a ht ho

theorem refl (s : UserSpace) (o : Set U64) : Acts s o s o := ⟨.refl, .refl _ _⟩

theorem trans (h : Acts s o s₁ o₁) (h' : Acts s₁ o₁ s' o') : Acts s o s' o' :=
  ⟨h.steps.trans h'.steps, h.cells.trans h'.cells⟩

/-- An address space that has none of those frames keeps its pages and what is in them. -/
theorem frame (h : Acts s o s' o') (hs : UserMap s pml4) (hd : Disjoint (s.owned pml4) o) :
    UserMap s' pml4 ∧ s'.owned pml4 = s.owned pml4 ∧
      (∀ v : U64, v.toNat < 2 ^ 47 → s'.frameAt pml4 v = s.frameAt pml4 v) ∧
      ∀ v : U64, v.toNat < 2 ^ 47 → s'.readUser pml4 v = s.readUser pml4 v := by
  obtain ⟨hlive, -, hval⟩ := h.cells.frame (p := s.owned pml4) (fun t ht => hs.live ht) hd
  have hmem : ∀ t, s.Owns pml4 t → ∀ a, a &&& pageAddressMask = t → s'.mem a = s.mem a :=
    fun t ht => cells_val_eq.mp (hval t ht)
  obtain ⟨hmap, hframe, htable⟩ := hs.congr s' h.steps (fun t ht => hlive ht)
    fun a ha => hmem _ (.inl ha) a rfl
  refine ⟨hmap, Set.ext fun t => or_congr (htable t) ?_, hframe, fun v hv => ?_⟩
  · exact exists_congr fun v => and_congr_right fun hv => by rw [hframe v hv]
  · exact hs.readUser_congr hv (hframe v hv) fun f hf => hmem f (.inr ⟨v, hv, hf⟩)

end Acts

theorem Aside.acts (h : Aside s s') (o : Set U64) : Acts s o s' o :=
  .of_kept h.steps (fun _ ht _ => h.live _ ht) (fun a ha _ => h.mem a ha) fun _ ht => .inl ht

theorem UserMap.aside_acts (hs : UserMap s pml4) (h : Aside s s') :
    Acts s (s.owned pml4) s' (s'.owned pml4) := by
  obtain ⟨-, -, -, howns⟩ := hs.aside h
  rw [show s'.owned pml4 = s.owned pml4 from Set.ext howns]
  exact h.acts _

theorem UserMap.mapUserPage_acts (hs : UserMap s pml4) (hv : v.toNat < 2 ^ 47)
    (h : s.mapUserPage pml4 v = .ok (f, s')) : Acts s (s.owned pml4) s' (s'.owned pml4) := by
  obtain ⟨-, hgrow, hfresh, -, -, -, hframe⟩ := hs.mapUserPage hv h
  refine .of_kept hgrow.steps (fun t ht _ => hgrow.live _ ht)
    (fun a ha ho => hgrow.outside a ha fun ht => ho (.inl ht)) ?_
  rintro t (ht | ⟨w, hw, hf⟩)
  · rw [UserSpace.HasTable, show s'.hhdm = s.hhdm from hgrow.hhdm] at ht
    exact (hgrow.tables t ht).imp_left .inl
  · rw [hframe w hw] at hf
    split at hf
    · exact .inr (Option.some.inj hf ▸ hfresh)
    · exact .inl (.inr ⟨w, hw, hf⟩)

theorem MapsPages.acts (h : MapsPages pml4 s ps moments s') (hs : OwnFrames pml4 s)
    (hp : ∀ p ∈ ps, p.toNat < 2 ^ 47) : Acts s (s.owned pml4) s' (s'.owned pml4) := by
  induction h with
  | nil => exact .refl _ _
  | cons hm _ ih =>
    obtain ⟨hp, hps⟩ := List.forall_mem_cons.mp hp
    exact (hs.map.mapUserPage_acts hp hm).trans (ih (hs.mapUserPage hp hm) hps)

theorem OwnFrames.writeUser_acts (hs : OwnFrames pml4 s) (hv : v.toNat < 2 ^ 47)
    (h : s.writeUser pml4 v b = .ok s') : Acts s (s.owned pml4) s' (s'.owned pml4) := by
  rw [UserSpace.writeUser] at h
  cases hf : s.frameAt pml4 v with
  | none =>
    rw [hf] at h
    cases h
  | some f =>
    rw [hf] at h
    obtain rfl := Except.ok.inj h
    have hmask := hs.map.offset_mask hv hf
    have howned : ∀ a, a &&& pageAddressMask ∉ s.owned pml4 →
        writeByte s.mem (f + (v &&& 0xFFF)) b a = s.mem a := by
      intro a ho
      refine writeByte_outside b ?_
      rw [hmask]
      rintro rfl
      exact ho (.inr ⟨v, hv, hf⟩)
    obtain ⟨-, hframe, htable⟩ := hs.map.congr ⟨s.kernel, writeByte s.mem (f + (v &&& 0xFFF)) b⟩
      .refl (fun t ht => hs.map.live ht) (by
        intro a ha
        refine writeByte_outside b ?_
        rw [hmask]
        rintro rfl
        exact (hs.map.frame v _ hv hf).2 ha)
    refine .of_kept .refl (fun _ ht _ => ht) (fun a _ ho => howned a ho) ?_
    rintro t (ht | ⟨w, hw, hfw⟩)
    · exact .inl (.inl ((htable t).mp ht))
    · rw [hframe w hw] at hfw
      exact .inl (.inr ⟨w, hw, hfw⟩)

/-- After the walk of `free_userspace_memory` the PML4 is all that is left. -/
theorem OwnFrames.freePml4_acts (hs : OwnFrames pml4 s) :
    Acts s (s.owned pml4) (Teardown.freePml4 ⟨s, []⟩ pml4).space
      ((Teardown.freePml4 ⟨s, []⟩ pml4).space.owned pml4) := by
  have hfreed := (frees_freePtpd.freeEntries (s := ⟨s, []⟩) (t := pml4) (by simp) (w := 256)
    (by omega) hs.nodes_nodup fun _ hu => hs.map.aligned (hs.owns hu)).1
  obtain ⟨hsteps, hlive⟩ := hs.freePml4_live
  obtain ⟨hown, hhdm, hnone, -⟩ := hs.freePml4
  have hzeros := (zeroing_freePtpd.freeEntries 256 ⟨s, []⟩ pml4).2.1
  refine .of_kept hsteps (fun t ht ho => hlive _ ht fun u hu he => ?_) (fun a _ ho => ?_) ?_
  · obtain rfl := (Block.mk.inj he).1
    exact ho (hs.owns (List.mem_cons_of_mem _ hu))
  · refine hfreed.outside a (fun he => ho ?_) fun hin => ho ?_
    · exact Option.some.inj he ▸ hs.owns List.mem_cons_self
    · exact hs.owns (List.mem_cons_of_mem _ hin)
  · rintro t (⟨q, hq, ht⟩ | ⟨v, hv, hf⟩)
    · rw [hhdm] at ht
      exact .inl (.inl ⟨q, hq, descend_mono (fun _ _ _ hc => hzeros.child hc) ht⟩)
    · rw [hnone v hv] at hf
      cases hf

/-- The frames of an address space are given back to `kpage_free` by their owner. -/
theorem Acts.kpageFree {p : U64} (hlive : ⟨p, 1⟩ ∈ s.kernel.live) (ho : p ∈ o) (ho' : o' ⊆ o) :
    Acts s o ⟨s.kernel.freePages ⟨p, 1⟩, s.mem⟩ o' := by
  refine .of_kept (.single (.free hlive)) (fun t ht hto => ?_) (fun _ _ _ => rfl)
    fun t ht => .inl (ho' ht)
  refine (List.mem_erase_of_ne fun he => ?_).mpr ht
  exact hto ((Block.mk.inj he).1 ▸ ho)

end

section Fork

variable {s₀ s s₁ s₂ s' : UserSpace} {parent child p f : U64} {o : Set U64} {pages : Nat → Prop}
  {k k' : UserKernel}

theorem Cloning.clonePage_acts (h : Cloning s₀ parent child s pages) (hp : PageAligned p)
    (hlt : p.toNat < 2 ^ 47) (hmapped : (s₀.frameAt parent p).isSome)
    (hm : s.mapUserPage child p = .ok (f, s₁))
    (hc : UserSpace.copyFromUser parent 4096 s₁ f p = .ok s₂) :
    Acts s (s.owned child) s₂ (s₂.owned child) := by
  obtain ⟨g, hg⟩ := Option.isSome_iff_exists.mp hmapped
  obtain ⟨-, -, -, -, mem, hrun, hout, -⟩ := h.copyPage hp hlt hg hm
  obtain rfl := Except.ok.inj (hrun.symm.trans hc)
  obtain ⟨hchild, -, -, -, hnot, -, hframe⟩ := h.childMap.mapUserPage hlt hm
  have hf : s₁.Owns child f := .inr ⟨p, hlt, by rw [hframe p hlt, if_pos rfl]⟩
  have hcopy : ∀ a, s₁.HasTable child (a &&& pageAddressMask) → mem a = s₁.mem a := by
    intro a ha
    refine hout a ?_
    rintro rfl
    exact hnot ha
  obtain ⟨-, hframe₂, htable₂⟩ := hchild.congr ⟨s₁.kernel, mem⟩ .refl (fun t ht => hchild.live ht)
    hcopy
  refine (h.childMap.mapUserPage_acts hlt hm).trans (.of_kept .refl (fun _ ht _ => ht) ?_ ?_)
  · intro a _ ho
    refine hout a ?_
    rintro rfl
    exact ho hf
  · rintro t (ht | ⟨v, hv, hvt⟩)
    · exact .inl (.inl ((htable₂ t).mp ht))
    · rw [hframe₂ v hv] at hvt
      exact .inl (.inr ⟨v, hv, hvt⟩)

/-- A child that took only frames that were free in `s₁`. -/
structure CloningOf (s₁ s₀ : UserSpace) (parent child : U64) (s : UserSpace)
    (pages : Nat → Prop) : Prop where
  cloning : Cloning s₀ parent child s pages
  acts : Acts s₁ ∅ s (s.owned child)

theorem CloningOf.congr {pages' : Nat → Prop} (h : CloningOf s₁ s₀ parent child s pages)
    (hp : ∀ n, pages n ↔ pages' n) : CloningOf s₁ s₀ parent child s pages' :=
  ⟨h.cloning.congr hp, h.acts⟩

theorem CloningOf.slabAlloc {a b : SlabAllocator} (h : CloningOf s₁ s₀ parent child s pages)
    (ha : s.slabAlloc a = .ok (s', b)) : CloningOf s₁ s₀ parent child s' pages := by
  have hmap := h.cloning.childMap
  have haside := UserSpace.slabAlloc_aside hmap.tables.kmem hmap.tables.direct ha
  exact ⟨h.cloning.aside haside, h.acts.trans (hmap.aside_acts haside)⟩

theorem CloningOf.cloneRange {range : UserspaceMemoryRange}
    (h : CloningOf s₁ s₀ parent child k.space pages)
    (hstart : PageAligned range.start ∨ range.stop ≤ range.start) (hstop : range.stop.toNat ≤ 2 ^ 47)
    (hmapped : ∀ v : U64, v.toNat < 2 ^ 47 → ForkCovers range (v.toNat / 4096) →
      (s₀.frameAt parent v).isSome)
    (hc : Persistos.cloneRange parent child k range = .ok k') :
    CloningOf s₁ s₀ parent child k'.space fun n => pages n ∨ ForkCovers range n := by
  refine ⟨h.cloning.cloneRange hstart hstop hmapped hc, ?_⟩
  obtain ⟨⟨space, ranges⟩, ha, hc⟩ := bind_eq_ok hc
  obtain ⟨⟨space', last⟩, hloop, he⟩ := bind_eq_ok hc
  obtain rfl := Except.ok.inj he
  have h₁ := h.slabAlloc ha
  by_cases hlt : range.start < range.stop
  · have halign : PageAligned range.start := hstart.resolve_right (BitVec.not_le.mpr hlt)
    have hbody : ∀ (s s' : UserSpace) (pages : Nat → Prop) (p : U64), PageAligned p →
        range.start.toNat ≤ p.toNat → p < range.stop → CloningOf s₁ s₀ parent child s pages →
        UserSpace.clonePage parent child s p = .ok s' →
        CloningOf s₁ s₀ parent child s' fun n => pages n ∨ n = p.toNat / 4096 := by
      intro s s' pages p hp hle hps hs hb
      obtain ⟨⟨f, s₁⟩, hmap, hcopy⟩ := bind_eq_ok hb
      have hps' : p.toNat < range.stop.toNat := hps
      have hm : (s₀.frameAt parent p).isSome := by
        refine hmapped p (by omega) ⟨hlt, ?_⟩
        simp only [Between, PageAligned] at hp ⊢
        omega
      exact ⟨hs.cloning.clonePage hp (by omega) hm hmap hcopy,
        hs.acts.trans (hs.cloning.clonePage_acts hp (by omega) hm hmap hcopy)⟩
    exact (forPages_covers (P := CloningOf s₁ s₀ parent child) CloningOf.congr hstop hbody halign
      h₁ hloop).1.acts
  · rw [UserSpace.pageFuel, UserSpace.forPages, if_neg hlt] at hloop
    obtain ⟨rfl, -⟩ := Prod.mk.inj (Except.ok.inj hloop)
    exact h₁.acts

theorem CloningOf.cloneRanges {ranges : List UserspaceMemoryRange}
    (h : CloningOf s₁ s₀ parent child k.space pages)
    (hok : ∀ range ∈ ranges, RangeOk range)
    (hmapped : ∀ range ∈ ranges, ∀ v : U64, v.toNat < 2 ^ 47 →
      ForkCovers range (v.toNat / 4096) → (s₀.frameAt parent v).isSome)
    (hc : ranges.foldlM (Persistos.cloneRange parent child) k = .ok k') :
    ∃ pages, CloningOf s₁ s₀ parent child k'.space pages := by
  induction ranges generalizing k pages with
  | nil =>
    obtain rfl := Except.ok.inj hc
    exact ⟨pages, h⟩
  | cons range ranges ih =>
    obtain ⟨k₁, h₁, hc⟩ := bind_eq_ok hc
    obtain ⟨hok₁, hok⟩ := List.forall_mem_cons.mp hok
    obtain ⟨hmapped₁, hmapped⟩ := List.forall_mem_cons.mp hmapped
    exact ih (h.cloneRange hok₁.forkStart hok₁.stop hmapped₁ h₁) hok hmapped hc

theorem CloningOf.cloneFiles {fds : List U32} (h : CloningOf s₁ s₀ parent child k.space pages)
    (hc : fds.foldlM cloneFile k = .ok k') : CloningOf s₁ s₀ parent child k'.space pages := by
  induction fds generalizing k with
  | nil =>
    obtain rfl := Except.ok.inj hc
    exact h
  | cons fd fds ih =>
    obtain ⟨k₁, h₁, hc⟩ := bind_eq_ok hc
    obtain ⟨⟨space, files⟩, ha, he⟩ := bind_eq_ok h₁
    obtain rfl := Except.ok.inj he
    exact ih (h.slabAlloc ha) hc

/-- A new PML4, whatever upper half it gets. -/
theorem setup_acts {space : UserSpace} (old : U64) (hk : KmemInv s.kernel)
    (hd : DirectMap s.kernel.kmem) (h : s.allocCleared = .ok (child, space)) :
    Acts s ∅ (space.copyUpperHalf old child) ((space.copyUpperHalf old child).owned child) ∧
      OwnFrames child (space.copyUpperHalf old child) ∧
      ∀ v : U64, v.toNat < 2 ^ 47 → (space.copyUpperHalf old child).frameAt child v = none := by
  obtain ⟨⟨f, kernel⟩, hp, he⟩ := bind_eq_ok h
  simp only [Except.ok.injEq, Prod.mk.injEq] at he
  obtain ⟨rfl, rfl⟩ := he
  obtain ⟨halign, hfresh, -⟩ := KmemRun.allocPage_frame hk hd hp
  obtain ⟨hstep, hlive⟩ := KmemRun.allocPage_step hp
  have hupper := UserSpace.copyUpperHalf_mem (s := ⟨kernel, clearPage s.mem f⟩) old halign
  have hkernel : (UserSpace.copyUpperHalf ⟨kernel, clearPage s.mem f⟩ old f).kernel = kernel := rfl
  generalize UserSpace.copyUpperHalf ⟨kernel, clearPage s.mem f⟩ old f = s₂ at hupper hkernel ⊢
  subst hkernel
  obtain ⟨hout, hlow⟩ := hupper
  have hempty : EmptyLowerHalf s₂.kernel s₂.mem f := by
    refine ⟨halign, by rw [hlive]; exact List.mem_cons_self, fun i hi => ?_⟩
    exact (hlow i hi).trans (if_pos (entryAddress_mask halign (by omega)))
  obtain ⟨hmap, hnone, hroot⟩ := hempty.userMap (hstep.inv hk) (hd.step hstep)
  refine ⟨.of_kept (.single hstep) (fun t ht _ => ?_) (fun a hl _ => ?_) fun t ht => ?_,
    .of_childless hmap.tables.kmem hmap.tables.direct halign hempty.live (hempty.childless _), hnone⟩
  · exact hlive ▸ List.mem_cons_of_mem _ ht
  · have hne : a &&& pageAddressMask ≠ f := by
      rintro rfl
      exact hfresh hl
    exact (hout a hne).trans (if_neg hne)
  · obtain rfl := hroot t ht
    exact .inr hfresh

/-- FORK takes only frames that were free. -/
theorem TaskInv.forkMemory_acts {s : TaskMemory} {fds : List U32} (h : TaskInv parent s)
    (hf : forkMemory s parent fds = .ok (k, child)) :
    Acts s.kernel.space ∅ k.space (k.space.owned child) := by
  obtain ⟨⟨space, taskStructs⟩, ha, hf⟩ := bind_eq_ok hf
  obtain ⟨⟨stack, kernel⟩, hs, hf⟩ := bind_eq_ok hf
  obtain ⟨⟨newPml4, space'⟩, hc, hf⟩ := bind_eq_ok hf
  obtain ⟨k₁, hranges, hf⟩ := bind_eq_ok hf
  obtain ⟨k₂, hfiles, hf⟩ := bind_eq_ok hf
  obtain ⟨rfl, rfl⟩ := Prod.mk.inj (Except.ok.inj hf)
  have hmap := h.loaded.map
  have haside := UserSpace.slabAlloc_aside hmap.tables.kmem hmap.tables.direct ha
  have hcloning := hmap.cloning haside hs hc
  obtain ⟨⟨p, k₀⟩, hp, he⟩ := bind_eq_ok hs
  simp only [Except.ok.injEq, Prod.mk.injEq] at he
  obtain ⟨rfl, rfl⟩ := he
  have hstack : Aside space ⟨⟨k₀, ⟨p, 2⟩ :: space.kernel.live⟩, space.mem⟩ :=
    ⟨.single (.alloc (by decide) hp), fun b hb => List.mem_cons_of_mem _ hb, fun _ _ => rfl⟩
  obtain ⟨hmap', -⟩ := hmap.aside (haside.trans hstack)
  obtain ⟨hacts, -⟩ := setup_acts parent hmap'.tables.kmem hmap'.tables.direct hc
  have h₀ : CloningOf s.kernel.space s.kernel.space parent newPml4
      (space'.copyUpperHalf parent newPml4) fun _ => False :=
    ⟨hcloning, ((haside.trans hstack).acts ∅).trans hacts⟩
  obtain ⟨pages, h₁⟩ := CloningOf.cloneRanges (k := { s.kernel with
    space := space'.copyUpperHalf parent newPml4, taskStructs }) h₀ h.ranges
    (fun range hr v hv hcov => (h.loaded.mapped v hv).mpr
      ⟨range, hr, (forkCovers_iff (h.ranges range hr) _).mp hcov⟩) hranges
  exact (h₁.cloneFiles hfiles).acts

end Fork

end Persistos
