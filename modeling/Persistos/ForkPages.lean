import Persistos.Loader

/-! A child's address space while FORK builds it, beside that of the parent, and the
loops that decide which pages a range has. -/

namespace Persistos

open Theory

variable {s s' s₀ : UserSpace} {parent child pml4 p f g : U64} {pages pages' : Nat → Prop}

/-- The page numbers from an address up to another. -/
def Between (start stop : U64) (n : Nat) : Prop := start.toNat / 4096 ≤ n ∧ n * 4096 < stop.toNat

instance (start stop : U64) (n : Nat) : Decidable (Between start stop n) :=
  inferInstanceAs (Decidable (_ ∧ _))

/-- The mapped pages of the lower half. -/
structure Loaded (pml4 : U64) (s : UserSpace) (pages : Nat → Prop) : Prop where
  map : UserMap s pml4
  mapped : ∀ v : U64, v.toNat < 2 ^ 47 → ((s.frameAt pml4 v).isSome ↔ pages (v.toNat / 4096))

/-- The child has the given pages, in frames of its own, with the bytes that the parent
had in `s₀`, and the parent is as it was then. -/
structure Cloning (s₀ : UserSpace) (parent child : U64) (s : UserSpace) (pages : Nat → Prop) :
    Prop where
  parentMap : UserMap s parent
  childMap : UserMap s child
  apart : ∀ t, s.Owns parent t → ¬s.Owns child t
  parentFrames : ∀ v : U64, v.toNat < 2 ^ 47 → s.frameAt parent v = s₀.frameAt parent v
  parentBytes : ∀ v : U64, v.toNat < 2 ^ 47 → s.readUser parent v = s₀.readUser parent v
  childPages : ∀ v : U64, v.toNat < 2 ^ 47 →
    ((s.frameAt child v).isSome ↔ pages (v.toNat / 4096))
  childFrames : ∀ v w f : U64, v.toNat < 2 ^ 47 → w.toNat < 2 ^ 47 → s.frameAt child v = some f →
    s.frameAt child w = some f → v.toNat / 4096 = w.toNat / 4096
  childBytes : ∀ v : U64, v.toNat < 2 ^ 47 → pages (v.toNat / 4096) →
    s.readUser child v = s₀.readUser parent v

theorem Loaded.congr (h : Loaded pml4 s pages) (hp : ∀ n, pages n ↔ pages' n) :
    Loaded pml4 s pages' := by
  rwa [← show pages = pages' from funext fun n => propext (hp n)]

theorem Cloning.congr (h : Cloning s₀ parent child s pages) (hp : ∀ n, pages n ↔ pages' n) :
    Cloning s₀ parent child s pages' := by
  rwa [← show pages = pages' from funext fun n => propext (hp n)]

/-- A step of the kernel that allocates and writes only what was not allocated. -/
structure Aside (s s' : UserSpace) : Prop where
  steps : Relation.ReflTransGen KmemStep s.kernel s'.kernel
  live : ∀ b ∈ s.kernel.live, b ∈ s'.kernel.live
  mem : ∀ a, ⟨a &&& pageAddressMask, 1⟩ ∈ s.kernel.live → s'.mem a = s.mem a

theorem UserMap.aside (h : UserMap s pml4) (ha : Aside s s') :
    UserMap s' pml4 ∧ (∀ v : U64, v.toNat < 2 ^ 47 → s'.frameAt pml4 v = s.frameAt pml4 v) ∧
      (∀ v : U64, v.toNat < 2 ^ 47 → s'.readUser pml4 v = s.readUser pml4 v) ∧
      ∀ t, s'.Owns pml4 t ↔ s.Owns pml4 t := by
  obtain ⟨h', hframe, htable⟩ := h.congr s' ha.steps (fun t ht => ha.live _ (h.live ht))
    fun a hta => ha.mem a (h.live (Or.inl hta))
  refine ⟨h', hframe, fun v hv => ?_, fun t => or_congr (htable t) ?_⟩
  · refine h.readUser_congr hv (hframe v hv) ?_
    rintro f hf a rfl
    exact ha.mem a (h.live (Or.inr ⟨v, hv, hf⟩))
  · exact exists_congr fun v => and_congr_right fun hv => by rw [hframe v hv]

theorem Loaded.aside (h : Loaded pml4 s pages) (ha : Aside s s') : Loaded pml4 s' pages := by
  obtain ⟨hmap, hframe, -⟩ := h.map.aside ha
  refine ⟨hmap, fun v hv => ?_⟩
  rw [hframe v hv]
  exact h.mapped v hv

theorem Cloning.aside (h : Cloning s₀ parent child s pages) (ha : Aside s s') :
    Cloning s₀ parent child s' pages := by
  obtain ⟨hp, hpf, hpb, hpo⟩ := h.parentMap.aside ha
  obtain ⟨hc, hcf, hcb, hco⟩ := h.childMap.aside ha
  refine ⟨hp, hc, ?_, ?_, ?_, ?_, ?_, ?_⟩
  · intro t ht
    rw [hco]
    exact h.apart t ((hpo t).mp ht)
  · exact fun v hv => (hpf v hv).trans (h.parentFrames v hv)
  · exact fun v hv => (hpb v hv).trans (h.parentBytes v hv)
  · intro v hv
    rw [hcf v hv]
    exact h.childPages v hv
  · intro v w f hv hw hvf hwf
    rw [hcf v hv] at hvf
    rw [hcf w hw] at hwf
    exact h.childFrames v w f hv hw hvf hwf
  · exact fun v hv hn => (hcb v hv).trans (h.childBytes v hv hn)

theorem Loaded.mapUserPage (h : Loaded pml4 s pages) (hp : p.toNat < 2 ^ 47)
    (hm : s.mapUserPage pml4 p = .ok (f, s')) :
    Loaded pml4 s' fun n => pages n ∨ n = p.toNat / 4096 := by
  obtain ⟨hmap, -, -, -, -, -, hframe⟩ := h.map.mapUserPage hp hm
  refine ⟨hmap, fun v hv => ?_⟩
  rw [hframe v hv, if_congr page_eq_iff rfl rfl]
  split
  · next he => simp [he]
  · next hne => simp [hne, h.mapped v hv]

/-- After `map_user_page` for the child the parent is as before, and its page can be
copied to the new frame. -/
theorem Cloning.copyPage {s₁ : UserSpace} (h : Cloning s₀ parent child s pages)
    (hp : PageAligned p) (hlt : p.toNat < 2 ^ 47) (hg : s₀.frameAt parent p = some g)
    (hm : s.mapUserPage child p = .ok (f, s₁)) :
    UserMap s₁ parent ∧
      (∀ v : U64, v.toNat < 2 ^ 47 → s₁.frameAt parent v = s.frameAt parent v) ∧
      (∀ t, s₁.HasTable parent t ↔ s.HasTable parent t) ∧
      (∀ t, s.Owns parent t → t ≠ f ∧ ∀ a, a &&& pageAddressMask = t → s₁.mem a = s.mem a) ∧
      ∃ mem, UserSpace.copyFromUser parent 4096 s₁ f p = .ok ⟨s₁.kernel, mem⟩ ∧
        (∀ a, a &&& pageAddressMask ≠ f → mem a = s₁.mem a) ∧
        ∀ i < 4096, byteAt mem (f + BitVec.ofNat 64 i) = byteAt s.mem (g + BitVec.ofNat 64 i) := by
  obtain ⟨hchild₁, hgrow, hfresh, hlive₁, -, -, -⟩ := h.childMap.mapUserPage hlt hm
  have hkeep : ∀ t, s.Owns parent t → t ≠ f ∧
      ∀ a, a &&& pageAddressMask = t → s₁.mem a = s.mem a := by
    intro t ht
    constructor
    · rintro rfl
      exact hfresh (h.parentMap.live ht)
    · rintro a rfl
      exact hgrow.outside a (h.parentMap.live ht) fun hh => h.apart _ ht (Or.inl hh)
  obtain ⟨hparent₁, hpf₁, hpt₁⟩ := h.parentMap.congr s₁ hgrow.steps
    (fun t ht => hgrow.live _ (h.parentMap.live ht)) fun a ha => (hkeep _ (Or.inl ha)).2 a rfl
  have hgs : s.frameAt parent p = some g := (h.parentFrames p hlt).trans hg
  have hgo : s.Owns parent g := Or.inr ⟨p, hlt, hgs⟩
  have hfal : PageAligned f := (hchild₁.tables.kmem.page_toNat hchild₁.tables.direct hlive₁).1
  have hft : ¬s₁.HasTable parent f := fun ht => (hkeep f (Or.inl ((hpt₁ f).mp ht))).1 rfl
  obtain ⟨mem, hrun, hout, hbytes⟩ := hparent₁.copyFromUser_ok hp hlt ((hpf₁ p hlt).trans hgs) hfal
    (hkeep g hgo).1 hft (n := 4096) (k := 0) (by omega)
  rw [BitVec.add_zero, BitVec.add_zero] at hrun
  refine ⟨hparent₁, hpf₁, hpt₁, hkeep, mem, hrun, hout, fun i hi => ?_⟩
  rw [hbytes i hi, if_pos (by omega)]
  refine byteAt_congr fun x hx => (hkeep g hgo).2 x ?_
  rw [hx, (h.parentMap.aligned hgo).add_mask hi]

/-- A page of the parent mapped and copied for the child. -/
theorem Cloning.clonePage {s₁ s₂ : UserSpace} (h : Cloning s₀ parent child s pages)
    (hp : PageAligned p) (hlt : p.toNat < 2 ^ 47) (hmapped : (s₀.frameAt parent p).isSome)
    (hm : s.mapUserPage child p = .ok (f, s₁))
    (hc : UserSpace.copyFromUser parent 4096 s₁ f p = .ok s₂) :
    Cloning s₀ parent child s₂ fun n => pages n ∨ n = p.toNat / 4096 := by
  obtain ⟨g, hg⟩ := Option.isSome_iff_exists.mp hmapped
  obtain ⟨hparent₁, hpf₁, hpt₁, hkeep, mem, hrun, hout, hbytes⟩ := h.copyPage hp hlt hg hm
  obtain rfl := Except.ok.inj (hrun.symm.trans hc)
  obtain ⟨hchild₁, hgrow, hfresh, hlive₁, hnot, -, hframe₁⟩ := h.childMap.mapUserPage hlt hm
  have hft : ¬s₁.HasTable parent f := fun ht => (hkeep f (Or.inl ((hpt₁ f).mp ht))).1 rfl
  obtain ⟨hparent₂, hpf₂, hpt₂⟩ := hparent₁.congr ⟨s₁.kernel, mem⟩ .refl
    (fun t ht => hparent₁.live ht) (by
      intro a ha
      refine hout a ?_
      rintro rfl
      exact hft ha)
  obtain ⟨hchild₂, hcf₂, hct₂⟩ := hchild₁.congr ⟨s₁.kernel, mem⟩ .refl
    (fun t ht => hchild₁.live ht) (by
      intro a ha
      refine hout a ?_
      rintro rfl
      exact hnot ha)
  have hframe₂ : ∀ v : U64, v.toNat < 2 ^ 47 → UserSpace.frameAt ⟨s₁.kernel, mem⟩ child v =
      if v.toNat / 4096 = p.toNat / 4096 then some f else s.frameAt child v := by
    intro v hv
    rw [hcf₂ v hv, hframe₁ v hv]
    exact if_congr page_eq_iff rfl rfl
  have hpo : ∀ t, UserSpace.Owns ⟨s₁.kernel, mem⟩ parent t → s.Owns parent t := by
    rintro t (ht | ⟨v, hv, ht⟩)
    · exact Or.inl ((hpt₁ t).mp ((hpt₂ t).mp ht))
    · exact Or.inr ⟨v, hv, by rw [← ht, hpf₂ v hv, hpf₁ v hv]⟩
  have hco : ∀ t, UserSpace.Owns ⟨s₁.kernel, mem⟩ child t →
      s.Owns child t ∨ ⟨t, 1⟩ ∉ s.kernel.live := by
    rintro t (ht | ⟨v, hv, ht⟩)
    · have ht₁ := (hct₂ t).mp ht
      rw [UserSpace.HasTable, show s₁.hhdm = s.hhdm from hgrow.hhdm] at ht₁
      exact (hgrow.tables t ht₁).imp_left Or.inl
    · rw [hframe₂ v hv] at ht
      split at ht
      · obtain rfl := Option.some.inj ht
        exact Or.inr hfresh
      · exact Or.inl (Or.inr ⟨v, hv, ht⟩)
  have hold : ∀ v t : U64, v.toNat < 2 ^ 47 → s.frameAt child v = some t →
      t ≠ f ∧ ∀ a, a &&& pageAddressMask = t → mem a = s.mem a := by
    intro v t hv ht
    have hl := h.childMap.frame v t hv ht
    have hne : t ≠ f := by
      rintro rfl
      exact hfresh hl.1
    refine ⟨hne, ?_⟩
    rintro a rfl
    exact (hout a hne).trans (hgrow.outside a hl.1 hl.2)
  refine ⟨hparent₂, hchild₂, ?_, ?_, ?_, ?_, ?_, ?_⟩
  · intro t ht ht'
    have hto := hpo t ht
    exact (hco t ht').elim (h.apart t hto) fun hn => hn (h.parentMap.live hto)
  · exact fun v hv => (hpf₂ v hv).trans ((hpf₁ v hv).trans (h.parentFrames v hv))
  · intro v hv
    refine (h.parentMap.readUser_congr hv ((hpf₂ v hv).trans (hpf₁ v hv)) ?_).trans
      (h.parentBytes v hv)
    intro t ht a ha
    have hto : s.Owns parent t := Or.inr ⟨v, hv, ht⟩
    exact (hout a (ha ▸ (hkeep t hto).1)).trans ((hkeep t hto).2 a ha)
  · intro v hv
    rw [hframe₂ v hv]
    split
    · next he => simp [he]
    · next hne => simp [hne, h.childPages v hv]
  · intro v w t hv hw hvt hwt
    rw [hframe₂ v hv] at hvt
    rw [hframe₂ w hw] at hwt
    split at hvt
    · next hvp =>
      split at hwt
      · next hwp => exact hvp.trans hwp.symm
      · exact absurd (Option.some.inj hvt).symm (hold w t hw hwt).1
    · split at hwt
      · exact absurd (Option.some.inj hwt).symm (hold v t hv hvt).1
      · exact h.childFrames v w t hv hw hvt hwt
  · intro v hv hn
    by_cases hvp : v.toNat / 4096 = p.toNat / 4096
    · have hgv : s₀.frameAt parent v = some g :=
        (frameAt_congr_page (page_eq_iff.mpr hvp)).trans hg
      have hoff : v &&& 0xFFF = BitVec.ofNat 64 (v.toNat % 4096) := by
        apply BitVec.eq_of_toNat_eq
        rw [and_fff_toNat, BitVec.toNat_ofNat]
        omega
      have hcopy := hbytes (v.toNat % 4096) (Nat.mod_lt _ (by omega))
      rw [← h.parentBytes v hv, UserSpace.readUser, UserSpace.readUser, hframe₂ v hv, if_pos hvp,
        h.parentFrames v hv, hgv, hoff]
      exact congrArg some hcopy
    · rw [or_iff_left hvp] at hn
      rw [← h.childBytes v hv hn]
      refine h.childMap.readUser_congr hv ((hframe₂ v hv).trans (if_neg hvp)) ?_
      exact fun t ht => (hold v t hv ht).2

/-- A loop over pages does for all of them what its body does for one. -/
theorem forPages_covers {P : UserSpace → (Nat → Prop) → Prop}
    (hcongr : ∀ {s pages pages'}, P s pages → (∀ n, pages n ↔ pages' n) → P s pages')
    {body : UserSpace → U64 → Except Crash UserSpace} {start stop : U64} (hstop : stop.toNat ≤ 2 ^ 47)
    (hbody : ∀ s s' pages p, PageAligned p → start.toNat ≤ p.toNat → p < stop → P s pages →
      body s p = .ok s' → P s' fun n => pages n ∨ n = p.toNat / 4096)
    {fuel : Nat} {last : U64} (hstart : PageAligned start) (h : P s pages)
    (hrun : UserSpace.forPages body stop fuel s start = .ok (s', last)) :
    P s' (fun n => pages n ∨ Between start last n) ∧ PageAligned last ∧
      start.toNat ≤ last.toNat ∧ stop.toNat ≤ last.toNat ∧
      (last = start ∨ last.toNat < stop.toNat + 4096) := by
  have hloop : ∀ fuel s p, PageAligned p → start.toNat ≤ p.toNat →
      (p = start ∨ p.toNat < stop.toNat + 4096) → P s (fun n => pages n ∨ Between start p n) →
      UserSpace.forPages body stop fuel s p = .ok (s', last) →
      P s' (fun n => pages n ∨ Between start last n) ∧ PageAligned last ∧
        start.toNat ≤ last.toNat ∧ stop.toNat ≤ last.toNat ∧
        (last = start ∨ last.toNat < stop.toNat + 4096) := by
    intro fuel
    induction fuel with
    | zero =>
      intro s p _ _ _ _ hrun
      cases hrun
    | succ fuel ih =>
      intro s p hp hle hlast hs hrun
      rw [UserSpace.forPages] at hrun
      split at hrun
      · next hlt =>
        obtain ⟨s₁, hs₁, hrun⟩ := bind_eq_ok hrun
        have hlt' : p.toNat < stop.toNat := hlt
        have hnext : (p + 0x1000).toNat = p.toNat + 4096 := by
          rw [BitVec.toNat_add, show (0x1000 : U64).toNat = 4096 from rfl]
          omega
        simp only [PageAligned] at hp
        refine ih s₁ (p + 0x1000) (by simp only [PageAligned]; omega) (by omega)
          (Or.inr (by omega)) (hcongr (hbody s s₁ _ p hp hle hlt hs hs₁) fun n => ?_) hrun
        simp only [Between, hnext, or_assoc]
        refine or_congr_right ?_
        omega
      · next hge =>
        obtain ⟨rfl, rfl⟩ := Prod.mk.inj (Except.ok.inj hrun)
        exact ⟨hs, hp, hle, Nat.le_of_not_lt hge, hlast⟩
  refine hloop fuel s start hstart (Nat.le_refl _) (Or.inl rfl) (hcongr h fun n => ?_) hrun
  refine (or_iff_left ?_).symm
  rintro ⟨h₁, h₂⟩
  simp only [PageAligned] at hstart
  omega

/-- What the pages of a range are to the loop of FORK, which steps from the start itself. -/
theorem between_last {start stop last : U64} (hlast : PageAligned last) (hle : stop.toNat ≤ last.toNat)
    (h : last = start ∨ last.toNat < stop.toNat + 4096) (n : Nat) :
    Between start last n ↔ Between start stop n := by
  simp only [Between, PageAligned] at *
  rcases h with rfl | h
  · omega
  · omega

theorem UserSpace.slabAlloc_aside {a b : SlabAllocator} (hk : KmemInv s.kernel)
    (hd : DirectMap s.kernel.kmem) (h : s.slabAlloc a = .ok (s', b)) : Aside s s' := by
  obtain ⟨⟨x, kernel, allocator, new⟩, ha, he⟩ := bind_eq_ok h
  simp only [Except.ok.injEq, Prod.mk.injEq] at he
  obtain ⟨rfl, rfl⟩ := he
  rw [Persistos.slabAlloc] at ha
  split at ha
  · simp only [Except.ok.injEq, Prod.mk.injEq] at ha
    obtain ⟨rfl, rfl, rfl, rfl⟩ := ha
    exact ⟨.refl, fun _ hb => hb, fun _ _ => rfl⟩
  · split at ha
    · cases ha
    · next page k hp =>
      dsimp only at ha
      split at ha
      · simp only [Except.ok.injEq, Prod.mk.injEq] at ha
        obtain ⟨rfl, rfl, rfl, rfl⟩ := ha
        obtain ⟨hstep, hlive⟩ := KmemRun.allocPage_step hp
        obtain ⟨-, hfresh, -⟩ := KmemRun.allocPage_frame hk hd hp
        refine ⟨.single hstep, ?_, fun a ha => if_neg ?_⟩
        · rw [hlive]
          exact fun b hb => List.mem_cons_of_mem _ hb
        · rintro rfl
          exact hfresh ha
      · cases ha

theorem Loaded.mapPages {start stop last : U64} (h : Loaded pml4 s pages)
    (hstart : PageAligned start) (hstop : stop.toNat ≤ 2 ^ 47)
    (hm : s.mapPages pml4 start stop = .ok (s', last)) :
    Loaded pml4 s' (fun n => pages n ∨ Between start stop n) ∧ PageAligned last ∧
      start.toNat ≤ last.toNat ∧ stop.toNat ≤ last.toNat ∧
      (last = start ∨ last.toNat < stop.toNat + 4096) := by
  have hbody : ∀ (s s' : UserSpace) (pages : Nat → Prop) (p : U64), PageAligned p →
      start.toNat ≤ p.toNat → p < stop → Loaded pml4 s pages →
      UserSpace.mapPage pml4 s p = .ok s' →
      Loaded pml4 s' fun n => pages n ∨ n = p.toNat / 4096 := by
    intro s s' pages p _ _ hlt hs hb
    obtain ⟨⟨f, s₁⟩, hmap, he⟩ := bind_eq_ok hb
    obtain rfl := Except.ok.inj he
    exact hs.mapUserPage (Nat.lt_of_lt_of_le hlt hstop) hmap
  obtain ⟨hl, hal, hle, hle', hlast⟩ :=
    forPages_covers (P := Loaded pml4) Loaded.congr hstop hbody hstart h hm
  exact ⟨hl.congr fun n => or_congr_right (between_last hal hle' hlast n), hal, hle, hle', hlast⟩

/-- The pages that FORK maps for a range. -/
def ForkCovers (range : UserspaceMemoryRange) (n : Nat) : Prop :=
  range.start < range.stop ∧ Between range.start range.stop n

instance (range : UserspaceMemoryRange) (n : Nat) : Decidable (ForkCovers range n) :=
  inferInstanceAs (Decidable (_ ∧ _))

theorem Cloning.cloneRange {k k' : UserKernel} {range : UserspaceMemoryRange}
    (h : Cloning s₀ parent child k.space pages)
    (hstart : PageAligned range.start ∨ range.stop ≤ range.start) (hstop : range.stop.toNat ≤ 2 ^ 47)
    (hmapped : ∀ v : U64, v.toNat < 2 ^ 47 → ForkCovers range (v.toNat / 4096) →
      (s₀.frameAt parent v).isSome)
    (hc : Persistos.cloneRange parent child k range = .ok k') :
    Cloning s₀ parent child k'.space fun n => pages n ∨ ForkCovers range n := by
  obtain ⟨⟨space, ranges⟩, ha, hc⟩ := bind_eq_ok hc
  obtain ⟨⟨space', last⟩, hloop, he⟩ := bind_eq_ok hc
  obtain rfl := Except.ok.inj he
  have h₁ := h.aside (UserSpace.slabAlloc_aside h.parentMap.tables.kmem h.parentMap.tables.direct ha)
  by_cases hlt : range.start < range.stop
  · have halign : PageAligned range.start := hstart.resolve_right (BitVec.not_le.mpr hlt)
    have hbody : ∀ (s s' : UserSpace) (pages : Nat → Prop) (p : U64), PageAligned p →
        range.start.toNat ≤ p.toNat → p < range.stop → Cloning s₀ parent child s pages →
        UserSpace.clonePage parent child s p = .ok s' →
        Cloning s₀ parent child s' fun n => pages n ∨ n = p.toNat / 4096 := by
      intro s s' pages p hp hle hps hs hb
      obtain ⟨⟨f, s₁⟩, hmap, hcopy⟩ := bind_eq_ok hb
      have hps' : p.toNat < range.stop.toNat := hps
      refine hs.clonePage hp (by omega) (hmapped p (by omega) ⟨hlt, ?_⟩) hmap hcopy
      simp only [Between, PageAligned] at hp ⊢
      omega
    obtain ⟨hl, hal, -, hle', hlast⟩ := forPages_covers (P := Cloning s₀ parent child)
      Cloning.congr hstop hbody halign h₁ hloop
    refine hl.congr fun n => or_congr_right ?_
    rw [between_last hal hle' hlast n]
    exact (and_iff_right hlt).symm
  · rw [UserSpace.pageFuel, UserSpace.forPages, if_neg hlt] at hloop
    obtain ⟨rfl, -⟩ := Prod.mk.inj (Except.ok.inj hloop)
    exact h₁.congr fun n => (or_iff_left fun hh => hlt hh.1).symm

theorem Cloning.cloneRanges {k k' : UserKernel} {ranges : List UserspaceMemoryRange}
    (h : Cloning s₀ parent child k.space pages)
    (hstart : ∀ range ∈ ranges, PageAligned range.start ∨ range.stop ≤ range.start)
    (hstop : ∀ range ∈ ranges, range.stop.toNat ≤ 2 ^ 47)
    (hmapped : ∀ range ∈ ranges, ∀ v : U64, v.toNat < 2 ^ 47 →
      ForkCovers range (v.toNat / 4096) → (s₀.frameAt parent v).isSome)
    (hc : ranges.foldlM (Persistos.cloneRange parent child) k = .ok k') :
    Cloning s₀ parent child k'.space fun n => pages n ∨ ∃ range ∈ ranges, ForkCovers range n := by
  induction ranges generalizing k pages with
  | nil =>
    obtain rfl := Except.ok.inj hc
    exact h.congr fun n => by simp
  | cons range ranges ih =>
    obtain ⟨k₁, h₁, hc⟩ := bind_eq_ok hc
    have hr := List.mem_cons_self (a := range) (l := ranges)
    have hh := ih (h.cloneRange (hstart _ hr) (hstop _ hr) (hmapped _ hr) h₁)
      (fun r hr => hstart r (List.mem_cons_of_mem _ hr))
      (fun r hr => hstop r (List.mem_cons_of_mem _ hr))
      (fun r hr => hmapped r (List.mem_cons_of_mem _ hr)) hc
    exact hh.congr fun n => by simp [or_assoc]

theorem Cloning.cloneFiles {k k' : UserKernel} {fds : List U32}
    (h : Cloning s₀ parent child k.space pages) (hc : fds.foldlM cloneFile k = .ok k') :
    Cloning s₀ parent child k'.space pages := by
  induction fds generalizing k with
  | nil =>
    obtain rfl := Except.ok.inj hc
    exact h
  | cons fd fds ih =>
    obtain ⟨k₁, h₁, hc⟩ := bind_eq_ok hc
    obtain ⟨⟨space, files⟩, ha, he⟩ := bind_eq_ok h₁
    obtain rfl := Except.ok.inj he
    exact ih (h.aside (UserSpace.slabAlloc_aside h.parentMap.tables.kmem
      h.parentMap.tables.direct ha)) hc

theorem Aside.trans {s'' : UserSpace} (h : Aside s s') (h' : Aside s' s'') : Aside s s'' where
  steps := h.steps.trans h'.steps
  live := fun b hb => h'.live b (h.live b hb)
  mem := fun a ha => (h'.mem a (h.live _ ha)).trans (h.mem a ha)

theorem UserSpace.copyUpperHalf_mem (old : U64) {new : U64} (hnew : PageAligned new) :
    (∀ a, a &&& pageAddressMask ≠ new → (s.copyUpperHalf old new).mem a = s.mem a) ∧
      ∀ i < 256, (s.copyUpperHalf old new).mem (entryAddress new i) =
        s.mem (entryAddress new i) := by
  have hloop : ∀ n ≤ 256, ∀ a, (∀ j, 256 ≤ j → j < 512 → a ≠ entryAddress new j) →
      (List.range n).foldl (fun mem i => writeWord mem (entryAddress new (256 + i))
        (mem (entryAddress old (256 + i)))) s.mem a = s.mem a := by
    intro n hn a ha
    induction n with
    | zero => rfl
    | succ n ih =>
      rw [List.range_succ, List.foldl_append]
      exact (if_neg (ha _ (by omega) (by omega))).trans (ih (by omega))
  have hall := hloop 256 (Nat.le_refl _)
  simp only [UserSpace.copyUpperHalf]
  refine ⟨fun a ha => hall a ?_, fun i hi => hall _ ?_⟩
  · rintro j hj hj' rfl
    exact ha (entryAddress_mask hnew hj')
  · intro j hj hj' he
    have hh := (entryAddress_inj hnew hnew (by omega) hj' he).2
    omega

/-- A root alone is an address space without pages. -/
theorem UserMap.of_childless {r : KmemRun} {mem : Memory} (hr : KmemInv r) (hd : DirectMap r.kmem)
    (ha : PageAligned pml4) (hl : ⟨pml4, 1⟩ ∈ r.live)
    (h : ∀ i < 256, Persistos.child r.kmem.hhdmOffset mem pml4 i = none) :
    UserMap ⟨r, mem⟩ pml4 ∧
      (∀ v : U64, v.toNat < 2 ^ 47 → UserSpace.frameAt ⟨r, mem⟩ pml4 v = none) ∧
      ∀ t, UserSpace.Owns ⟨r, mem⟩ pml4 t → t = pml4 := by
  have hframe : ∀ v : U64, v.toNat < 2 ^ 47 → UserSpace.frameAt ⟨r, mem⟩ pml4 v = none := by
    intro v hv
    rw [UserSpace.frameAt, UserSpace.hhdm, translate_childless h hv]
    rfl
  refine ⟨⟨.of_childless hr hd ha hl h, fun v f hv hf => ?_⟩, hframe, ?_⟩
  · rw [hframe v hv] at hf
    cases hf
  · rintro t (⟨q, hq, ht⟩ | ⟨v, hv, ht⟩)
    · rw [UserSpace.hhdm, descend_childless h hq.ok] at ht
      split at ht
      · exact (Option.some.inj ht).symm
      · cases ht
    · rw [hframe v hv] at ht
      cases ht

theorem EmptyLowerHalf.userMap {r : KmemRun} {mem : Memory} (h : EmptyLowerHalf r mem pml4)
    (hr : KmemInv r) (hd : DirectMap r.kmem) :
    UserMap ⟨r, mem⟩ pml4 ∧
      (∀ v : U64, v.toNat < 2 ^ 47 → UserSpace.frameAt ⟨r, mem⟩ pml4 v = none) ∧
      ∀ t, UserSpace.Owns ⟨r, mem⟩ pml4 t → t = pml4 :=
  UserMap.of_childless hr hd h.aligned h.live (h.childless _)

/-- The child of FORK before any page is mapped for it. -/
theorem UserMap.cloning {kernel : KmemRun} {b : U64} (h : UserMap s₀ parent) (ha : Aside s₀ s)
    (hs : s.kernel.allocPages 2 = .ok (b, kernel))
    (hc : UserSpace.allocCleared ⟨kernel, s.mem⟩ = .ok (child, s')) :
    Cloning s₀ parent child (s'.copyUpperHalf parent child) fun _ => False := by
  obtain ⟨⟨p, k⟩, hk, he⟩ := bind_eq_ok hs
  simp only [Except.ok.injEq, Prod.mk.injEq] at he
  obtain ⟨rfl, rfl⟩ := he
  have hstep₁ : KmemStep s.kernel ⟨k, ⟨p, 2⟩ :: s.kernel.live⟩ := .alloc (by decide) hk
  have ha₁ : Aside s₀ ⟨⟨k, ⟨p, 2⟩ :: s.kernel.live⟩, s.mem⟩ := ha.trans
    ⟨.single hstep₁, fun b hb => List.mem_cons_of_mem _ hb, fun _ _ => rfl⟩
  obtain ⟨h₁, -⟩ := h.aside ha₁
  obtain ⟨⟨f, kernel⟩, hp, he⟩ := bind_eq_ok hc
  simp only [Except.ok.injEq, Prod.mk.injEq] at he
  obtain ⟨rfl, rfl⟩ := he
  obtain ⟨halign, hfresh, -⟩ := KmemRun.allocPage_frame h₁.tables.kmem h₁.tables.direct hp
  obtain ⟨hstep, hlive⟩ := KmemRun.allocPage_step hp
  have hupper := UserSpace.copyUpperHalf_mem (s := ⟨kernel, clearPage s.mem f⟩) parent halign
  have hkernel : (UserSpace.copyUpperHalf ⟨kernel, clearPage s.mem f⟩ parent f).kernel = kernel := rfl
  generalize UserSpace.copyUpperHalf ⟨kernel, clearPage s.mem f⟩ parent f = s₂ at hupper hkernel ⊢
  subst hkernel
  obtain ⟨hout, hlow⟩ := hupper
  have ha₂ : Aside s₀ s₂ := by
    refine ha₁.trans ⟨.single hstep, ?_, fun a hl => ?_⟩
    · intro b hb
      exact hlive ▸ List.mem_cons_of_mem _ hb
    · have hne : a &&& pageAddressMask ≠ f := by
        rintro rfl
        exact hfresh hl
      exact (hout a hne).trans (if_neg hne)
  obtain ⟨hmap, hframe, hbytes, howns⟩ := h.aside ha₂
  have hempty : EmptyLowerHalf s₂.kernel s₂.mem f := by
    refine ⟨halign, by rw [hlive]; exact List.mem_cons_self, fun i hi => ?_⟩
    exact (hlow i hi).trans (if_pos (entryAddress_mask halign (by omega)))
  obtain ⟨hchild, hnone, hroot⟩ := hempty.userMap hmap.tables.kmem hmap.tables.direct
  have hf₀ : ⟨f, 1⟩ ∉ s₀.kernel.live := fun hmem => hfresh (ha₁.live _ hmem)
  refine ⟨hmap, hchild, ?_, hframe, hbytes, ?_, ?_, ?_⟩
  · intro t ht ht'
    obtain rfl := hroot t ht'
    exact hf₀ (h.live ((howns t).mp ht))
  · intro v hv
    exact iff_of_false (by rw [show s₂.frameAt f v = none from hnone v hv]; simp) id
  · intro v w t hv _ hvt _
    rw [show s₂.frameAt f v = none from hnone v hv] at hvt
    cases hvt
  · exact fun v _ hn => hn.elim

/-- FORK up to the first range, and what the loops then add. -/
theorem UserMap.forkMemory {s : TaskMemory} {k : UserKernel} {fds : List U32}
    (h : UserMap s.kernel.space parent)
    (hstart : ∀ range ∈ s.memoryRangesLh, PageAligned range.start ∨ range.stop ≤ range.start)
    (hstop : ∀ range ∈ s.memoryRangesLh, range.stop.toNat ≤ 2 ^ 47)
    (hmapped : ∀ range ∈ s.memoryRangesLh, ∀ v : U64, v.toNat < 2 ^ 47 →
      ForkCovers range (v.toNat / 4096) → (s.kernel.space.frameAt parent v).isSome)
    (hf : Persistos.forkMemory s parent fds = .ok (k, child)) :
    Cloning s.kernel.space parent child k.space fun n =>
      ∃ range ∈ s.memoryRangesLh, ForkCovers range n := by
  obtain ⟨⟨space, taskStructs⟩, ha, hf⟩ := bind_eq_ok hf
  obtain ⟨⟨stack, kernel⟩, hs, hf⟩ := bind_eq_ok hf
  obtain ⟨⟨newPml4, space'⟩, hc, hf⟩ := bind_eq_ok hf
  obtain ⟨k₁, hranges, hf⟩ := bind_eq_ok hf
  obtain ⟨k₂, hfiles, hf⟩ := bind_eq_ok hf
  obtain ⟨rfl, rfl⟩ := Prod.mk.inj (Except.ok.inj hf)
  have h₀ := h.cloning (UserSpace.slabAlloc_aside h.tables.kmem h.tables.direct ha) hs hc
  have h₁ := Cloning.cloneRanges (k := { s.kernel with
    space := space'.copyUpperHalf parent newPml4, taskStructs }) h₀ hstart hstop hmapped hranges
  exact (h₁.cloneFiles hfiles).congr fun n => by simp

end Persistos
