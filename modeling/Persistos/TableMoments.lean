import Persistos.UserPages

/-! The memories between the single stores of the kernel while it maps pages. Each of them
has the translations of before the call or of after it. -/

namespace Persistos

open Theory

/-- `memset` of a page with zeros, as far as its byte `n`. -/
def clearBytes (mem : Memory) (page : U64) (n : Nat) : Memory :=
  (List.range n).foldl (fun mem i => writeByte mem (page + BitVec.ofNat 64 i) 0) mem

def clearMoments (mem : Memory) (page : U64) : List Memory :=
  (List.range 4096).map (clearBytes mem page) ++ [clearPage mem page]

/-- The moments of a call and then, where it returns, those of what follows. -/
def momentsThen {α : Type} (moments : List Memory) (result : Except Crash α)
    (next : α → List Memory) : List Memory :=
  moments ++ match result with
    | .error _ => []
    | .ok a => next a

section

variable {κ : Type} (kpageAlloc : κ → Except Crash (U64 × κ)) (hhdmOffset : U64)

def nextTableMoments (k : κ) (mem : Memory) (entry : U64) : List Memory :=
  if (mem entry &&& pageAddressMask) + hhdmOffset = hhdmOffset then
    momentsThen [] (kpageAlloc k) fun (page, _) => clearMoments mem page ++
      [writeWord (clearPage mem page) entry ((page - hhdmOffset) ||| pageDirectoryAttributes)]
  else []

def setPageMappingMoments (k : κ) (mem : Memory) (pml4Page virtAddress physAddress : U64)
    (isMmio : Bool) : List Memory :=
  if physAddress &&& 4095 ≠ 0 then []
  else
    let pml4Entry := entryAddress pml4Page (tableIndex virtAddress 39)
    momentsThen (nextTableMoments kpageAlloc hhdmOffset k mem pml4Entry)
      (nextTable kpageAlloc hhdmOffset k mem pml4Entry) fun (ptpdEntries, k, mem) =>
    let ptpdEntry := entryAddress ptpdEntries (tableIndex virtAddress 30)
    momentsThen (nextTableMoments kpageAlloc hhdmOffset k mem ptpdEntry)
      (nextTable kpageAlloc hhdmOffset k mem ptpdEntry) fun (pdEntries, k, mem) =>
    let pdEntry := entryAddress pdEntries (tableIndex virtAddress 21)
    momentsThen (nextTableMoments kpageAlloc hhdmOffset k mem pdEntry)
      (nextTable kpageAlloc hhdmOffset k mem pdEntry) fun (ptEntries, _, mem) =>
    [writeWord mem (entryAddress ptEntries (tableIndex virtAddress 12))
      (physAddress ||| if isMmio then pageTableMmioAttributes else pageTableAttributes)]

end

namespace UserSpace

def mapUserPageMoments (s : UserSpace) (pml4Page userSpaceAddress : U64) : List Memory :=
  momentsThen (momentsThen [] s.kernel.allocPage fun (page, _) => clearMoments s.mem page)
    s.allocCleared fun (kernelSpaceAddress, s) =>
      setPageMappingMoments KmemRun.allocPage s.hhdm s.kernel s.mem pml4Page userSpaceAddress
        (kernelSpaceAddress - s.hhdm) false

/-- The moments of the loop over the pages of a range. -/
def mapPagesMoments (pml4Page stop : U64) : Nat → UserSpace → U64 → List Memory
  | 0, _, _ => []
  | fuel + 1, s, page =>
    if page < stop then
      momentsThen (s.mapUserPageMoments pml4Page page) (mapPage pml4Page s page) fun s =>
        mapPagesMoments pml4Page stop fuel s (page + 0x1000)
    else []

def setupMoments (pml4Page : U64) : UserSpace → List UserspaceMemoryRange → List Memory
  | _, [] => []
  | s, range :: ranges =>
    let start := range.start &&& pageAddressMask
    momentsThen (mapPagesMoments pml4Page range.stop s.pageFuel s start)
      (s.mapPages pml4Page start range.stop) fun (s, _) => setupMoments pml4Page s ranges

/-- The moments of the `memset` of a new page of a slab. -/
def slabAllocMoments (s : UserSpace) (allocator : SlabAllocator) : List Memory :=
  momentsThen [] (Persistos.slabAlloc KmemRun.allocPage s.kernel allocator) fun (_, _, _, new) =>
    match new with
    | none => []
    | some page => clearMoments s.mem page

end UserSpace

/-- The frame of an address by the tables in the given memory. -/
def frameIn (hhdmOffset pml4 : U64) (mem : Memory) (v : U64) : Option U64 :=
  (translate hhdmOffset mem pml4 v).map fun entry => entry.1 + hhdmOffset

/-- `map_user_page` for a list of pages, with the moments of all the calls. -/
inductive MapsPages (pml4 : U64) : UserSpace → List U64 → List Memory → UserSpace → Prop where
  | nil {s : UserSpace} : MapsPages pml4 s [] [] s
  | cons {s s₁ s' : UserSpace} {p f : U64} {ps : List U64} {moments : List Memory}
      (hm : s.mapUserPage pml4 p = .ok (f, s₁)) (h : MapsPages pml4 s₁ ps moments s') :
      MapsPages pml4 s (p :: ps) (s.mapUserPageMoments pml4 p ++ moments) s'

section Clear

variable {mem m : Memory} {page a : U64} {α : Type}

theorem mem_momentsThen {moments : List Memory} {result : Except Crash α}
    {next : α → List Memory} :
    m ∈ momentsThen moments result next ↔ m ∈ moments ∨ ∃ a, result = .ok a ∧ m ∈ next a := by
  cases result with
  | error e => simp [momentsThen]
  | ok a => simp [momentsThen]

theorem clearBytes_outside (hp : PageAligned page) (ha : a &&& pageAddressMask ≠ page) {n : Nat}
    (hn : n ≤ 4096) : clearBytes mem page n a = mem a := by
  induction n with
  | zero => rfl
  | succ n ih =>
    rw [clearBytes, List.range_succ, List.foldl_append]
    refine (writeByte_outside 0 ?_).trans (ih (by omega))
    rwa [hp.add_mask (by omega)]

theorem clearMoments_outside (hp : PageAligned page) (hm : m ∈ clearMoments mem page)
    (ha : a &&& pageAddressMask ≠ page) : m a = mem a := by
  rcases List.mem_append.mp hm with hm | hm
  · obtain ⟨n, hn, rfl⟩ := List.mem_map.mp hm
    exact clearBytes_outside hp ha (Nat.le_of_lt (List.mem_range.mp hn))
  · obtain rfl := List.mem_singleton.mp hm
    exact if_neg ha

theorem clearPage_mem_clearMoments (mem : Memory) (page : U64) :
    clearPage mem page ∈ clearMoments mem page :=
  List.mem_append_right _ (List.mem_singleton_self _)

end Clear

section Map

variable {r r' : KmemRun} {mem mem' m : Memory} {pml4 virt phys v : U64} {isMmio : Bool}

/-- A page that is in no table can be cleared without any effect on the translations. -/
theorem PageTables.clearMoments (h : PageTables r mem pml4) {page : U64} {k : KmemRun}
    (ha : r.allocPage = .ok (page, k)) (hm : m ∈ Persistos.clearMoments mem page) (hv : v.toNat < 2 ^ 47) :
    translate r.kmem.hhdmOffset m pml4 v = translate r.kmem.hhdmOffset mem pml4 v := by
  obtain ⟨halign, hfresh, -⟩ := KmemRun.allocPage_frame h.kmem h.direct ha
  refine (h.writeOutside fun a ht => clearMoments_outside halign hm ?_).2 v hv
  rintro rfl
  exact hfresh (h.table _ ht).2

theorem PageTables.nextTableMoments (h : PageTables r mem pml4) {p : List Nat} {i : Nat} {t u : U64}
    (hp : Paths LowerPath 3 (p ++ [i]))
    (ht : descend (child r.kmem.hhdmOffset mem) pml4 p = some t)
    (hn : Persistos.nextTable KmemRun.allocPage r.kmem.hhdmOffset r mem (entryAddress t i) =
      .ok (u, r', mem'))
    (hm : m ∈ Persistos.nextTableMoments KmemRun.allocPage r.kmem.hhdmOffset r mem (entryAddress t i))
    (hv : v.toNat < 2 ^ 47) :
    translate r.kmem.hhdmOffset m pml4 v = translate r.kmem.hhdmOffset mem pml4 v := by
  obtain ⟨-, -, -, htr⟩ := h.nextTable hp ht hn
  rw [Persistos.nextTableMoments] at hm
  rw [Persistos.nextTable] at hn
  split at hm
  · next habsent =>
    rw [if_pos habsent] at hn
    rcases mem_momentsThen.mp hm with hm | ⟨⟨page, k⟩, ha, hm⟩
    · cases hm
    · rw [ha] at hn
      obtain ⟨rfl, -, rfl⟩ := Except.ok.inj hn |> Prod.mk.inj |>.imp_right Prod.mk.inj
      rcases List.mem_append.mp hm with hm | hm
      · exact h.clearMoments ha hm hv
      · obtain rfl := List.mem_singleton.mp hm
        exact htr v hv
  · cases hm

/-- Only the last store of `set_page_mapping` changes a translation. -/
theorem PageTables.setPageMappingMoments (h : PageTables r mem pml4) (hvirt : virt.toNat < 2 ^ 47)
    (hphys : PageAligned phys) (hphys₀ : phys ≠ 0)
    (hs : Persistos.setPageMapping KmemRun.allocPage r.kmem.hhdmOffset r mem pml4 virt phys isMmio =
      .ok (r', mem'))
    (hm : m ∈ Persistos.setPageMappingMoments KmemRun.allocPage r.kmem.hhdmOffset r mem pml4 virt phys isMmio)
    (hv : v.toNat < 2 ^ 47) :
    translate r.kmem.hhdmOffset m pml4 v = translate r.kmem.hhdmOffset mem pml4 v ∨ m = mem' := by
  have hpre : ∀ path i, LowerPath (path ++ [i]) → LowerPath path := fun _ _ => LowerPath.of_snoc
  have hp₃ := tablePath_paths hvirt
  have hp₂ : Paths LowerPath 3 ([tableIndex virt 39] ++ [tableIndex virt 30]) :=
    (show Paths LowerPath 3 ([_, _] ++ [_]) from hp₃).of_snoc hpre |>.1
  have hp₁ : Paths LowerPath 3 ([] ++ [tableIndex virt 39]) := (hp₂.of_snoc hpre).1
  simp only [Persistos.setPageMapping, and_pageOffset hphys, ne_eq, not_true, if_false] at hs
  simp only [Persistos.setPageMappingMoments, and_pageOffset hphys, ne_eq, not_true, if_false] at hm
  obtain ⟨⟨t₁, r₁, m₁⟩, h₁, hs⟩ := bind_eq_ok hs
  obtain ⟨⟨t₂, r₂, m₂⟩, h₂, hs⟩ := bind_eq_ok hs
  obtain ⟨⟨t₃, r₃, m₃⟩, h₃, hs⟩ := bind_eq_ok hs
  obtain ⟨-, rfl⟩ := Prod.mk.inj (Except.ok.inj hs)
  obtain ⟨i₁, g₁, d₁, e₁⟩ := h.nextTable hp₁ rfl h₁
  have o₁ := g₁.hhdm
  rw [← o₁] at d₁
  have h₂' := h₂
  rw [← o₁] at h₂'
  obtain ⟨i₂, g₂, d₂, e₂⟩ := i₁.nextTable hp₂ d₁ h₂'
  have o₂ := g₂.hhdm
  have h₃' := h₃
  rw [← o₁, ← o₂] at h₃'
  rw [← o₂] at d₂
  simp only [o₂, o₁] at e₂ h₃'
  rcases mem_momentsThen.mp hm with hm | ⟨x₁, hx₁, hm⟩
  · exact .inl (h.nextTableMoments hp₁ rfl h₁ hm hv)
  obtain rfl := Except.ok.inj (h₁.symm.trans hx₁)
  rcases mem_momentsThen.mp hm with hm | ⟨x₂, hx₂, hm⟩
  · refine .inl (Eq.trans ?_ (e₁ v hv))
    rw [← o₁] at hm ⊢
    exact i₁.nextTableMoments hp₂ d₁ h₂' hm hv
  obtain rfl := Except.ok.inj (h₂.symm.trans hx₂)
  rcases mem_momentsThen.mp hm with hm | ⟨x₃, hx₃, hm⟩
  · refine .inl (Eq.trans ?_ ((e₂ v hv).trans (e₁ v hv)))
    have ho : r₂.kmem.hhdmOffset = r.kmem.hhdmOffset := o₂.trans o₁
    rw [← ho] at hm h₃ ⊢
    exact i₂.nextTableMoments (p := [_, _]) hp₃ d₂ h₃ hm hv
  obtain rfl := Except.ok.inj (h₃.symm.trans hx₃)
  exact .inr (List.mem_singleton.mp hm)

end Map

section Pages

variable {s s₁ s' : UserSpace} {pml4 p v f : U64} {m : Memory} {ps ps' : List U64}
  {moments moments' : List Memory}

theorem UserMap.mapUserPageMoments (h : UserMap s pml4) (hp : p.toNat < 2 ^ 47)
    (hmap : s.mapUserPage pml4 p = .ok (f, s')) (hm : m ∈ s.mapUserPageMoments pml4 p)
    (hv : v.toNat < 2 ^ 47) :
    frameIn s.hhdm pml4 m v = s.frameAt pml4 v ∨ m = s'.mem := by
  obtain ⟨⟨f, s₀⟩, halloc, hmap⟩ := bind_eq_ok hmap
  obtain ⟨⟨kernel, mem⟩, hset, he⟩ := bind_eq_ok hmap
  obtain ⟨rfl, rfl⟩ := Prod.mk.inj (Except.ok.inj he)
  obtain ⟨⟨f, kernel₀⟩, ha, he⟩ := bind_eq_ok halloc
  obtain ⟨rfl, rfl⟩ := Prod.mk.inj (Except.ok.inj he)
  obtain ⟨halign, hfresh, hlt⟩ := KmemRun.allocPage_frame h.tables.kmem h.tables.direct ha
  obtain ⟨hstep, hlive⟩ := KmemRun.allocPage_step ha
  have hhdm : kernel₀.kmem.hhdmOffset = s.hhdm := hstep.region.1
  have hclear : ∀ m ∈ clearMoments s.mem f,
      translate s.hhdm m pml4 v = translate s.hhdm s.mem pml4 v :=
    fun m hm => h.tables.clearMoments ha hm hv
  rcases mem_momentsThen.mp hm with hm | ⟨x, hx, hm⟩
  · rcases mem_momentsThen.mp hm with hm | ⟨⟨page, k⟩, hk, hm⟩
    · cases hm
    · obtain ⟨rfl, rfl⟩ := Prod.mk.inj (Except.ok.inj (ha.symm.trans hk))
      exact .inl (congrArg _ (hclear m hm))
  · obtain rfl := Except.ok.inj (halloc.symm.trans hx)
    have htables : PageTables kernel₀ (clearPage s.mem f) pml4 := by
      refine ((h.congr ⟨kernel₀, clearPage s.mem f⟩ (.single hstep) (fun t ht => ?_)
        fun a hta => if_neg ?_).1).tables
      · rw [hlive]
        exact List.mem_cons_of_mem _ (h.live ht)
      · rintro rfl
        exact hfresh (h.live (.inl hta))
    have hoff := h.tables.direct.offset_aligned
    have hphys : PageAligned (f - kernel₀.kmem.hhdmOffset) := by
      rw [hhdm]
      simp only [PageAligned, UserSpace.hhdm] at halign hoff ⊢
      rw [BitVec.toNat_sub]
      omega
    have hphys₀ : f - kernel₀.kmem.hhdmOffset ≠ 0 := by
      rw [hhdm]
      simp only [UserSpace.hhdm]
      bv_omega
    refine (htables.setPageMappingMoments hp hphys hphys₀ hset hm hv).imp_left fun he => ?_
    rw [hhdm] at he
    exact congrArg _ (he.trans (hclear _ (clearPage_mem_clearMoments _ _)))

theorem mem_mapUserPageMoments (hmap : s.mapUserPage pml4 p = .ok (f, s')) :
    s'.mem ∈ s.mapUserPageMoments pml4 p := by
  obtain ⟨⟨f, s₀⟩, halloc, hmap⟩ := bind_eq_ok hmap
  obtain ⟨⟨kernel, mem⟩, hset, he⟩ := bind_eq_ok hmap
  obtain ⟨rfl, rfl⟩ := Prod.mk.inj (Except.ok.inj he)
  refine mem_momentsThen.mpr (.inr ⟨_, halloc, ?_⟩)
  dsimp only
  rw [setPageMapping] at hset
  rw [setPageMappingMoments]
  split at hset
  · cases hset
  · next haligned =>
    rw [if_neg haligned]
    obtain ⟨x₁, h₁, hset⟩ := bind_eq_ok hset
    obtain ⟨x₂, h₂, hset⟩ := bind_eq_ok hset
    obtain ⟨x₃, h₃, hset⟩ := bind_eq_ok hset
    obtain ⟨-, rfl⟩ := Prod.mk.inj (Except.ok.inj hset)
    refine mem_momentsThen.mpr (.inr ⟨_, h₁, ?_⟩)
    refine mem_momentsThen.mpr (.inr ⟨_, h₂, ?_⟩)
    exact mem_momentsThen.mpr (.inr ⟨_, h₃, List.mem_singleton_self _⟩)

namespace MapsPages

theorem append (h : MapsPages pml4 s ps moments s₁) (h' : MapsPages pml4 s₁ ps' moments' s') :
    MapsPages pml4 s (ps ++ ps') (moments ++ moments') s' := by
  induction h with
  | nil => exact h'
  | cons hm _ ih =>
    rw [List.append_assoc]
    exact .cons hm (ih h')

/-- The calls that the loop over a range makes. -/
theorem of_forPages {stop page last : U64} {fuel : Nat} (hstop : stop.toNat ≤ 2 ^ 47)
    (hpage : PageAligned page)
    (h : UserSpace.forPages (UserSpace.mapPage pml4) stop fuel s page = .ok (s', last)) :
    ∃ ps, MapsPages pml4 s ps (UserSpace.mapPagesMoments pml4 stop fuel s page) s' ∧
      (∀ p ∈ ps, p.toNat < 2 ^ 47) ∧
      ∀ n, ps.countP (fun p => p.toNat / 4096 = n) = if Between page stop n then 1 else 0 := by
  induction fuel generalizing s page with
  | zero => cases h
  | succ fuel ih =>
    rw [UserSpace.forPages] at h
    rw [UserSpace.mapPagesMoments]
    simp only [PageAligned] at hpage
    split at h
    · next hlt =>
      have hlt' : page.toNat < stop.toNat := hlt
      have hnext : (page + 0x1000).toNat = page.toNat + 4096 := by
        rw [BitVec.toNat_add, show (0x1000 : U64).toNat = 4096 from rfl]
        omega
      obtain ⟨s₁, hs₁, h⟩ := bind_eq_ok h
      obtain ⟨⟨f, s₂⟩, hmap, he⟩ := bind_eq_ok hs₁
      obtain rfl := Except.ok.inj he
      obtain ⟨ps, hps, hlow, hcount⟩ := ih (by simp only [PageAligned]; omega) h
      refine ⟨page :: ps, ?_, List.forall_mem_cons.mpr ⟨by omega, hlow⟩, fun n => ?_⟩
      · rw [if_pos hlt, hs₁]
        exact .cons hmap hps
      · rw [List.countP_cons, hcount]
        by_cases hn : page.toNat / 4096 = n
        · have hrest : ¬Between (page + 0x1000) stop n := by
            simp only [Between, hnext]
            omega
          rw [if_neg hrest, if_pos (decide_eq_true hn), if_pos ⟨Nat.le_of_eq hn, by omega⟩]
        · have hrest : Between (page + 0x1000) stop n ↔ Between page stop n := by
            simp only [Between, hnext]
            omega
          rw [if_congr hrest rfl rfl, if_neg (c := decide _ = true) (by simpa using hn), Nat.add_zero]
    · next hge =>
      obtain ⟨rfl, -⟩ := Prod.mk.inj (Except.ok.inj h)
      have hge' : stop.toNat ≤ page.toNat := Nat.le_of_not_lt hge
      refine ⟨[], ?_, by simp, fun n => ?_⟩
      · rw [if_neg hge]
        exact .nil
      · rw [if_neg, List.countP_nil]
        simp only [Between]
        omega

/-- A page is mapped once for each range that has it. -/
theorem of_setup {ranges : List UserspaceMemoryRange}
    (hstop : ∀ range ∈ ranges, range.stop.toNat ≤ 2 ^ 47)
    (h : s.setupUserspaceMemory pml4 ranges = .ok s') :
    ∃ ps, MapsPages pml4 s ps (UserSpace.setupMoments pml4 s ranges) s' ∧
      (∀ p ∈ ps, p.toNat < 2 ^ 47) ∧
      ∀ n, ps.countP (fun p => p.toNat / 4096 = n) =
        ranges.countP fun range => Between range.start range.stop n := by
  induction ranges generalizing s with
  | nil =>
    obtain rfl := Except.ok.inj h
    exact ⟨[], .nil, by simp, fun n => rfl⟩
  | cons range ranges ih =>
    obtain ⟨hstop₁, hstop⟩ := List.forall_mem_cons.mp hstop
    obtain ⟨s₁, h₁, h⟩ := bind_eq_ok h
    obtain ⟨⟨s₂, last⟩, hrange, he⟩ := bind_eq_ok h₁
    obtain rfl := Except.ok.inj he
    have halign : PageAligned (range.start &&& pageAddressMask) := by
      simp only [PageAligned, mask_toNat]
      omega
    obtain ⟨ps₁, hps₁, hlow₁, hcount₁⟩ := of_forPages hstop₁ halign hrange
    obtain ⟨ps₂, hps₂, hlow₂, hcount₂⟩ := ih hstop h
    refine ⟨ps₁ ++ ps₂, ?_, ?_, fun n => ?_⟩
    · rw [UserSpace.setupMoments, hrange]
      exact hps₁.append hps₂
    · intro p hp
      exact (List.mem_append.mp hp).elim (hlow₁ p) (hlow₂ p)
    · rw [List.countP_append, hcount₁, hcount₂, List.countP_cons, Nat.add_comm]
      simp only [between_mask, decide_eq_true_eq]

/-- The calls so far, and what they leave of the frames and of what was allocated. -/
theorem spec (h : MapsPages pml4 s ps moments s') (hs : OwnFrames pml4 s)
    (hp : ∀ p ∈ ps, p.toNat < 2 ^ 47) :
    OwnFrames pml4 s' ∧ Relation.ReflTransGen KmemStep s.kernel s'.kernel ∧
      ∀ b ∈ s.kernel.live, b ∈ s'.kernel.live := by
  induction h with
  | nil => exact ⟨hs, .refl, fun _ hb => hb⟩
  | cons hm _ ih =>
    obtain ⟨hp, hps⟩ := List.forall_mem_cons.mp hp
    obtain ⟨-, hgrow, -⟩ := hs.map.mapUserPage hp hm
    obtain ⟨hown, hsteps, hlive⟩ := ih (hs.mapUserPage hp hm) hps
    exact ⟨hown, hgrow.steps.trans hsteps, fun b hb => hlive b (hgrow.live b hb)⟩

/-- Where no call maps the page of an address, nothing changes for it. -/
theorem frame_of_not_mapped (h : MapsPages pml4 s ps moments s') (hs : OwnFrames pml4 s)
    (hp : ∀ p ∈ ps, p.toNat < 2 ^ 47) (hv : v.toNat < 2 ^ 47)
    (hnot : ∀ p ∈ ps, p.toNat / 4096 ≠ v.toNat / 4096) :
    s'.frameAt pml4 v = s.frameAt pml4 v ∧
      ∀ m ∈ moments, frameIn s.hhdm pml4 m v = s.frameAt pml4 v := by
  induction h with
  | nil => exact ⟨rfl, fun m hm => absurd hm List.not_mem_nil⟩
  | @cons s s₁ s' p f ps moments hm _ ih =>
    obtain ⟨hp, hps⟩ := List.forall_mem_cons.mp hp
    obtain ⟨hne, hnot⟩ := List.forall_mem_cons.mp hnot
    obtain ⟨-, hgrow, -, -, -, -, hframe⟩ := hs.map.mapUserPage hp hm
    obtain ⟨hrest, hmoments⟩ := ih (hs.mapUserPage hp hm) hps hnot
    have hkeep : s₁.frameAt pml4 v = s.frameAt pml4 v := by
      rw [hframe v hv, if_neg fun he => hne (page_eq_iff.mp he).symm]
    have hhdm : s₁.hhdm = s.hhdm := hgrow.hhdm
    rw [hkeep, hhdm] at hmoments
    refine ⟨hrest.trans hkeep, fun m hmem => ?_⟩
    rcases List.mem_append.mp hmem with hmem | hmem
    · rcases hs.map.mapUserPageMoments hp hm hmem hv with he | rfl
      · exact he
      · rw [← hkeep, ← hhdm]
        rfl
    · exact hmoments m hmem

/-- Where at most one call does, it is mapped as before or as after all the calls. -/
theorem frame_of_mapped_once (h : MapsPages pml4 s ps moments s') (hs : OwnFrames pml4 s)
    (hp : ∀ p ∈ ps, p.toNat < 2 ^ 47) (hv : v.toNat < 2 ^ 47)
    (honce : ps.countP (fun p => p.toNat / 4096 = v.toNat / 4096) ≤ 1) (hm : m ∈ moments) :
    frameIn s.hhdm pml4 m v = s.frameAt pml4 v ∨ frameIn s.hhdm pml4 m v = s'.frameAt pml4 v := by
  induction h with
  | nil => cases hm
  | @cons s s₁ s' p f ps moments hmap hrest ih =>
    obtain ⟨hp, hps⟩ := List.forall_mem_cons.mp hp
    obtain ⟨-, hgrow, -, -, -, -, hframe⟩ := hs.map.mapUserPage hp hmap
    have hown := hs.mapUserPage hp hmap
    have hhdm : s₁.hhdm = s.hhdm := hgrow.hhdm
    rw [List.countP_cons] at honce
    rw [hhdm] at ih
    by_cases hpage : p.toNat / 4096 = v.toNat / 4096
    · rw [if_pos (decide_eq_true hpage)] at honce
      have hnot : ∀ q ∈ ps, q.toNat / 4096 ≠ v.toNat / 4096 := by
        have hzero := List.countP_eq_zero.mp (Nat.le_zero.mp (Nat.le_of_succ_le_succ honce))
        exact fun q hq he => hzero q hq (decide_eq_true he)
      obtain ⟨hlast, hmoments⟩ := hrest.frame_of_not_mapped hown hps hv hnot
      rw [hhdm] at hmoments
      rcases List.mem_append.mp hm with hm | hm
      · rcases hs.map.mapUserPageMoments hp hmap hm hv with he | rfl
        · exact .inl he
        · refine .inr (Eq.trans ?_ hlast.symm)
          rw [← hhdm]
          rfl
      · exact .inr ((hmoments m hm).trans hlast.symm)
    · have hkeep : s₁.frameAt pml4 v = s.frameAt pml4 v := by
        rw [hframe v hv, if_neg fun he => hpage (page_eq_iff.mp he).symm]
      rw [hkeep] at ih
      rcases List.mem_append.mp hm with hm | hm
      · rcases hs.map.mapUserPageMoments hp hmap hm hv with he | rfl
        · exact .inl he
        · refine .inl (Eq.trans ?_ hkeep)
          rw [← hhdm]
          rfl
      · exact ih hown hps (Nat.le_trans (Nat.le_add_right _ _) honce) hm

/-- A page that is mapped does not get a frame that was allocated before. -/
theorem frame_ne_of_live (h : MapsPages pml4 s ps moments s') (hs : OwnFrames pml4 s)
    (hp : ∀ p ∈ ps, p.toNat < 2 ^ 47) (hv : v.toNat < 2 ^ 47)
    (hmapped : ∃ p ∈ ps, p.toNat / 4096 = v.toNat / 4096) (hf : ⟨f, 1⟩ ∈ s.kernel.live) :
    s'.frameAt pml4 v ≠ some f := by
  induction h with
  | nil =>
    obtain ⟨p, hin, -⟩ := hmapped
    cases hin
  | @cons s s₁ s' p g ps moments hmap hrest ih =>
    obtain ⟨hp, hps⟩ := List.forall_mem_cons.mp hp
    obtain ⟨-, hgrow, hfresh, -, -, -, hframe⟩ := hs.map.mapUserPage hp hmap
    have hown := hs.mapUserPage hp hmap
    by_cases hlater : ∃ q ∈ ps, q.toNat / 4096 = v.toNat / 4096
    · exact ih hown hps hlater (hgrow.live _ hf)
    · have hpage : p.toNat / 4096 = v.toNat / 4096 :=
        ((List.exists_mem_cons_iff _ _ _).mp hmapped).resolve_right hlater
      have hnot : ∀ q ∈ ps, q.toNat / 4096 ≠ v.toNat / 4096 :=
        fun q hq he => hlater ⟨q, hq, he⟩
      rw [(hrest.frame_of_not_mapped hown hps hv hnot).1, hframe v hv,
        if_pos (page_eq_iff.mpr hpage.symm)]
      intro he
      obtain rfl := Option.some.inj he
      exact hfresh hf

/-- A page that is mapped twice has another frame in between than at the end. -/
theorem frame_of_mapped_twice (h : MapsPages pml4 s ps moments s') (hs : OwnFrames pml4 s)
    (hp : ∀ p ∈ ps, p.toNat < 2 ^ 47) (hv : v.toNat < 2 ^ 47)
    (htwice : 2 ≤ ps.countP fun p => p.toNat / 4096 = v.toNat / 4096) :
    ∃ m ∈ moments, ∃ f, frameIn s.hhdm pml4 m v = some f ∧ s'.frameAt pml4 v ≠ some f := by
  induction h with
  | nil => exact absurd htwice (by simp)
  | @cons s s₁ s' p g ps moments hmap hrest ih =>
    obtain ⟨hp, hps⟩ := List.forall_mem_cons.mp hp
    obtain ⟨-, hgrow, -, hlive, -, -, hframe⟩ := hs.map.mapUserPage hp hmap
    have hown := hs.mapUserPage hp hmap
    have hhdm : s₁.hhdm = s.hhdm := hgrow.hhdm
    rw [List.countP_cons] at htwice
    by_cases hpage : p.toNat / 4096 = v.toNat / 4096
    · rw [if_pos (decide_eq_true hpage)] at htwice
      obtain ⟨q, hq, hqv⟩ := List.countP_pos_iff.mp (Nat.le_of_succ_le_succ htwice)
      refine ⟨s₁.mem, List.mem_append_left _ (mem_mapUserPageMoments hmap), g, ?_,
        hrest.frame_ne_of_live hown hps hv ⟨q, hq, of_decide_eq_true hqv⟩ hlive⟩
      have hnow : s₁.frameAt pml4 v = some g := by
        rw [hframe v hv, if_pos (page_eq_iff.mpr hpage.symm)]
      rw [← hhdm]
      exact hnow
    · rw [if_neg (by simpa using hpage), Nat.add_zero] at htwice
      obtain ⟨m, hm, f, hmf, hne⟩ := ih hown hps htwice
      rw [hhdm] at hmf
      exact ⟨m, List.mem_append_right _ hm, f, hmf, hne⟩

end MapsPages

end Pages

end Persistos
