import Persistos.Userspace
import Persistos.MapRuns

/-! What a user program sees through its page tables, byte by byte, and how
`map_user_page` and `memcpy` from user memory change it. -/

namespace Persistos

open Theory

/-- The byte at an address of a memory of aligned words. -/
def byteAt (mem : Memory) (a : U64) : U8 :=
  (mem (a &&& ~~~7#64) >>> (8 * (a &&& 7#64).toNat)).setWidth 8

def writeByte (mem : Memory) (a : U64) (b : U8) : Memory :=
  let shift := 8 * (a &&& 7#64).toNat
  writeWord mem (a &&& ~~~7#64)
    ((mem (a &&& ~~~7#64) &&& ~~~(0xFF#64 <<< shift)) ||| (b.setWidth 64 <<< shift))

theorem and_seven_toNat (a : U64) : (a &&& 7#64).toNat = a.toNat % 8 := by
  have hm : (7#64).toNat = 2 ^ 3 - 1 := rfl
  rw [BitVec.toNat_and, hm, Nat.and_two_pow_sub_one_eq_mod]

theorem and_not_seven_toNat (a : U64) : (a &&& ~~~7#64).toNat = a.toNat / 8 * 8 := by
  have hm : ~~~7#64 = BitVec.allOnes 64 <<< 3 := by decide
  have hh := a.isLt
  rw [hm, and_allOnes_shiftLeft, shiftLeft_toNat, shiftRight_toNat]
  omega

theorem getLsbD_byteMask (k : Nat) : (0xFF#64).getLsbD k = decide (k < 8) := by
  have hm : 0xFF#64 = BitVec.setWidth 64 (BitVec.allOnes 8) := by decide
  rw [hm, BitVec.getLsbD_setWidth, BitVec.getLsbD_allOnes]
  by_cases hk : k < 8
  · simp [hk]; omega
  · simp [hk]

theorem replaceByte (w : U64) (b : U8) {i j : Nat} (hi : i < 8) (hj : j < 8) :
    (((w &&& ~~~(0xFF#64 <<< (8 * i))) ||| (b.setWidth 64 <<< (8 * i))) >>> (8 * j)).setWidth 8 =
      if j = i then b else (w >>> (8 * j)).setWidth 8 := by
  ext k hk
  simp only [BitVec.getElem_setWidth, BitVec.getLsbD_ushiftRight, BitVec.getLsbD_or,
    BitVec.getLsbD_and, BitVec.getLsbD_not, BitVec.getLsbD_shiftLeft, getLsbD_byteMask]
  by_cases hij : j = i
  · subst hij
    have h1 : 8 * j + k < 64 := by omega
    have h2 : ¬ 8 * j + k < 8 * j := by omega
    simp [h1, h2, hk, BitVec.getLsbD_setWidth]
    omega
  · rw [if_neg hij]
    have h1 : 8 * j + k < 64 := by omega
    by_cases hlt : 8 * j + k < 8 * i
    · simp [h1, hlt]
    · have h3 : ¬ 8 * j + k - 8 * i < 8 := by omega
      have h4 := BitVec.getLsbD_of_ge b (8 * j + k - 8 * i) (by omega)
      simp [h1, hlt, h3, h4, BitVec.getLsbD_setWidth]

theorem byteAt_writeByte (mem : Memory) (a x : U64) (b : U8) :
    byteAt (writeByte mem a b) x = if x = a then b else byteAt mem x := by
  by_cases hw : x &&& ~~~7#64 = a &&& ~~~7#64
  · have hx := congrArg BitVec.toNat hw
    rw [and_not_seven_toNat, and_not_seven_toNat] at hx
    have hiff : ((x &&& 7#64).toNat = (a &&& 7#64).toNat) ↔ x = a := by
      rw [and_seven_toNat, and_seven_toNat]
      exact ⟨fun h => BitVec.eq_of_toNat_eq (by omega), fun h => h ▸ rfl⟩
    have hlt : ∀ y : U64, (y &&& 7#64).toNat < 8 := by
      intro y
      rw [and_seven_toNat]
      omega
    rw [byteAt, writeByte, hw, writeWord, if_pos rfl, replaceByte _ _ (hlt a) (hlt x), byteAt, hw]
    exact if_congr hiff rfl rfl
  · have hne : x ≠ a := fun h => hw (h ▸ rfl)
    rw [if_neg hne, byteAt, writeByte, writeWord, if_neg hw, byteAt]
theorem and_not_seven_mask (a : U64) : a &&& ~~~7#64 &&& pageAddressMask = a &&& pageAddressMask := by
  rw [BitVec.and_assoc, show ~~~7#64 &&& pageAddressMask = pageAddressMask by decide]

theorem writeByte_outside {mem : Memory} {a x : U64} (b : U8)
    (h : x &&& pageAddressMask ≠ a &&& pageAddressMask) : writeByte mem a b x = mem x := by
  refine if_neg ?_
  rintro rfl
  exact h (and_not_seven_mask a)

theorem byteAt_congr {mem mem' : Memory} {a : U64}
    (h : ∀ x, x &&& pageAddressMask = a &&& pageAddressMask → mem' x = mem x) :
    byteAt mem' a = byteAt mem a := by
  rw [byteAt, byteAt, h _ (and_not_seven_mask a)]

theorem PageAligned.add_mask {p : U64} (hp : PageAligned p) {n : Nat} (hn : n < 4096) :
    (p + BitVec.ofNat 64 n) &&& pageAddressMask = p := by
  have hh := hp.add_toNat hn
  exact mask_of_mem_page hp (by omega) (by omega)

theorem PageAligned.add_inj {p : U64} (hp : PageAligned p) {i j : Nat} (hi : i < 4096)
    (hj : j < 4096) : p + BitVec.ofNat 64 i = p + BitVec.ofNat 64 j ↔ i = j := by
  refine ⟨fun h => ?_, fun h => h ▸ rfl⟩
  have hh := congrArg BitVec.toNat h
  rw [hp.add_toNat hi, hp.add_toNat hj] at hh
  omega

theorem and_fff_toNat (a : U64) : (a &&& 0xFFF).toNat = a.toNat % 4096 := by
  have hm : (0xFFF : U64).toNat = 2 ^ 12 - 1 := rfl
  rw [BitVec.toNat_and, hm, Nat.and_two_pow_sub_one_eq_mod]

theorem page_eq_iff {v w : U64} : v >>> 12 = w >>> 12 ↔ v.toNat / 4096 = w.toNat / 4096 := by
  rw [← BitVec.toNat_inj, shiftRight_toNat, shiftRight_toNat]
  exact Iff.rfl

namespace UserSpace

/-- The frame, as the kernel sees it, that a page of user memory is mapped to. -/
def frameAt (s : UserSpace) (pml4 v : U64) : Option U64 :=
  (translate s.hhdm s.mem pml4 v).map fun entry => entry.1 + s.hhdm

/-- A read by the CPU with the tables of `pml4`, or a page fault. -/
def readUser (s : UserSpace) (pml4 v : U64) : Option U8 :=
  (s.frameAt pml4 v).map fun f => byteAt s.mem (f + (v &&& 0xFFF))

/-- `memcpy` of `n` bytes from user memory into memory of the kernel. -/
def copyFromUser (pml4 : U64) : Nat → UserSpace → (dest src : U64) → Except Crash UserSpace
  | 0, s, _, _ => .ok s
  | n + 1, s, dest, src =>
    match s.readUser pml4 src with
    | none => .error .outOfBounds
    | some b => copyFromUser pml4 n ⟨s.kernel, writeByte s.mem dest b⟩ (dest + 1) (src + 1)

def HasTable (s : UserSpace) (pml4 t : U64) : Prop :=
  IsTable (child s.hhdm s.mem) pml4 LowerPath 3 t

/-- The frames behind an address space: those of its tables and of its pages. -/
def Owns (s : UserSpace) (pml4 t : U64) : Prop :=
  s.HasTable pml4 t ∨ ∃ v : U64, v.toNat < 2 ^ 47 ∧ s.frameAt pml4 v = some t

end UserSpace

/-- Page tables that lead to allocated frames, none of which is itself a table. -/
structure UserMap (s : UserSpace) (pml4 : U64) : Prop where
  tables : PageTables s.kernel s.mem pml4
  frame : ∀ v f : U64, v.toNat < 2 ^ 47 → s.frameAt pml4 v = some f →
    ⟨f, 1⟩ ∈ s.kernel.live ∧ ¬s.HasTable pml4 f

section

variable {s s' : UserSpace} {pml4 v w f g : U64}

theorem frameAt_congr_page (h : v >>> 12 = w >>> 12) : s.frameAt pml4 v = s.frameAt pml4 w := by
  obtain ⟨hp, hi⟩ := indices_of_page_eq h
  rw [UserSpace.frameAt, UserSpace.frameAt, translate, translate, hp, hi]

namespace UserMap

theorem live (h : UserMap s pml4) (ho : s.Owns pml4 f) : ⟨f, 1⟩ ∈ s.kernel.live := by
  rcases ho with ht | ⟨v, hv, hf⟩
  · exact (h.tables.table f ht).2
  · exact (h.frame v f hv hf).1

theorem aligned (h : UserMap s pml4) (ho : s.Owns pml4 f) : PageAligned f :=
  (h.tables.kmem.page_toNat h.tables.direct (h.live ho)).1

/-- Whatever the kernel does elsewhere, an address space whose frames stay allocated
and whose tables are not written stays as it is. -/
theorem congr (h : UserMap s pml4) (s' : UserSpace)
    (hk : Relation.ReflTransGen KmemStep s.kernel s'.kernel)
    (hlive : ∀ t, s.Owns pml4 t → ⟨t, 1⟩ ∈ s'.kernel.live)
    (hmem : ∀ a, s.HasTable pml4 (a &&& pageAddressMask) → s'.mem a = s.mem a) :
    UserMap s' pml4 ∧ (∀ v : U64, v.toNat < 2 ^ 47 → s'.frameAt pml4 v = s.frameAt pml4 v) ∧
      ∀ t, s'.HasTable pml4 t ↔ s.HasTable pml4 t := by
  have hhdm : s'.hhdm = s.hhdm := (kmemSteps_region hk).1
  obtain ⟨htab, htr⟩ := h.tables.writeOutside hmem
  have hframe : ∀ v : U64, v.toNat < 2 ^ 47 → s'.frameAt pml4 v = s.frameAt pml4 v := by
    intro v hv
    rw [UserSpace.frameAt, UserSpace.frameAt, hhdm]
    exact congrArg _ (htr v hv)
  have htable : ∀ t, s'.HasTable pml4 t ↔ s.HasTable pml4 t := by
    intro t
    refine exists_congr fun q => and_congr_right fun hq => ?_
    rw [hhdm]
    exact Eq.congr_left (h.tables.descend_outside hmem hq)
  refine ⟨⟨⟨h.tables.kmem.steps hk, h.tables.direct.steps hk, ?_, ?_⟩, ?_⟩, hframe, htable⟩
  · rw [show s'.kernel.kmem.hhdmOffset = s.kernel.kmem.hhdmOffset from hhdm]
    exact htab.tree
  · intro t ht
    have ht' := (htable t).mp ht
    exact ⟨(h.tables.table t ht').1, hlive t (Or.inl ht')⟩
  · intro v f hv hf
    rw [hframe v hv] at hf
    exact ⟨hlive f (Or.inr ⟨v, hv, hf⟩), fun ht => (h.frame v f hv hf).2 ((htable f).mp ht)⟩

theorem readUser_congr (h : UserMap s pml4) (hv : v.toNat < 2 ^ 47)
    (hf : s'.frameAt pml4 v = s.frameAt pml4 v)
    (hm : ∀ f, s.frameAt pml4 v = some f → ∀ a, a &&& pageAddressMask = f → s'.mem a = s.mem a) :
    s'.readUser pml4 v = s.readUser pml4 v := by
  rw [UserSpace.readUser, UserSpace.readUser, hf]
  cases hfr : s.frameAt pml4 v with
  | none => rfl
  | some f =>
    have hal := h.aligned (Or.inr ⟨v, hv, hfr⟩)
    have hoff : (f + (v &&& 0xFFF)) &&& pageAddressMask = f := by
      have hlt := and_fff_toNat v
      have hh := hal.add_mask (n := (v &&& 0xFFF).toNat) (by omega)
      rwa [BitVec.ofNat_toNat, BitVec.setWidth_eq] at hh
    refine congrArg some (byteAt_congr fun x hx => hm f hfr x ?_)
    exact hx.trans hoff

/-- A page of user memory copied into a frame that is none of its tables. -/
theorem copyFromUser_ok (h : UserMap s pml4) {src : U64} (hsrc : PageAligned src)
    (hlt : src.toNat < 2 ^ 47) (hg : s.frameAt pml4 src = some g) (hf : PageAligned f)
    (hfg : g ≠ f) (hft : ¬s.HasTable pml4 f) {n k : Nat} (hk : k + n ≤ 4096) :
    ∃ mem, UserSpace.copyFromUser pml4 n s (f + BitVec.ofNat 64 k) (src + BitVec.ofNat 64 k) =
        .ok ⟨s.kernel, mem⟩ ∧
      (∀ a, a &&& pageAddressMask ≠ f → mem a = s.mem a) ∧
      ∀ i < 4096, byteAt mem (f + BitVec.ofNat 64 i) =
        if k ≤ i ∧ i < k + n then byteAt s.mem (g + BitVec.ofNat 64 i)
        else byteAt s.mem (f + BitVec.ofNat 64 i) := by
  have hga := h.aligned (Or.inr ⟨src, hlt, hg⟩)
  induction n generalizing s k with
  | zero =>
    refine ⟨s.mem, rfl, fun _ _ => rfl, fun i hi => (if_neg ?_).symm⟩
    omega
  | succ n ih =>
    have hsk := hsrc.add_toNat (n := k) (by omega)
    have hpage : (src + BitVec.ofNat 64 k) >>> 12 = src >>> 12 := by
      rw [page_eq_iff, hsk]
      simp only [PageAligned] at hsrc
      omega
    have hoff : (src + BitVec.ofNat 64 k) &&& 0xFFF = BitVec.ofNat 64 k := by
      apply BitVec.eq_of_toNat_eq
      rw [and_fff_toNat, hsk, BitVec.toNat_ofNat]
      simp only [PageAligned] at hsrc
      omega
    have hread : s.readUser pml4 (src + BitVec.ofNat 64 k) =
        some (byteAt s.mem (g + BitVec.ofNat 64 k)) := by
      rw [UserSpace.readUser, frameAt_congr_page hpage, hg, hoff]
      rfl
    have hfk := hf.add_mask (n := k) (by omega)
    have hkeep : ∀ a, a &&& pageAddressMask ≠ f →
        writeByte s.mem (f + BitVec.ofNat 64 k) (byteAt s.mem (g + BitVec.ofNat 64 k)) a =
          s.mem a := fun a ha => writeByte_outside _ (by rwa [hfk])
    have hs : ∀ a, s.HasTable pml4 (a &&& pageAddressMask) → a &&& pageAddressMask ≠ f := by
      rintro a ha rfl
      exact hft ha
    obtain ⟨h₁, hframe, htable⟩ := h.congr ⟨s.kernel, writeByte s.mem
      (f + BitVec.ofNat 64 k) (byteAt s.mem (g + BitVec.ofNat 64 k))⟩ .refl
      (fun t ht => h.live ht) fun a ha => hkeep a (hs a ha)
    obtain ⟨mem, hrun, hout, hbytes⟩ := ih h₁ ((hframe src hlt).trans hg) (mt (htable f).mp hft)
      (k := k + 1) (by omega)
    refine ⟨mem, ?_, fun a ha => (hout a ha).trans (hkeep a ha), fun i hi => ?_⟩
    · rw [UserSpace.copyFromUser, hread]
      rw [BitVec.ofNat_add, ← BitVec.add_assoc, ← BitVec.add_assoc] at hrun
      exact hrun
    · have hgi : byteAt (writeByte s.mem (f + BitVec.ofNat 64 k)
          (byteAt s.mem (g + BitVec.ofNat 64 k))) (g + BitVec.ofNat 64 i) =
            byteAt s.mem (g + BitVec.ofNat 64 i) := by
        refine byteAt_congr fun x hx => hkeep x ?_
        rw [hx, hga.add_mask hi]
        exact hfg
      rw [hbytes i hi, hgi, byteAt_writeByte]
      by_cases hik : i = k
      · subst hik
        rw [if_neg (by omega), if_pos rfl, if_pos (by omega)]
      · rw [if_neg (fun he => hik ((hf.add_inj hi (by omega)).mp he))]
        exact if_congr (by omega) rfl rfl

/-- `map_user_page` maps a new frame of zeros and changes nothing else. -/
theorem mapUserPage (h : UserMap s pml4) (hv : v.toNat < 2 ^ 47)
    (hm : s.mapUserPage pml4 v = .ok (f, s')) :
    UserMap s' pml4 ∧ TablesGrow pml4 s.kernel s.mem s'.kernel s'.mem ∧
      ⟨f, 1⟩ ∉ s.kernel.live ∧ ⟨f, 1⟩ ∈ s'.kernel.live ∧ ¬s'.HasTable pml4 f ∧
      (∀ a, a &&& pageAddressMask = f → s'.mem a = 0) ∧
      ∀ w : U64, w.toNat < 2 ^ 47 → s'.frameAt pml4 w =
        if w >>> 12 = v >>> 12 then some f else s.frameAt pml4 w := by
  obtain ⟨⟨f, s₀⟩, ha, hm⟩ := bind_eq_ok hm
  obtain ⟨⟨kernel, mem⟩, hset, he⟩ := bind_eq_ok hm
  simp only [Except.ok.injEq, Prod.mk.injEq] at he
  obtain ⟨rfl, rfl⟩ := he
  obtain ⟨⟨f, kernel₀⟩, hp, he⟩ := bind_eq_ok ha
  simp only [Except.ok.injEq, Prod.mk.injEq] at he
  obtain ⟨rfl, rfl⟩ := he
  obtain ⟨halign, hfresh, hlt⟩ := KmemRun.allocPage_frame h.tables.kmem h.tables.direct hp
  obtain ⟨hstep, hlive⟩ := KmemRun.allocPage_step hp
  have hmono : ∀ b ∈ s.kernel.live, b ∈ kernel₀.live := by
    rw [hlive]
    exact fun b hb => List.mem_cons_of_mem _ hb
  have hkeep : ∀ a, a &&& pageAddressMask ≠ f → clearPage s.mem f a = s.mem a :=
    fun a ha => if_neg ha
  have hown : ∀ t, s.Owns pml4 t → t ≠ f := by
    rintro t ht rfl
    exact hfresh (h.live ht)
  obtain ⟨h₀, hframe₀, htable₀⟩ := h.congr ⟨kernel₀, clearPage s.mem f⟩ (.single hstep)
    (fun t ht => hmono _ (h.live ht)) fun a ha => hkeep a (hown _ (Or.inl ha))
  have hhdm : UserSpace.hhdm ⟨kernel₀, clearPage s.mem f⟩ = s.hhdm := hstep.region.1
  have hgrow₀ : TablesGrow pml4 s.kernel s.mem kernel₀ (clearPage s.mem f) := by
    refine ⟨.single hstep, hmono, fun t ht => Or.inl ?_, fun a hl _ => hkeep a ?_⟩
    · exact (htable₀ t).mp (by rw [UserSpace.HasTable, hhdm]; exact ht)
    · rintro rfl
      exact hfresh hl
  have hphys : PageAligned (f - UserSpace.hhdm ⟨kernel₀, clearPage s.mem f⟩) := by
    have hoff := h₀.tables.direct.offset_aligned
    simp only [PageAligned, UserSpace.hhdm] at halign hoff ⊢
    rw [BitVec.toNat_sub]
    omega
  have hne : f - UserSpace.hhdm ⟨kernel₀, clearPage s.mem f⟩ ≠ 0 := by
    rw [hhdm]
    simp only [UserSpace.hhdm]
    bv_omega
  obtain ⟨htab, hgrow, htr⟩ := h₀.tables.setPageMapping hv hphys hne hset
  have hhdm' : UserSpace.hhdm ⟨kernel, mem⟩ = UserSpace.hhdm ⟨kernel₀, clearPage s.mem f⟩ :=
    hgrow.hhdm
  have hmem₀ : ⟨f, 1⟩ ∈ kernel₀.live := by
    rw [hlive]
    exact List.mem_cons_self
  have hframe : ∀ w : U64, w.toNat < 2 ^ 47 → UserSpace.frameAt ⟨kernel, mem⟩ pml4 w =
      if w >>> 12 = v >>> 12 then some f else s.frameAt pml4 w := by
    intro w hw
    rw [← hframe₀ w hw, UserSpace.frameAt, UserSpace.frameAt, hhdm']
    refine (congrArg _ (htr w hw)).trans ?_
    split
    · exact congrArg some (BitVec.sub_add_cancel _ _)
    · rfl
  have htable : ∀ t, UserSpace.HasTable ⟨kernel, mem⟩ pml4 t →
      UserSpace.HasTable s pml4 t ∨ ⟨t, 1⟩ ∉ kernel₀.live := by
    intro t ht
    rw [UserSpace.HasTable, hhdm'] at ht
    exact (hgrow.tables t ht).imp_left (htable₀ t).mp
  have hnot : ¬UserSpace.HasTable ⟨kernel, mem⟩ pml4 f := by
    intro ht
    exact (htable f ht).elim (fun ht => hown f (Or.inl ht) rfl) fun hn => hn hmem₀
  have hzero : ∀ a, a &&& pageAddressMask = f → mem a = 0 := by
    rintro a rfl
    have hout := hgrow.outside a hmem₀ fun ht => hown _ (Or.inl ((htable₀ _).mp ht)) rfl
    exact hout.trans (if_pos rfl)
  refine ⟨⟨htab, ?_⟩, hgrow₀.trans hgrow, hfresh, hgrow.live _ hmem₀, hnot, hzero, hframe⟩
  intro w g hw hg
  rw [hframe w hw] at hg
  split at hg
  · obtain rfl := Option.some.inj hg
    exact ⟨hgrow.live _ hmem₀, hnot⟩
  · have hlg := hmono _ (h.frame w g hw hg).1
    refine ⟨hgrow.live _ hlg, fun ht => ?_⟩
    exact (htable g ht).elim (h.frame w g hw hg).2 fun hn => hn hlg

end UserMap

end

end Persistos
