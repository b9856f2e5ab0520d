import Persistos.ForkCopies

/-! What a program reads of its memory while pages are mapped for it and bytes are
written to them: no two of its pages share a frame, and a new page reads as zero. -/

namespace Persistos

open Theory

namespace UserSpace

/-- A write by the CPU with the tables of `pml4`, or a page fault. -/
def writeUser (s : UserSpace) (pml4 v : U64) (b : U8) : Except Crash UserSpace :=
  match s.frameAt pml4 v with
  | none => .error .outOfBounds
  | some f => .ok ⟨s.kernel, writeByte s.mem (f + (v &&& 0xFFF)) b⟩

/-- `memcpy` of bytes of the kernel to user memory. -/
def copyToUser (pml4 : U64) : List U8 → UserSpace → U64 → Except Crash UserSpace
  | [], s, _ => .ok s
  | b :: bytes, s, dest => do
    let s ← s.writeUser pml4 dest b
    copyToUser pml4 bytes s (dest + 1)

end UserSpace

/-- An address space in which each page has a frame of its own. -/
structure OwnFrames (pml4 : U64) (s : UserSpace) : Prop where
  map : UserMap s pml4
  inj : ∀ v w f : U64, v.toNat < 2 ^ 47 → w.toNat < 2 ^ 47 → s.frameAt pml4 v = some f →
    s.frameAt pml4 w = some f → v.toNat / 4096 = w.toNat / 4096

section

variable {s s' : UserSpace} {pml4 p v f : U64} {b : U8}

theorem byteAt_zero {mem : Memory} {a : U64}
    (h : ∀ x, x &&& pageAddressMask = a &&& pageAddressMask → mem x = 0) : byteAt mem a = 0 := by
  have hz : byteAt (fun _ => 0) a = 0 := by simp [byteAt]
  exact (byteAt_congr h).trans hz

/-- The offset of a user address stays inside the frame behind it. -/
theorem UserMap.offset_mask (h : UserMap s pml4) (hv : v.toNat < 2 ^ 47)
    (hf : s.frameAt pml4 v = some f) : (f + (v &&& 0xFFF)) &&& pageAddressMask = f := by
  have hlt := and_fff_toNat v
  have hal := h.aligned (Or.inr ⟨v, hv, hf⟩)
  have hh := hal.add_mask (n := (v &&& 0xFFF).toNat) (by omega)
  rwa [BitVec.ofNat_toNat, BitVec.setWidth_eq] at hh

/-- A byte stored through a user address changes no table. -/
theorem UserMap.writeFrame (h : UserMap s pml4) (hv : v.toNat < 2 ^ 47)
    (hf : s.frameAt pml4 v = some f) (b : U8) :
    UserMap ⟨s.kernel, writeByte s.mem (f + (v &&& 0xFFF)) b⟩ pml4 ∧
      ∀ w : U64, w.toNat < 2 ^ 47 →
        UserSpace.frameAt ⟨s.kernel, writeByte s.mem (f + (v &&& 0xFFF)) b⟩ pml4 w =
          s.frameAt pml4 w := by
  have hmask := h.offset_mask hv hf
  obtain ⟨hmap, hframe, -⟩ := h.congr ⟨s.kernel, writeByte s.mem (f + (v &&& 0xFFF)) b⟩ .refl
    (fun t ht => h.live ht) (by
      intro a ha
      refine writeByte_outside b ?_
      rw [hmask]
      rintro rfl
      exact (h.frame v _ hv hf).2 ha)
  exact ⟨hmap, hframe⟩

/-- A mapped page reads as zero, and every other byte as before. -/
theorem UserMap.readUser_mapUserPage (h : UserMap s pml4) (hp : p.toNat < 2 ^ 47)
    (hm : s.mapUserPage pml4 p = .ok (f, s')) (hv : v.toNat < 2 ^ 47) :
    s'.readUser pml4 v =
      if v.toNat / 4096 = p.toNat / 4096 then some 0 else s.readUser pml4 v := by
  obtain ⟨hmap, hgrow, hfresh, -, -, hzero, hframe⟩ := h.mapUserPage hp hm
  have hfv := hframe v hv
  simp only [page_eq_iff] at hfv
  split
  · next he =>
    rw [if_pos he] at hfv
    rw [UserSpace.readUser, hfv]
    refine congrArg some (byteAt_zero fun x hx => hzero x ?_)
    exact hx.trans (hmap.offset_mask hv hfv)
  · next hne =>
    rw [if_neg hne] at hfv
    refine h.readUser_congr hv hfv ?_
    rintro g hg a rfl
    have hl := h.frame v _ hv hg
    exact hgrow.outside a hl.1 hl.2

namespace OwnFrames

theorem mapUserPage (h : OwnFrames pml4 s) (hp : p.toNat < 2 ^ 47)
    (hm : s.mapUserPage pml4 p = .ok (f, s')) : OwnFrames pml4 s' := by
  obtain ⟨hmap, -, hfresh, -, -, -, hframe⟩ := h.map.mapUserPage hp hm
  have hnew : ∀ v g : U64, v.toNat < 2 ^ 47 → s.frameAt pml4 v = some g → g ≠ f := by
    rintro v g hv hg rfl
    exact hfresh (h.map.frame v g hv hg).1
  refine ⟨hmap, fun v w g hv hw hvg hwg => ?_⟩
  rw [hframe v hv] at hvg
  rw [hframe w hw] at hwg
  split at hvg
  · next hvp =>
    split at hwg
    · next hwp => exact page_eq_iff.mp (hvp.trans hwp.symm)
    · exact absurd (Option.some.inj hvg).symm (hnew w g hw hwg)
  · split at hwg
    · exact absurd (Option.some.inj hwg).symm (hnew v g hv hvg)
    · exact h.inj v w g hv hw hvg hwg

theorem congr (h : OwnFrames pml4 s) (hmap : UserMap s' pml4)
    (hframe : ∀ v : U64, v.toNat < 2 ^ 47 → s'.frameAt pml4 v = s.frameAt pml4 v) :
    OwnFrames pml4 s' := by
  refine ⟨hmap, fun v w g hv hw hvg hwg => ?_⟩
  rw [hframe v hv] at hvg
  rw [hframe w hw] at hwg
  exact h.inj v w g hv hw hvg hwg

theorem aside (h : OwnFrames pml4 s) (ha : Aside s s') : OwnFrames pml4 s' := by
  obtain ⟨hmap, hframe, -⟩ := h.map.aside ha
  exact h.congr hmap hframe

/-- A write changes the byte it is for and no other. -/
theorem writeUser (h : OwnFrames pml4 s) (hv : v.toNat < 2 ^ 47)
    (hw : s.writeUser pml4 v b = .ok s') :
    OwnFrames pml4 s' ∧ ∀ w : U64, w.toNat < 2 ^ 47 →
      s'.readUser pml4 w = if w = v then some b else s.readUser pml4 w := by
  rw [UserSpace.writeUser] at hw
  cases hf : s.frameAt pml4 v with
  | none =>
    rw [hf] at hw
    cases hw
  | some f =>
    rw [hf] at hw
    obtain rfl := Except.ok.inj hw
    clear hw
    have hmask := h.map.offset_mask hv hf
    obtain ⟨hmap, hframe⟩ := h.map.writeFrame hv hf b
    refine ⟨h.congr hmap hframe, fun w hw => ?_⟩
    rw [UserSpace.readUser, UserSpace.readUser, hframe w hw]
    cases hg : s.frameAt pml4 w with
    | none =>
      have hne : w ≠ v := by
        rintro rfl
        rw [hf] at hg
        cases hg
      rw [if_neg hne]
      rfl
    | some g =>
      have hiff : g + (w &&& 0xFFF) = f + (v &&& 0xFFF) ↔ w = v := by
        refine ⟨fun he => ?_, fun he => ?_⟩
        · have hgf : g = f := by
            rw [← h.map.offset_mask hw hg, he, hmask]
          subst hgf
          have hpage := h.inj w v g hw hv hg hf
          have hoff := congrArg BitVec.toNat ((BitVec.add_right_inj g).mp he)
          rw [and_fff_toNat, and_fff_toNat] at hoff
          exact BitVec.eq_of_toNat_eq (by omega)
        · subst he
          rw [Option.some.inj (hg.symm.trans hf)]
      refine (congrArg some (byteAt_writeByte s.mem _ _ b)).trans ?_
      rw [if_congr hiff rfl rfl, apply_ite some]
      rfl

theorem copyToUser {bytes : List U8} {dest : U64} (h : OwnFrames pml4 s)
    (hd : dest.toNat + bytes.length ≤ 2 ^ 47)
    (hc : UserSpace.copyToUser pml4 bytes s dest = .ok s') : OwnFrames pml4 s' := by
  induction bytes generalizing s dest with
  | nil =>
    obtain rfl := Except.ok.inj hc
    exact h
  | cons b bytes ih =>
    obtain ⟨s₁, hw, hc⟩ := bind_eq_ok hc
    rw [List.length_cons] at hd
    have hnext : (dest + 1).toNat = dest.toNat + 1 := by
      rw [BitVec.toNat_add, show (1 : U64).toNat = 1 from rfl]
      omega
    exact ih (h.writeUser (by omega) hw).1 (by omega) hc

theorem setupUserspaceMemory {ranges : List UserspaceMemoryRange} (h : OwnFrames pml4 s)
    (hstop : ∀ range ∈ ranges, range.stop.toNat ≤ 2 ^ 47)
    (hs : s.setupUserspaceMemory pml4 ranges = .ok s') : OwnFrames pml4 s' :=
  @setupUserspaceMemory_covers pml4 (fun s _ => OwnFrames pml4 s) (fun h _ => h)
    (fun _ _ _ _ _ hp h hm => h.mapUserPage hp hm) s s' (fun _ => False) ranges h hstop hs

theorem loadElf64 {t t' : TaskMemory} {segmentHeaders : List Phdr}
    (h : OwnFrames pml4 t.kernel.space) (hnil : t.memoryRangesLh = [])
    (hstop : ∀ range ∈ elfRanges segmentHeaders, range.stop.toNat ≤ 2 ^ 47)
    (hs : t.loadElf64 pml4 segmentHeaders = .ok t') :
    OwnFrames pml4 t'.kernel.space ∧ t'.memoryRangesLh = elfRanges segmentHeaders := by
  obtain ⟨t₁, h₁, hs⟩ := bind_eq_ok hs
  obtain ⟨space, hsetup, he⟩ := bind_eq_ok hs
  obtain rfl := Except.ok.inj he
  obtain ⟨haside, hr⟩ := h.map.addRanges h₁
  rw [hnil, List.nil_append] at hr
  rw [hr] at hsetup
  exact ⟨(h.aside haside).setupUserspaceMemory hstop hsetup, hr⟩

end OwnFrames

/-- The given pages are new since `s₀` and read as zero, the others read as in `s₀`. -/
structure FreshPages (pml4 : U64) (s₀ s : UserSpace) (pages : Nat → Prop) : Prop where
  own : OwnFrames pml4 s
  zero : ∀ v : U64, v.toNat < 2 ^ 47 → pages (v.toNat / 4096) → s.readUser pml4 v = some 0
  kept : ∀ v : U64, v.toNat < 2 ^ 47 → ¬pages (v.toNat / 4096) →
    s.readUser pml4 v = s₀.readUser pml4 v

theorem FreshPages.congr {s₀ : UserSpace} {pages pages' : Nat → Prop}
    (h : FreshPages pml4 s₀ s pages) (hp : ∀ n, pages n ↔ pages' n) :
    FreshPages pml4 s₀ s pages' := by
  rwa [← show pages = pages' from funext fun n => propext (hp n)]

theorem FreshPages.mapUserPage {s₀ : UserSpace} {pages : Nat → Prop}
    (h : FreshPages pml4 s₀ s pages) (hp : p.toNat < 2 ^ 47)
    (hm : s.mapUserPage pml4 p = .ok (f, s')) :
    FreshPages pml4 s₀ s' fun n => pages n ∨ n = p.toNat / 4096 := by
  refine ⟨h.own.mapUserPage hp hm, fun v hv hn => ?_, fun v hv hn => ?_⟩
  · rw [h.own.map.readUser_mapUserPage hp hm hv]
    split
    · rfl
    · next hne => exact h.zero v hv (hn.resolve_right hne)
  · rw [h.own.map.readUser_mapUserPage hp hm hv, if_neg fun he => hn (Or.inr he)]
    exact h.kept v hv fun hh => hn (Or.inl hh)

theorem OwnFrames.mapPages {start stop last : U64} (h : OwnFrames pml4 s)
    (hstart : PageAligned start) (hstop : stop.toNat ≤ 2 ^ 47)
    (hm : s.mapPages pml4 start stop = .ok (s', last)) :
    FreshPages pml4 s s' (Between start last) ∧ PageAligned last ∧ start.toNat ≤ last.toNat ∧
      stop.toNat ≤ last.toNat ∧ (last = start ∨ last.toNat < stop.toNat + 4096) := by
  have hbody : ∀ (s₁ s₂ : UserSpace) (pages : Nat → Prop) (p : U64), PageAligned p →
      start.toNat ≤ p.toNat → p < stop → FreshPages pml4 s s₁ pages →
      UserSpace.mapPage pml4 s₁ p = .ok s₂ →
      FreshPages pml4 s s₂ fun n => pages n ∨ n = p.toNat / 4096 := by
    intro s₁ s₂ pages p _ _ hlt hs hb
    obtain ⟨⟨f, s₃⟩, hmap, he⟩ := bind_eq_ok hb
    obtain rfl := Except.ok.inj he
    exact hs.mapUserPage (Nat.lt_of_lt_of_le hlt hstop) hmap
  have h₀ : FreshPages pml4 s s fun _ => False :=
    ⟨h, fun _ _ hn => hn.elim, fun _ _ _ => rfl⟩
  obtain ⟨hf, hlast⟩ := forPages_covers (P := FreshPages pml4 s) FreshPages.congr hstop hbody
    hstart h₀ hm
  exact ⟨hf.congr fun n => or_iff_right not_false, hlast⟩

end

end Persistos
