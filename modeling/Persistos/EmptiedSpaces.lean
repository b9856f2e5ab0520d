import Persistos.HeapRuns
import Persistos.TableMoments
import Persistos.Teardown

/-! `free_userspace_memory` store by store. The walk only takes translations away, and it
leaves an empty lower half whose frames can be handed out again. -/

namespace Persistos

open Theory UserSpace

namespace Teardown

/-- The memories after the stores of the loop over the entries of a table, those of `free`
among them. -/
def freeEntriesMoments (free : Teardown → U64 → Teardown)
    (freeMoments : Teardown → U64 → List Memory) (width : Nat) (s : Teardown) (table : U64) :
    List Memory :=
  (List.range width).flatMap fun i =>
    let s := freeEntries free i s table
    let entry := s.space.mem (entryAddress table i)
    if entry &&& pageAddressMask = 0 then []
    else
      let next := (entry &&& pageAddressMask) + s.space.hhdm
      freeMoments s next ++ [((free s next).write (entryAddress table i) 0).space.mem]

def freePtMoments (s : Teardown) (pt : U64) : List Memory :=
  freeEntriesMoments kpageFree (fun _ _ => []) 512 s pt

def freePdMoments (s : Teardown) (pd : U64) : List Memory :=
  freeEntriesMoments freePt freePtMoments 512 s pd

def freePtpdMoments (s : Teardown) (ptpd : U64) : List Memory :=
  freeEntriesMoments freePd freePdMoments 512 s ptpd

def freePml4Moments (s : Teardown) (pml4Page : U64) : List Memory :=
  freeEntriesMoments freePtpd freePtpdMoments 256 s pml4Page

end Teardown

section Zeros

variable {mem m m' : Memory} {hhdm pml4 v : U64}

/-- Words were set to zero, and nothing else was stored. -/
def OnlyZeros (mem m : Memory) : Prop := ∀ a, m a = mem a ∨ m a = 0

theorem OnlyZeros.refl (mem : Memory) : OnlyZeros mem mem := fun _ => .inl rfl

theorem OnlyZeros.trans (h : OnlyZeros mem m) (h' : OnlyZeros m m') : OnlyZeros mem m' := by
  intro a
  rcases h' a with he | he
  · rw [he]
    exact h a
  · exact .inr he

theorem OnlyZeros.write (mem : Memory) (a : U64) : OnlyZeros mem (writeWord mem a 0) := by
  intro b
  rw [writeWord]
  split
  · exact .inr rfl
  · exact .inl rfl

theorem OnlyZeros.child (h : OnlyZeros mem m) {t u : U64} {i : Nat}
    (hc : Persistos.child hhdm m t i = some u) : Persistos.child hhdm mem t i = some u := by
  rcases h (entryAddress t i) with he | he
  · rwa [← child_congr he]
  · rw [child_eq_none he] at hc
    cases hc

theorem OnlyZeros.childless (h : OnlyZeros mem m) {t : U64} {i : Nat}
    (hc : Persistos.child hhdm mem t i = none) : Persistos.child hhdm m t i = none := by
  rw [← Option.not_isSome_iff_eq_none, Option.isSome_iff_exists]
  rintro ⟨u, hu⟩
  rw [h.child hu] at hc
  cases hc

/-- Setting words to zero takes translations away and adds none. -/
theorem OnlyZeros.frameIn (h : OnlyZeros mem m) {f : U64}
    (hf : Persistos.frameIn hhdm pml4 m v = some f) : Persistos.frameIn hhdm pml4 mem v = some f := by
  obtain ⟨x, hx, rfl⟩ := Option.map_eq_some_iff.mp hf
  obtain ⟨t, ht, hl⟩ := Option.bind_eq_some_iff.mp hx
  have hd := descend_mono (fun _ _ _ hc => h.child hc) ht
  have hl' : leaf mem t (tableIndex v 12) = some x := by
    rcases h (entryAddress t (tableIndex v 12)) with he | he
    · rwa [← leaf_congr he]
    · rw [leaf, he] at hl
      cases hl
  rw [Persistos.frameIn, translate, hd]
  exact congrArg _ hl'

/-- `free` stores zeros only, as do its moments. -/
structure Zeroing (free : Teardown → U64 → Teardown) (moments : Teardown → U64 → List Memory) :
    Prop where
  hhdm : ∀ s t, (free s t).space.hhdm = s.space.hhdm
  result : ∀ s t, OnlyZeros s.space.mem (free s t).space.mem
  moments : ∀ s t, ∀ m ∈ moments s t, OnlyZeros s.space.mem m

variable {free : Teardown → U64 → Teardown} {moments : Teardown → U64 → List Memory}

/-- After the loop over a table the first entries lead nowhere. -/
theorem Zeroing.freeEntries (h : Zeroing free moments) (w : Nat) (s : Teardown) (t : U64) :
    (Teardown.freeEntries free w s t).space.hhdm = s.space.hhdm ∧
      OnlyZeros s.space.mem (Teardown.freeEntries free w s t).space.mem ∧
      (∀ m ∈ Teardown.freeEntriesMoments free moments w s t, OnlyZeros s.space.mem m) ∧
      ∀ j < w, child s.space.hhdm (Teardown.freeEntries free w s t).space.mem t j = none := by
  induction w with
  | zero => exact ⟨rfl, .refl _, fun m hm => absurd hm List.not_mem_nil, fun j hj => by omega⟩
  | succ w ih =>
    obtain ⟨hhdm, hzeros, hmoments, hnone⟩ := ih
    have hsplit : Teardown.freeEntriesMoments free moments (w + 1) s t =
        Teardown.freeEntriesMoments free moments w s t ++
          let s₁ := Teardown.freeEntries free w s t
          let entry := s₁.space.mem (entryAddress t w)
          if entry &&& pageAddressMask = 0 then []
          else
            let next := (entry &&& pageAddressMask) + s₁.space.hhdm
            moments s₁ next ++ [((free s₁ next).write (entryAddress t w) 0).space.mem] := by
      simp [Teardown.freeEntriesMoments, List.range_succ]
    rw [hsplit, Teardown.freeEntries_succ]
    dsimp only
    generalize Teardown.freeEntries free w s t = s₁ at hhdm hzeros hnone ⊢
    have hlast : ∀ j, j < w + 1 → j < w ∨ j = w := fun j hj => by omega
    split
    · next hz =>
      refine ⟨hhdm, hzeros, by rwa [List.append_nil], fun j hj => ?_⟩
      rcases hlast j hj with hj | rfl
      · exact hnone j hj
      · exact if_pos hz
    · generalize (s₁.space.mem (entryAddress t w) &&& pageAddressMask) + s₁.space.hhdm = next
      have hfree := h.result s₁ next
      have hwrite : OnlyZeros s₁.space.mem ((free s₁ next).write (entryAddress t w) 0).space.mem :=
        hfree.trans (.write _ _)
      refine ⟨(h.hhdm s₁ next).trans hhdm, hzeros.trans hwrite, fun m hm => ?_, fun j hj => ?_⟩
      · rcases List.mem_append.mp hm with hm | hm
        · exact hmoments m hm
        · rcases List.mem_append.mp hm with hm | hm
          · exact hzeros.trans (h.moments s₁ next m hm)
          · obtain rfl := List.mem_singleton.mp hm
            exact hzeros.trans hwrite
      · rcases hlast j hj with hj | rfl
        · exact hwrite.childless (hnone j hj)
        · exact child_eq_none (if_pos rfl)

theorem Zeroing.table (h : Zeroing free moments) (w : Nat) :
    Zeroing (fun s t => (Teardown.freeEntries free w s t).kpageFree t)
      (Teardown.freeEntriesMoments free moments w) where
  hhdm s t := (h.freeEntries w s t).1
  result s t := (h.freeEntries w s t).2.1
  moments s t := (h.freeEntries w s t).2.2.1

theorem zeroing_kpageFree : Zeroing Teardown.kpageFree fun _ _ => [] where
  hhdm _ _ := rfl
  result _ _ := .refl _
  moments _ _ m hm := absurd hm List.not_mem_nil

theorem zeroing_freePt : Zeroing Teardown.freePt Teardown.freePtMoments := zeroing_kpageFree.table 512

theorem zeroing_freePd : Zeroing Teardown.freePd Teardown.freePdMoments := zeroing_freePt.table 512

theorem zeroing_freePtpd : Zeroing Teardown.freePtpd Teardown.freePtpdMoments :=
  zeroing_freePd.table 512

end Zeros

section Tree

variable {s : UserSpace} {pml4 t v : U64}

theorem find_userPath (s : UserSpace) (pml4 v : U64) :
    s.find pml4 (userPath v) = s.frameAt pml4 v := by
  rw [userPath, find_snoc, frameAt, translate, Option.map_bind]
  refine Option.bind_congr fun t _ => ?_
  rw [child, Function.comp_apply, leaf]
  split <;> rfl

/-- The first address of the page at the end of a path. -/
def pathAddress (i j k l : Nat) : U64 :=
  BitVec.ofNat 64 (i * 2 ^ 39 + j * 2 ^ 30 + k * 2 ^ 21 + l * 2 ^ 12)

theorem userPath_pathAddress {i j k l : Nat} (hi : i < 256) (hj : j < 512) (hk : k < 512)
    (hl : l < 512) : (pathAddress i j k l).toNat < 2 ^ 47 ∧
      userPath (pathAddress i j k l) = [i, j, k, l] := by
  have hn : (pathAddress i j k l).toNat = i * 2 ^ 39 + j * 2 ^ 30 + k * 2 ^ 21 + l * 2 ^ 12 := by
    rw [pathAddress, BitVec.toNat_ofNat]
    omega
  refine ⟨by omega, ?_⟩
  simp only [userPath, tablePath, tableIndex_eq, hn, List.cons_append, List.nil_append,
    List.cons.injEq, and_true]
  omega

/-- A path of the lower half leads to a table, or it is the path of an address. -/
theorem table_or_page {q : List Nat} (hq : Fits widths q) :
    Paths LowerPath 3 q ∨ ∃ v : U64, v.toNat < 2 ^ 47 ∧ q = userPath v := by
  match q, hq with
  | [], _ => exact .inl ⟨⟨by simp, by simp⟩, by simp⟩
  | [i], h =>
    refine .inl ⟨⟨?_, ?_⟩, by simp⟩
    · simpa using Nat.lt_trans h.1 (by omega)
    · simpa using h.1
  | [i, j], h =>
    refine .inl ⟨⟨?_, ?_⟩, by simp⟩
    · simpa using ⟨Nat.lt_trans h.1 (by omega), h.2.1⟩
    · simpa using h.1
  | [i, j, k], h =>
    refine .inl ⟨⟨?_, ?_⟩, by simp⟩
    · simpa using ⟨Nat.lt_trans h.1 (by omega), h.2.1, h.2.2.1⟩
    · simpa using h.1
  | [i, j, k, l], h =>
    obtain ⟨hlt, hpath⟩ := userPath_pathAddress h.1 h.2.1 h.2.2.1 h.2.2.2.1
    exact .inr ⟨_, hlt, hpath.symm⟩
  | _ :: _ :: _ :: _ :: _ :: _, h => exact absurd h.2.2.2.2 id

/-- No table and no page hangs in two places. -/
theorem OwnFrames.find_inj (h : OwnFrames pml4 s) {p q : List Nat} (hp : Fits widths p)
    (hq : Fits widths q) (hpt : s.find pml4 p = some t) (hqt : s.find pml4 q = some t) : p = q := by
  have hpage : ∀ (p : List Nat) (v : U64), v.toNat < 2 ^ 47 → Paths LowerPath 3 p →
      s.find pml4 p = some t → s.find pml4 (userPath v) ≠ some t := by
    intro p v hv hp hpt hvt
    rw [find_userPath] at hvt
    exact (h.map.frame v t hv hvt).2 ⟨p, hp, hpt⟩
  rcases table_or_page hp with hp | ⟨v, hv, rfl⟩
  · rcases table_or_page hq with hq | ⟨w, hw, rfl⟩
    · exact h.map.tables.tree.inj p q t hp hq hpt hqt
    · exact absurd hqt (hpage p w hw hp hpt)
  · rcases table_or_page hq with hq | ⟨w, hw, rfl⟩
    · exact absurd hpt (hpage q v hv hq hqt)
    · rw [find_userPath] at hpt hqt
      exact (userPath_inj hv hw).mpr (page_eq_iff.mpr (h.inj v w t hv hw hpt hqt))

theorem OwnFrames.owns (h : OwnFrames pml4 s) (ht : t ∈ pml4 :: s.nodes pml4) : s.Owns pml4 t := by
  rcases List.mem_cons.mp ht with rfl | ht
  · exact .inl ⟨[], ⟨⟨by simp, by simp⟩, by simp⟩, rfl⟩
  · obtain ⟨q, -, hq, hqt⟩ := mem_nodes.mp ht
    rcases table_or_page hq with hq | ⟨v, hv, rfl⟩
    · exact .inl ⟨q, hq, hqt⟩
    · exact .inr ⟨v, hv, find_userPath s pml4 v ▸ hqt⟩

theorem OwnFrames.nodes_nodup (h : OwnFrames pml4 s) : (pml4 :: s.nodes pml4).Nodup :=
  nodup_below fun _ _ _ => h.find_inj

theorem OwnFrames.freePml4_kernel (h : OwnFrames pml4 s) :
    (Teardown.freePml4 ⟨s, []⟩ pml4).space.kernel =
      (s.nodes pml4).foldl (fun r p => r.freePages ⟨p, 1⟩) s.kernel :=
  (frees_freePtpd.freeEntries (s := ⟨s, []⟩) (t := pml4) (by simp) (w := 256) (by omega)
    h.nodes_nodup fun _ hu => h.map.aligned (h.owns hu)).1.kernel

/-- The walk gives back the tables and pages, and nothing else. -/
theorem OwnFrames.freePml4_live (h : OwnFrames pml4 s) :
    Relation.ReflTransGen KmemStep s.kernel (Teardown.freePml4 ⟨s, []⟩ pml4).space.kernel ∧
      ∀ b ∈ s.kernel.live, (∀ u ∈ s.nodes pml4, b ≠ ⟨u, 1⟩) →
        b ∈ (Teardown.freePml4 ⟨s, []⟩ pml4).space.kernel.live := by
  have hnd := h.nodes_nodup
  have hsub : ((s.nodes pml4).map (⟨·, 1⟩ : U64 → Block)).Subperm s.kernel.live := by
    refine List.subperm_of_subset ?_ fun b hb => ?_
    · exact (List.nodup_cons.mp hnd).2.map fun _ _ he => (Block.mk.inj he).1
    · obtain ⟨u, hu, rfl⟩ := List.mem_map.mp hb
      exact h.map.live (h.owns (List.mem_cons_of_mem _ hu))
  obtain ⟨l, hl, hsublist⟩ := hsub
  obtain ⟨rest, hperm⟩ := hsublist.exists_perm_append
  have hall : s.kernel.live.Perm ((s.nodes pml4).map (⟨·, 1⟩) ++ rest) :=
    hperm.trans (hl.append_right rest)
  obtain ⟨hsteps, hlive⟩ := freeAll_steps h.map.tables.kmem hall
  rw [← h.freePml4_kernel] at hsteps hlive
  refine ⟨hsteps, fun b hb hne => hlive.mem_iff.mpr ?_⟩
  refine (List.mem_append.mp (hall.mem_iff.mp hb)).resolve_left fun hin => ?_
  obtain ⟨u, hu, he⟩ := List.mem_map.mp hin
  exact hne u hu he.symm

/-- The walk ends in an empty lower half, with what the tables and pages took given back. -/
theorem OwnFrames.freePml4 (h : OwnFrames pml4 s) :
    OwnFrames pml4 (Teardown.freePml4 ⟨s, []⟩ pml4).space ∧
      (Teardown.freePml4 ⟨s, []⟩ pml4).space.hhdm = s.hhdm ∧
      (∀ v : U64, v.toNat < 2 ^ 47 →
        (Teardown.freePml4 ⟨s, []⟩ pml4).space.frameAt pml4 v = none) ∧
      ∀ m ∈ Teardown.freePml4Moments ⟨s, []⟩ pml4, OnlyZeros s.mem m := by
  have hroot : s.Owns pml4 pml4 := h.owns List.mem_cons_self
  obtain ⟨hsteps, hlive⟩ := h.freePml4_live
  obtain ⟨hhdm, -, hmoments, hnone⟩ := zeroing_freePtpd.freeEntries 256 ⟨s, []⟩ pml4
  have hkeep : ⟨pml4, 1⟩ ∈ (Teardown.freePml4 ⟨s, []⟩ pml4).space.kernel.live := by
    refine hlive _ (h.map.live hroot) fun u hu he => ?_
    obtain rfl := (Block.mk.inj he).1
    exact (List.nodup_cons.mp h.nodes_nodup).1 hu
  have hchildless : ∀ i < 256,
      child (Teardown.freePml4 ⟨s, []⟩ pml4).space.kernel.kmem.hhdmOffset
        (Teardown.freePml4 ⟨s, []⟩ pml4).space.mem pml4 i = none := by
    intro i hi
    have hh := hnone i hi
    rwa [← hhdm] at hh
  have hinv := h.map.tables.kmem.steps hsteps
  have hdirect := h.map.tables.direct.steps hsteps
  have haligned := h.map.aligned hroot
  exact ⟨.of_childless hinv hdirect haligned hkeep hchildless, hhdm,
    (UserMap.of_childless hinv hdirect haligned hkeep hchildless).2.1, hmoments⟩

end Tree

end Persistos
