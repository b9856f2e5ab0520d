import Persistos.UserBoot

/-! The program `diff`, which the tests compare files with. -/

namespace Persistos

open Theory

namespace Diff

variable (m : UserTask)

/-- The body of the loop. All of its ways end the program. -/
def compareFiles (aFd bFd : U64) (s : Process) : Except UserStop Process := do
  let (aBytesRead, aBuf, s) ← s.read m aFd m.stack 4096
  if isError aBytesRead then s.fail m [ascii "diff: error reading file a\n"]
  else do
    let (bBytesRead, bBuf, s) ← s.read m bFd (fun i => m.stack (4096 + i)) 4096
    if isError bBytesRead then s.fail m [ascii "diff: error reading file b\n"]
    else if aBytesRead ≠ bBytesRead then do
      let s ← s.puts m (ascii "Files differ, they have different lengths\n")
      s.exit 2
    else if memcmp aBuf bBuf aBytesRead.toNat ≠ 0 then do
      let s ← s.puts m (ascii "Files differ\n")
      s.exit 2
    else s.exit 0

def main (argv : List (List U8)) (s : Process) : Except UserStop Process :=
  if argv.length ≠ 3 then s.fail m [ascii "diff: expected two arguments\n"]
  else do
    let aPath := argv.getD 1 []
    let (aFd, s) ← s.openFile m aPath 0
    if isError aFd then s.fail m [ascii "diff: error opening ", aPath, ascii "\n"]
    else do
      let bPath := argv.getD 2 []
      let (bFd, s) ← s.openFile m bPath 0
      if isError bFd then s.fail m [ascii "diff: error opening ", bPath, ascii "\n"]
      else compareFiles m aFd bFd s

end Diff

section

variable {m : UserTask} {s : Process} {ramFiles : List U64} {f g aFd bFd : U64}

theorem take_eq_take_iff {a b : List U8} {n : Nat} : a.take n = b.take n ↔
    min n a.length = min n b.length ∧ a.take (min n a.length) = b.take (min n a.length) := by
  have htake : ∀ l : List U8, l.take (min n l.length) = l.take n := by
    intro l
    rcases Nat.le_total n l.length with hle | hle
    · rw [Nat.min_eq_left hle]
    · rw [Nat.min_eq_right hle, List.take_length, List.take_of_length_le hle]
  constructor
  · intro h
    have hlength := congrArg List.length h
    rw [List.length_take, List.length_take] at hlength
    refine ⟨hlength, ?_⟩
    rw [htake, hlength, htake, h]
  · rintro ⟨hlength, h⟩
    rw [htake, hlength, htake] at h
    exact h

/-- The loop compares the first buffers of the files only. -/
theorem compareFiles_exits_iff (h : s.tables.kernel.RamKernel ramFiles) (hf : f ∈ ramFiles)
    (hg : g ∈ ramFiles) (ha : m.At s.tables aFd f 0) (hb : m.At s.tables bFd g 0)
    (hne : bFd.setWidth 32 ≠ aFd.setWidth 32) :
    Exits (Diff.compareFiles m aFd bFd s) 0 ↔
      (s.tables.kernel.fs.image f).content.take 4096 =
        (s.tables.kernel.fs.image g).content.take 4096 := by
  have h4096 : BitVec.toNat (4096 : U64) = 4096 := rfl
  obtain ⟨aBuf, s₁, hread₁, hhas₁, -⟩ := Process.read_ram h hf ha (Nat.zero_le _) m.stack
    (show (4096 : U64).toNat ≤ 2 ^ 32 by decide)
  have hb₁ := hhas₁.others hne hb
  have hkernel := hhas₁.kernel
  obtain ⟨bBuf, s₂, hread₂, hhas₂, -⟩ := Process.read_ram (hkernel ▸ h) hg hb₁ (Nat.zero_le _)
    (fun i => m.stack (4096 + i)) (show (4096 : U64).toNat ≤ 2 ^ 32 by decide)
  have hbytes₁ := hhas₁.bytes
  have hbytes₂ := hhas₂.bytes
  rw [hkernel, List.drop_zero] at hbytes₂
  rw [List.drop_zero] at hbytes₁
  rw [UserTask.toRead, h4096, Nat.sub_zero] at hread₁ hread₂ hbytes₁ hbytes₂
  rw [hkernel] at hread₂ hbytes₂
  generalize (s.tables.kernel.fs.image f).content = a at hread₁ hbytes₁ ⊢
  generalize (s.tables.kernel.fs.image g).content = b at hread₂ hbytes₂ ⊢
  have hlt : ∀ l : List U8, (BitVec.ofNat 64 (min 4096 l.length)).toNat = min 4096 l.length := by
    intro l
    rw [BitVec.toNat_ofNat]
    omega
  have hok : ∀ l : List U8, isError (BitVec.ofNat 64 (min 4096 l.length)) = false := by
    intro l
    refine isError_of_lt ?_
    rw [hlt]
    omega
  rw [take_eq_take_iff, Diff.compareFiles, hread₁, ok_bind_user]
  dsimp only
  rw [hok, if_neg Bool.false_ne_true, hread₂, ok_bind_user]
  dsimp only
  rw [hok, if_neg Bool.false_ne_true]
  by_cases hlength : min 4096 a.length = min 4096 b.length
  · rw [if_neg (by rw [hlength]; exact not_not_intro rfl), hlt]
    rw [← hlength] at hbytes₂
    by_cases hsame : memcmp aBuf bBuf (min 4096 a.length) = 0
    · rw [if_neg (not_not_intro hsame)]
      rw [memcmp_eq_zero_iff, hbytes₁, hbytes₂] at hsame
      exact iff_of_true ⟨s₂, rfl⟩ ⟨hlength, hsame⟩
    · rw [if_pos hsame]
      rw [memcmp_eq_zero_iff, hbytes₁, hbytes₂] at hsame
      refine iff_of_false (fun hexits => ?_) fun hh => hsame hh.2
      exact absurd (Process.code_of_puts hexits) (by decide)
  · have hcounts : BitVec.ofNat 64 (min 4096 a.length) ≠ BitVec.ofNat 64 (min 4096 b.length) := by
      intro hh
      have hh := congrArg BitVec.toNat hh
      rw [hlt, hlt] at hh
      exact hlength hh
    rw [if_pos hcounts]
    refine iff_of_false (fun hexits => ?_) fun hh => hlength hh.1
    exact absurd (Process.code_of_puts hexits) (by decide)

variable {name aPath bPath : List U8}

theorem diff_exits_iff (h : s.tables.kernel.RamKernel ramFiles)
    (ho : Ordered (s.tables.filesLh m.address)) (hroom : m.Room s.tables 2)
    (ha : s.tables.kernel.PathOf aPath f) (hf : f ∈ ramFiles)
    (hb : s.tables.kernel.PathOf bPath g) (hg : g ∈ ramFiles) :
    (Diff.main m [name, aPath, bPath] s = .error (.crash outOfMemory) ∧
        s.tables.kernel.freePages < 2) ∨
      (Exits (Diff.main m [name, aPath, bPath] s) 0 ↔
        (s.tables.kernel.fs.image f).content.take 4096 =
          (s.tables.kernel.fs.image g).content.take 4096) := by
  have hmain : Diff.main m [name, aPath, bPath] s = (do
      let (aFd, s) ← s.openFile m aPath 0
      if isError aFd then s.fail m [ascii "diff: error opening ", aPath, ascii "\n"]
      else do
        let (bFd, s) ← s.openFile m bPath 0
        if isError bFd then s.fail m [ascii "diff: error opening ", bPath, ascii "\n"]
        else Diff.compareFiles m aFd bFd s) := rfl
  rw [hmain]
  rcases Process.openFile_affords h ha with ⟨⟨aFd, s₁⟩, hopen₁, hleft₁⟩ | ⟨hopen₁, hleft₁⟩
  · obtain ⟨hopened₁, -⟩ := Process.openFile_opened h ho hroom ha hopen₁
    rw [hopen₁, ok_bind_user]
    dsimp only at hleft₁ ⊢
    rw [hopened₁.notError, if_neg Bool.false_ne_true]
    have hb₁ := hb.kept hopened₁.tree
    rcases Process.openFile_affords hopened₁.kernel hb₁ with
      ⟨⟨bFd, s₂⟩, hopen₂, -⟩ | ⟨hopen₂, hleft₂⟩
    · obtain ⟨hopened₂, -⟩ := Process.openFile_opened hopened₁.kernel hopened₁.ordered
        (hopened₁.room hroom (by decide)) hb₁ hopen₂
      have hne : bFd.setWidth 32 ≠ aFd.setWidth 32 := by
        intro he
        refine hopened₂.fresh ?_
        rw [he, hopened₁.fds]
        exact List.mem_append_right _ (List.mem_singleton_self _)
      rw [hopen₂, ok_bind_user]
      dsimp only
      rw [hopened₂.notError, if_neg Bool.false_ne_true,
        compareFiles_exits_iff hopened₂.kernel hf hg (hopened₂.others hopened₁.position)
          hopened₂.position hne, hopened₂.images, hopened₂.images, hopened₁.images, hopened₁.images]
      exact .inr Iff.rfl
    · refine .inl ⟨?_, by omega⟩
      rw [hopen₂]
      rfl
  · refine .inl ⟨?_, by omega⟩
    rw [hopen₁]
    rfl

/-- What `diff` decides is equality, unless the files differ behind their first 4096 bytes only.
The panic is the kernel's, without pages for the open files. -/
theorem diff_decides (h : s.tables.kernel.RamKernel ramFiles)
    (ho : Ordered (s.tables.filesLh m.address)) (hroom : m.Room s.tables 2)
    (ha : s.tables.kernel.PathOf aPath f) (hf : f ∈ ramFiles)
    (hb : s.tables.kernel.PathOf bPath g) (hg : g ∈ ramFiles) :
    (Diff.main m [name, aPath, bPath] s = .error (.crash outOfMemory) ∧
        s.tables.kernel.freePages < 2) ∨
      ((Exits (Diff.main m [name, aPath, bPath] s) 0 ↔
          (s.tables.kernel.fs.image f).content = (s.tables.kernel.fs.image g).content) ↔
        ((s.tables.kernel.fs.image f).content.take 4096 =
            (s.tables.kernel.fs.image g).content.take 4096 →
          (s.tables.kernel.fs.image f).content = (s.tables.kernel.fs.image g).content)) := by
  refine (diff_exits_iff h ho hroom ha hf hb hg).imp_right fun hexits => ?_
  rw [hexits]
  constructor
  · exact Iff.mp
  · exact fun himp => ⟨himp, fun heq => by rw [heq]⟩

end

open FsKernel in
theorem diff_decides_equal : ∃ (s : Process) (f g : U64),
    (s.tables.kernel.fs.image f).content = [0x61] ∧ (s.tables.kernel.fs.image g).content = [0x61] ∧
      Exits (Diff.main plainTask [[0x64], [0x61], [0x62]] s) 0 := by
  obtain ⟨k, f, g, hk, ha, hb, hf, hg, hleft⟩ := exists_two_files (a := [0x61]) (b := [0x61])
    (by decide) (by decide)
  have hdiff := @diff_decides plainTask (startOf k) [f, g] f g [0x64] [0x61] [0x62]
    hk.toRamKernel .nil (fun _ hx => absurd hx List.not_mem_nil) ha List.mem_cons_self hb
    (List.mem_cons_of_mem _ List.mem_cons_self)
  have hleft : ¬k.freePages < 2 := by omega
  have hequal : (k.fs.image f).content = (k.fs.image g).content := hf.trans hg.symm
  refine ⟨startOf k, f, g, hf, hg, ?_⟩
  exact ((hdiff.resolve_left fun hh => hleft hh.2).mpr fun _ => hequal).mpr hequal

/-- Two files of 4097 bytes with different last ones. -/
theorem diff_misses : ∃ (s : Process) (f g : U64), s.tables.kernel.RamKernel [f, g] ∧
    s.tables.kernel.PathOf [0x61] f ∧ s.tables.kernel.PathOf [0x62] g ∧
    (s.tables.kernel.fs.image f).content ≠ (s.tables.kernel.fs.image g).content ∧
    Exits (Diff.main plainTask [[0x64], [0x61], [0x62]] s) 0 := by
  have hlength : ∀ c : U8, (List.replicate 4096 0 ++ [c]).length ≤ 4200 := by
    intro c
    rw [List.length_append, List.length_replicate, List.length_singleton]
    decide
  obtain ⟨k, f, g, hk, ha, hb, hf, hg, hleft⟩ := exists_two_files (hlength 0) (hlength 1)
  have hdiff := @diff_exits_iff plainTask (startOf k) [f, g] f g [0x64] [0x61] [0x62]
    hk.toRamKernel .nil (fun _ hx => absurd hx List.not_mem_nil) ha List.mem_cons_self hb
    (List.mem_cons_of_mem _ List.mem_cons_self)
  have hleft : ¬k.freePages < 2 := by omega
  refine ⟨startOf k, f, g, hk.toRamKernel, ha, hb, ?_,
    (hdiff.resolve_left fun hh => hleft hh.2).mpr ?_⟩
  · intro he
    have hlast := List.append_cancel_left (hf.symm.trans (he.trans hg))
    exact absurd hlast (by decide)
  · have htake : ∀ c : U8, (List.replicate 4096 0 ++ [c]).take 4096 = List.replicate 4096 0 :=
      fun c => List.take_left' List.length_replicate
    change (k.fs.image f).content.take 4096 = (k.fs.image g).content.take 4096
    rw [hf, hg, htake, htake]

end Persistos
