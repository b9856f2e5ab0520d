import Persistos.RamfsCreate
import Persistos.RamfsImage
import Mathlib.Data.List.Induction

/-! Histories of calls on any number of RAM files. What a file holds is decided
by the calls on it alone. -/

namespace Persistos

/-- A call on an open file. The offset is any that `LSEEK` can have set. -/
inductive FileOp where
  | write (offset : U64) (buffer : Nat → U8) (length : U64)
  | setSize (size : U64)
  | read (offset : U64) (buffer : Nat → U8) (length : U64)

abbrev Reply : Type := U64 × (Nat → U8)

def FileOp.exec (fs : Ramfs) (f : U64) : FileOp → Except Crash (Ramfs × List Reply)
  | .write offset buffer length => do
    let (_, fs) ← ramfsWrite fs ⟨f, offset⟩ buffer length
    .ok (fs, [])
  | .setSize size => do
    let (_, fs) ← ramfsSetSize fs ⟨f, 0⟩ size
    .ok (fs, [])
  | .read offset buffer length => do
    let r ← ramfsRead fs ⟨f, offset⟩ buffer length
    .ok (r.state, [(r.bytesRead, r.buffer)])

structure Directory where
  inode : Inode
  mounted : inode.superblock ≠ 0

/-- A file is named by the number of files created before it. -/
inductive RamfsEvent where
  | create (parentDir : Directory) (name : List U8)
  | mkdir (parentDir : Directory) (name : List U8)
  | file (key : Nat) (op : FileOp)

structure RamfsRun where
  fs : Ramfs
  files : List U64
  replies : List (Nat × Reply)

namespace RamfsRun

def boot (m : BootMemory) : RamfsRun := ⟨.init m, [], []⟩

def step (s : RamfsRun) : RamfsEvent → Except Crash RamfsRun
  | .create parentDir name => do
    let (f, _, fs) ← vfsCreate ramfsSuperblockOps s.fs parentDir.inode name
    .ok { s with fs, files := s.files ++ f.toList }
  | .mkdir parentDir name => do
    let (_, _, fs) ← vfsMkdir ramfsSuperblockOps s.fs parentDir.inode name
    .ok { s with fs }
  | .file key op =>
    match s.files[key]? with
    | none => .error .outOfBounds
    | some f => do
      let (fs, replies) ← op.exec s.fs f
      .ok { s with fs, replies := s.replies ++ replies.map fun r => (key, r) }

def run (s : RamfsRun) (events : List RamfsEvent) : Except Crash RamfsRun :=
  events.foldlM step s

theorem run_concat_ok {s t : RamfsRun} {events : List RamfsEvent} {e : RamfsEvent} :
    s.run (events ++ [e]) = .ok t ↔ ∃ s₁, s.run events = .ok s₁ ∧ s₁.step e = .ok t := by
  rw [run, List.foldlM_append]
  constructor
  · intro h
    obtain ⟨s₁, hrun, hstep⟩ := bind_eq_ok h
    rw [List.foldlM_cons] at hstep
    obtain ⟨s₂, hstep, he⟩ := bind_eq_ok hstep
    cases he
    exact ⟨s₁, hrun, hstep⟩
  · intro h
    obtain ⟨s₁, hrun, hstep⟩ := h
    rw [run] at hrun
    rw [hrun, ok_bind, List.foldlM_cons, hstep]
    rfl

def repliesOn (s : RamfsRun) (key : Nat) : List Reply :=
  s.replies.filterMap fun r => if r.1 = key then some r.2 else none

theorem repliesOn_append (s : RamfsRun) (fs : Ramfs) (key : Nat) (replies : List Reply) (b : Nat) :
    repliesOn { s with fs, replies := s.replies ++ replies.map fun r => (key, r) } b =
      s.repliesOn b ++ if key = b then replies else [] := by
  rw [repliesOn, List.filterMap_append, List.filterMap_map, repliesOn]
  by_cases h : key = b <;> simp [h]

end RamfsRun

def RamfsReachable (s : RamfsRun) : Prop := ∃ m events, (RamfsRun.boot m).run events = .ok s

def RamfsEvent.on (key : Nat) : RamfsEvent → List FileOp
  | .file k op => if k = key then [op] else []
  | _ => []

def opsOn (key : Nat) (events : List RamfsEvent) : List FileOp := events.flatMap (·.on key)

def FileOp.onImage (image : Image) : FileOp → Image
  | .write offset buffer length => image.write offset buffer length
  | .setSize size => image.setSize size.toNat
  | .read _ _ _ => image

def FileOp.replyFrom (image : Image) : FileOp → List Reply
  | .read offset buffer length =>
    match image.read offset buffer length with
    | .ok reply => [reply]
    | .error _ => []
  | _ => []

def FileOp.onFile (state : Image × List Reply) (op : FileOp) : Image × List Reply :=
  (op.onImage state.1, state.2 ++ op.replyFrom state.1)

theorem FileOp.exec_ok {fs fs' : Ramfs} {files : List U64} {f : U64} {op : FileOp}
    {replies : List Reply} (h : RamfsInv fs files) (hf : f ∈ files)
    (he : op.exec fs f = .ok (fs', replies)) :
    FileCall fs fs' files f (op.onImage (fs.image f)) ∧ replies = op.replyFrom (fs.image f) := by
  have hfile : ∀ offset, (File.mk f offset).inode ∈ files := fun _ => hf
  cases op with
  | write offset buffer length =>
    obtain ⟨⟨n, fs₁⟩, hw, he⟩ := bind_eq_ok he
    cases he
    obtain ⟨-, hcall⟩ := h.write_ok (hfile offset) hw
    exact ⟨hcall, rfl⟩
  | setSize size =>
    obtain ⟨⟨n, fs₁⟩, hw, he⟩ := bind_eq_ok he
    cases he
    exact ⟨h.setSize_ok (hfile 0) hw, rfl⟩
  | read offset buffer length =>
    obtain ⟨r, hr, he⟩ := bind_eq_ok he
    cases he
    obtain ⟨hread, hstate⟩ := h.read_ok (hfile offset) hr
    rw [hstate, replyFrom]
    dsimp only at hread
    rw [hread]
    exact ⟨⟨h, .refl fs files f, rfl⟩, rfl⟩

/-- What is known of a file after a history with these operations on it. -/
def fileAfter (ops : List FileOp) : Image × List Reply := ops.foldl FileOp.onFile (Image.empty, [])

/-- The state after a history: each file is as the operations on it leave it. -/
structure RunInv (s : RamfsRun) (events : List RamfsEvent) : Prop where
  inv : RamfsInv s.fs s.files
  files : ∀ b f, s.files[b]? = some f →
    (s.fs.image f, s.repliesOn b) = fileAfter (opsOn b events)
  replies : ∀ b, s.files.length ≤ b → opsOn b events = [] ∧ s.repliesOn b = []

theorem opsOn_append (b : Nat) (events events' : List RamfsEvent) :
    opsOn b (events ++ events') = opsOn b events ++ opsOn b events' := List.flatMap_append

namespace RunInv

variable {s t : RamfsRun} {events : List RamfsEvent}

theorem boot (m : BootMemory) : RunInv (.boot m) [] where
  inv := by
    refine ⟨⟨⟨[], .init (by decide) (by decide) _⟩, ⟨[], .init (by decide) (by decide) _⟩,
      .init (by decide) (by decide) _, .init _ _ _, .init (by decide) (by decide) _, ?_⟩, ?_⟩
    · exact fun f hf => absurd hf List.not_mem_nil
    · exact fun f hf => absurd hf List.not_mem_nil
  files b f hf := by simp [RamfsRun.boot] at hf
  replies b _ := ⟨rfl, rfl⟩

theorem of_kept (h : RunInv s events) {fs : Ramfs} {e : RamfsEvent}
    (hkept : FilesKept s.fs fs s.files) (he : ∀ b, e.on b = []) (b : Nat) {f : U64}
    (hf : s.files[b]? = some f) :
    (fs.image f, s.repliesOn b) = fileAfter (opsOn b (events ++ [e])) := by
  have hops : opsOn b [e] = [] := by simp [opsOn, he]
  rw [opsOn_append, hops, List.append_nil, hkept.image (List.mem_of_getElem? hf)]
  exact h.files b f hf

theorem create (h : RunInv s events) {parentDir : Directory} {name : List U8}
    (hs : s.step (.create parentDir name) = .ok t) :
    RunInv t (events ++ [.create parentDir name]) := by
  obtain ⟨⟨r, parent, fs⟩, hc, he⟩ := bind_eq_ok hs
  obtain ⟨f, rfl, hnot, hinv, hkept, hempty⟩ := h.inv.create parentDir.mounted hc
  cases he
  refine ⟨hinv, ?_, ?_⟩
  · intro b g hg
    by_cases hb : b < s.files.length
    · rw [List.getElem?_append_left hb] at hg
      exact h.of_kept hkept (fun _ => rfl) b hg
    · have hlen := (List.getElem?_eq_some_iff.mp hg).1
      obtain rfl : b = s.files.length := by simp at hlen; omega
      obtain rfl : f = g := by simpa using hg
      obtain ⟨hops, hreplies⟩ := h.replies s.files.length (Nat.le_refl _)
      have hnew : fs.image f = Image.empty := by
        rw [Ramfs.image, Ramfs.clustersOf, hempty]
        rfl
      rw [opsOn_append, hops]
      exact Prod.ext hnew hreplies
  · intro b hb
    have hb' : s.files.length ≤ b := by simp at hb; omega
    rw [opsOn_append, (h.replies b hb').1]
    exact ⟨rfl, (h.replies b hb').2⟩

theorem mkdir (h : RunInv s events) {parentDir : Directory} {name : List U8}
    (hs : s.step (.mkdir parentDir name) = .ok t) :
    RunInv t (events ++ [.mkdir parentDir name]) := by
  obtain ⟨⟨r, parent, fs⟩, hc, he⟩ := bind_eq_ok hs
  obtain ⟨hinv, hkept⟩ := h.inv.mkdir hc
  cases he
  refine ⟨hinv, ?_, ?_⟩
  · exact fun b f hf => h.of_kept hkept (fun _ => rfl) b hf
  · intro b hb
    rw [opsOn_append, (h.replies b hb).1]
    exact ⟨rfl, (h.replies b hb).2⟩

theorem file (h : RunInv s events) {key : Nat} {op : FileOp}
    (hs : s.step (.file key op) = .ok t) : RunInv t (events ++ [.file key op]) := by
  rw [RamfsRun.step] at hs
  split at hs
  · cases hs
  · next f hf =>
    obtain ⟨⟨fs, replies⟩, hop, he⟩ := bind_eq_ok hs
    have hmem := List.mem_of_getElem? hf
    have hlt := (List.getElem?_eq_some_iff.mp hf).1
    obtain ⟨⟨hinv, hothers, himage⟩, hreply⟩ := FileOp.exec_ok h.inv hmem hop
    cases he
    have hops : ∀ b, opsOn b [RamfsEvent.file key op] = if key = b then [op] else [] := by
      intro b
      simp [opsOn, RamfsEvent.on]
    refine ⟨hinv, ?_, ?_⟩
    · intro b g hg
      rw [opsOn_append, hops, RamfsRun.repliesOn_append]
      by_cases hb : key = b
      · subst hb
        obtain rfl := Option.some.inj (hf.symm.trans hg)
        rw [if_pos rfl, if_pos rfl, fileAfter, List.foldl_append, ← fileAfter, ← h.files key f hg,
          himage, hreply]
        rfl
      · have hne : g ≠ f := by
          intro he
          exact hb ((List.getElem?_inj hlt h.inv.files_nodup).mp (hf.trans (he ▸ hg.symm)))
        rw [if_neg hb, if_neg hb, List.append_nil, List.append_nil,
          hothers.image (List.mem_of_getElem? hg) hne]
        exact h.files b g hg
    · intro b hb
      have hkey : key ≠ b := by
        simp at hb
        omega
      rw [opsOn_append, hops, RamfsRun.repliesOn_append, if_neg hkey, if_neg hkey,
        (h.replies b hb).1, (h.replies b hb).2]
      exact ⟨rfl, rfl⟩

theorem step (h : RunInv s events) {e : RamfsEvent} (hs : s.step e = .ok t) :
    RunInv t (events ++ [e]) := by
  cases e with
  | create parentDir name => exact h.create hs
  | mkdir parentDir name => exact h.mkdir hs
  | file key op => exact h.file hs

theorem run {m : BootMemory} (events : List RamfsEvent)
    (hs : (RamfsRun.boot m).run events = .ok s) : RunInv s events := by
  induction events using List.reverseRecOn generalizing s with
  | nil =>
    cases hs
    exact .boot m
  | append_singleton events e ih =>
    obtain ⟨s₁, hrun, hstep⟩ := RamfsRun.run_concat_ok.mp hs
    exact (ih hrun).step hstep

end RunInv

theorem RamfsReachable.inv {s : RamfsRun} (h : RamfsReachable s) : RamfsInv s.fs s.files := by
  obtain ⟨m, events, hrun⟩ := h
  exact (RunInv.run events hrun).inv

/-- A file reads back the same in every history with the same operations on it,
wherever its clusters come from and whatever the other files do. -/
theorem files_do_not_leak {m₁ m₂ : BootMemory} {events₁ events₂ : List RamfsEvent}
    {s₁ s₂ : RamfsRun} (h₁ : (RamfsRun.boot m₁).run events₁ = .ok s₁)
    (h₂ : (RamfsRun.boot m₂).run events₂ = .ok s₂) {b₁ b₂ : Nat} {f₁ f₂ : U64}
    (hf₁ : s₁.files[b₁]? = some f₁) (hf₂ : s₂.files[b₂]? = some f₂)
    (hops : opsOn b₁ events₁ = opsOn b₂ events₂) :
    s₁.repliesOn b₁ = s₂.repliesOn b₂ ∧ ∀ offset buffer length,
      (ramfsRead s₁.fs ⟨f₁, offset⟩ buffer length).map (fun r => (r.bytesRead, r.buffer)) =
        (ramfsRead s₂.fs ⟨f₂, offset⟩ buffer length).map (fun r => (r.bytesRead, r.buffer)) := by
  have hs₁ := RunInv.run events₁ h₁
  have hs₂ := RunInv.run events₂ h₂
  have hsame : (s₁.fs.image f₁, s₁.repliesOn b₁) = (s₂.fs.image f₂, s₂.repliesOn b₂) := by
    rw [hs₁.files b₁ f₁ hf₁, hs₂.files b₂ f₂ hf₂, hops]
  obtain ⟨himage, hreplies⟩ := Prod.mk.inj hsame
  refine ⟨hreplies, ?_⟩
  intro offset buffer length
  have hfile₁ : (File.mk f₁ offset).inode ∈ s₁.files := List.mem_of_getElem? hf₁
  have hfile₂ : (File.mk f₂ offset).inode ∈ s₂.files := List.mem_of_getElem? hf₂
  rw [hs₁.inv.read_eq hfile₁, hs₂.inv.read_eq hfile₂, himage]
  cases (s₂.fs.image f₂).read offset buffer length with
  | ok reply => rfl
  | error e => rfl

def fourPages (old : U8) : BootMemory where
  supply := ⟨[0x1000, 0x2000, 0x3000, 0x4000], by simp [PageAligned], by decide⟩
  inodes _ := ⟨old, 0, 0, []⟩
  dentries _ := ⟨[old], 0, 0⟩
  ramfsInodes _ := ⟨[], old.setWidth 64⟩
  ramfsClusters _ _ := old

def rootDirectory : Directory := ⟨⟨inodeDirectory, 0x8000, 0, []⟩, by decide⟩

theorem RamfsRun.exists_of_map (m : BootMemory) (events : List RamfsEvent) {α : Type}
    (g : RamfsRun → α) (v : α) (h : ((boot m).run events).map g = .ok v) :
    ∃ s, (boot m).run events = .ok s ∧ g s = v := by
  cases hrun : (boot m).run events with
  | error e =>
    rw [hrun] at h
    cases h
  | ok s =>
    rw [hrun] at h
    exact ⟨s, rfl, Except.ok.inj h⟩

/-- The second history uses the cluster of another file, which was truncated. -/
theorem files_do_not_leak_reused : ∃ s₁ s₂,
    (RamfsRun.boot (fourPages 0)).run [.create rootDirectory [0x62],
      .file 0 (.write 3 (fun _ => 0x42) 5)] = .ok s₁ ∧
    (RamfsRun.boot (fourPages 0xA5)).run [.create rootDirectory [0x61],
      .create rootDirectory [0x62], .file 0 (.write 0 (fun _ => 0x41) 200), .file 0 (.setSize 100),
      .file 1 (.write 3 (fun _ => 0x42) 5)] = .ok s₂ ∧
    ∀ offset buffer length,
      (ramfsRead s₁.fs ⟨0x1030, offset⟩ buffer length).map (fun r => (r.bytesRead, r.buffer)) =
        (ramfsRead s₂.fs ⟨0x1060, offset⟩ buffer length).map
          (fun r => (r.bytesRead, r.buffer)) := by
  obtain ⟨s₁, h₁, hf₁⟩ := RamfsRun.exists_of_map (fourPages 0)
    [.create rootDirectory [0x62], .file 0 (.write 3 (fun _ => 0x42) 5)]
    RamfsRun.files [0x1030] (by decide +kernel)
  obtain ⟨s₂, h₂, hf₂⟩ := RamfsRun.exists_of_map (fourPages 0xA5)
    [.create rootDirectory [0x61], .create rootDirectory [0x62],
      .file 0 (.write 0 (fun _ => 0x41) 200), .file 0 (.setSize 100),
      .file 1 (.write 3 (fun _ => 0x42) 5)]
    RamfsRun.files [0x1030, 0x1060] (by decide +kernel)
  have hb₁ : s₁.files[0]? = some 0x1030 := by rw [hf₁]; rfl
  have hb₂ : s₂.files[1]? = some 0x1060 := by rw [hf₂]; rfl
  exact ⟨s₁, s₂, h₁, h₂, (files_do_not_leak h₁ h₂ hb₁ hb₂ rfl).2⟩

end Persistos
