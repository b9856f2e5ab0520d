import Persistos.UserBoot
import Persistos.UserWrites

/-! The program `cat`. -/

namespace Persistos

open Theory

namespace Cat

variable (m : UserTask)

/-- The loop over a file, for at most as many passes as the number says. -/
def copy (fd : U64) : Nat → (Nat → U8) → Process → Except UserStop ((Nat → U8) × Process)
  | 0, _, _ => .error (.crash .endless)
  | passes + 1, buf, s => do
    let (bytesRead, buf, s) ← s.read m fd buf 4096
    if isError bytesRead then s.fail m [ascii "cat: error reading file\n"]
    else if bytesRead = 0 then .ok (buf, s)
    else do
      let (_, s) ← s.write m 1 buf bytesRead
      copy fd passes buf s

/-- The loop's body for one argument. -/
def copyFile (passes : Nat) (buf : Nat → U8) (s : Process) (arg : List U8) :
    Except UserStop ((Nat → U8) × Process) := do
  let (fd, s) ← s.openFile m arg 0
  if isError fd then s.fail m [ascii "cat: error opening ", arg, ascii "\n"]
  else do
    let (buf, s) ← copy m fd passes buf s
    let (_, s) ← s.close m fd
    .ok (buf, s)

def main (passes : Nat) (argv : List (List U8)) (s : Process) : Except UserStop Process :=
  if argv.length < 2 then s.fail m [ascii "cat: expected a filepath argument\n"]
  else do
    let (_, s) ← argv.tail.foldlM (fun (buf, s) arg => copyFile m passes buf s arg) (m.stack, s)
    s.exit 0

end Cat

/-- The clusters of a file with this many bytes. -/
def fullClusters (size : Nat) : Nat := (size + 127) / 128

/-- `s'` has the data behind what the file at `g` holds in `s`, and `fd` at the end of them. No
other file has changed. -/
structure Appended (m : UserTask) (s s' : FileTables FsKernel) (ramFiles : List U64) (fd g : U64)
    (data : List U8) : Prop where
  kernel : s'.kernel.RamKernel ramFiles
  tree : s.kernel.TreeKept s'.kernel
  content : (s'.kernel.fs.image g).content = (s.kernel.fs.image g).content ++ data
  images : ∀ f ∈ ramFiles, f ≠ g → s'.kernel.fs.image f = s.kernel.fs.image f
  output : m.At s' fd g (s'.kernel.fs.image g).content.length

namespace Appended

variable {m : UserTask} {s s' s'' : FileTables FsKernel} {ramFiles : List U64} {fd g : U64}
  {data data' : List U8}

theorem trans (h : Appended m s s' ramFiles fd g data)
    (h' : Appended m s' s'' ramFiles fd g data') :
    Appended m s s'' ramFiles fd g (data ++ data') where
  kernel := h'.kernel
  tree := h.tree.trans h'.tree
  content := by
    rw [h'.content, h.content, List.append_assoc]
  images f hf hne := (h'.images f hf hne).trans (h.images f hf hne)
  output := h'.output

/-- A step that leaves all contents. -/
theorem of_images (h : s'.kernel.RamKernel ramFiles) (htree : s.kernel.TreeKept s'.kernel)
    (himages : ∀ f, s'.kernel.fs.image f = s.kernel.fs.image f)
    (hout : m.At s' fd g (s.kernel.fs.image g).content.length) :
    Appended m s s' ramFiles fd g [] where
  kernel := h
  tree := htree
  content := by
    rw [himages, List.append_nil]
  images f _ _ := himages f
  output := by
    rw [himages]
    exact hout

end Appended

theorem ordered_iff_fds {files : List OpenFile} :
    Ordered files ↔ (files.map OpenFile.fd).Pairwise (· < ·) :=
  List.pairwise_map.symm

/-- What is the same for the open files before and after reads and writes. -/
structure SameFiles (m : UserTask) (s s' : FileTables FsKernel) : Prop where
  fds : (s'.filesLh m.address).map OpenFile.fd = (s.filesLh m.address).map OpenFile.fd
  addresses : ∀ {fd filp}, m.filpFind s fd = some filp →
    ∃ filp', m.filpFind s' fd = some filp' ∧ filp'.address = filp.address
  slots : s'.kernel.fileSlots = s.kernel.fileSlots

namespace SameFiles

variable {m : UserTask} {s s' s'' : FileTables FsKernel}

theorem trans (h : SameFiles m s s') (h' : SameFiles m s' s'') : SameFiles m s s'' where
  fds := h'.fds.trans h.fds
  addresses hfind := by
    obtain ⟨filp', hfind', haddress⟩ := h.addresses hfind
    obtain ⟨filp'', hfind'', haddress'⟩ := h'.addresses hfind'
    exact ⟨filp'', hfind'', haddress'.trans haddress⟩
  slots := h'.slots.trans h.slots

theorem ordered (h : SameFiles m s s') (ho : Ordered (s.filesLh m.address)) :
    Ordered (s'.filesLh m.address) := by
  rw [ordered_iff_fds, h.fds, ← ordered_iff_fds]
  exact ho

end SameFiles

section

variable {m : UserTask} {s : Process} {ramFiles : List U64} {fd f g : U64} {p : Nat}

theorem fullClusters_le {k : FsKernel} (h : k.RamKernel ramFiles) (hg : g ∈ ramFiles) :
    fullClusters (k.fs.image g).content.length ≤ (k.fs.clustersOf g).length := by
  have hcovered : (k.fs.image g).size ≤ 128 * (k.fs.clustersOf g).length :=
    (h.ram.sized g hg).covered
  rw [Image.content_length, fullClusters]
  omega

/-- A write at the end of the output. -/
theorem write_appends (h : s.tables.kernel.RamKernel ramFiles) (hg : g ∈ ramFiles)
    (hout : m.At s.tables 1 g (s.tables.kernel.fs.image g).content.length) (buf : Nat → U8)
    {length : U64} (hpos : 0 < length.toNat) (hlength : length.toNat ≤ 4096) :
    Affords (s.write m 1 buf length) (.crash outOfMemory) s.tables.kernel.freePages
        (fun r => r.2.tables.kernel.freePages)
        (fullClusters ((s.tables.kernel.fs.image g).content.length + length.toNat) -
          fullClusters (s.tables.kernel.fs.image g).content.length) ∧
      ∀ n s', s.write m 1 buf length = .ok (n, s') →
        Appended m s.tables s'.tables ramFiles 1 g (slice buf 0 length.toNat) ∧
        SameFiles m s.tables s'.tables ∧
        ∀ {fd' f q}, fd'.setWidth 32 ≠ (1 : U64).setWidth 32 → m.At s.tables fd' f q →
          m.At s'.tables fd' f q := by
  have hsize := h.size_le hg
  have hclusters := fullClusters_le h hg
  rw [← Image.content_length] at hsize
  constructor
  · refine Affords.bind_free ?_ fun _ _ => .ok rfl (Nat.le_refl _)
    refine ((UserTask.sysWrite_affords h hg hout buf (by omega)).mapError UserStop.crash).mono ?_
    rw [Image.clustersFor]
    simp only [fullClusters] at hclusters ⊢
    omega
  · intro n s' hw
    obtain ⟨hsys, -⟩ := Process.write_ok hw
    obtain ⟨-, hwritten⟩ := UserTask.sysWrite_ram h hg hout (Nat.le_refl _) (by omega) hsys
    have hcontent := hwritten.content
    rw [List.take_length, List.drop_of_length_le (Nat.le_add_right _ _), List.append_nil]
      at hcontent
    refine ⟨⟨hwritten.kernel, hwritten.tree, hcontent, hwritten.images, ?_⟩,
      ⟨hwritten.fds, hwritten.addresses, hwritten.slots⟩, hwritten.others⟩
    rw [hcontent, List.length_append]
    exact hwritten.position

/-- The loop appends the rest of the file. -/
theorem copy_appends (h : s.tables.kernel.RamKernel ramFiles) (hf : f ∈ ramFiles)
    (hg : g ∈ ramFiles) (hne : f ≠ g) (hfd : fd.setWidth 32 ≠ (1 : U64).setWidth 32)
    (hat : m.At s.tables fd f p) (hp : p ≤ (s.tables.kernel.fs.image f).content.length)
    (hout : m.At s.tables 1 g (s.tables.kernel.fs.image g).content.length) (buf : Nat → U8)
    {passes : Nat} (hpasses : (s.tables.kernel.fs.image f).content.length - p < passes) :
    Affords (Cat.copy m fd passes buf s) (.crash outOfMemory) s.tables.kernel.freePages
        (fun r => r.2.tables.kernel.freePages)
        (fullClusters ((s.tables.kernel.fs.image g).content.length +
            ((s.tables.kernel.fs.image f).content.length - p)) -
          fullClusters (s.tables.kernel.fs.image g).content.length) ∧
      ∀ buf' s', Cat.copy m fd passes buf s = .ok (buf', s') →
        Appended m s.tables s'.tables ramFiles 1 g
          ((s.tables.kernel.fs.image f).content.drop p) ∧
        SameFiles m s.tables s'.tables := by
  induction passes generalizing s p buf with
  | zero => omega
  | succ passes ih =>
    have h4096 : (4096 : U64).toNat = 4096 := rfl
    obtain ⟨buf₁, s₁, hread, hhas, -⟩ := Process.read_ram h hf hat hp buf
      (show (4096 : U64).toNat ≤ 2 ^ 32 by decide)
    have hkernel := hhas.kernel
    have hbytes := hhas.bytes
    have hout₁ := hhas.others hfd.symm hout
    have happended₁ : Appended m s.tables s₁.tables ramFiles 1 g [] :=
      .of_images (hkernel ▸ h) (hkernel ▸ .refl _) (fun _ => by rw [hkernel]) hout₁
    have hsame₁ : SameFiles m s.tables s₁.tables :=
      ⟨hhas.fds, hhas.addresses, congrArg FsKernel.fileSlots hkernel⟩
    have hat₁ := hhas.position
    rw [UserTask.toRead, h4096] at hread hbytes hat₁
    generalize hn : min 4096 ((s.tables.kernel.fs.image f).content.length - p) = n
      at hread hbytes hat₁
    have hnat : (BitVec.ofNat 64 n).toNat = n := by
      rw [BitVec.toNat_ofNat]
      omega
    have hok : isError (BitVec.ofNat 64 n) = false := isError_of_lt (by omega)
    rw [Cat.copy, hread, ok_bind_user]
    dsimp only
    rw [hok, if_neg Bool.false_ne_true]
    by_cases hzero : n = 0
    · have hend : p = (s.tables.kernel.fs.image f).content.length := by omega
      rw [hzero, if_pos (show BitVec.ofNat 64 0 = 0 from rfl)]
      refine ⟨.ok rfl (by rw [hkernel]), fun buf' s' hs' => ?_⟩
      cases hs'
      rw [hend, List.drop_length]
      exact ⟨happended₁, hsame₁⟩
    · have hnonzero : BitVec.ofNat 64 n ≠ 0 := by
        intro hh
        have hh := congrArg BitVec.toNat hh
        rw [hnat] at hh
        exact hzero hh
      rw [if_neg hnonzero]
      obtain ⟨hwrite, hwritten⟩ := write_appends happended₁.kernel hg happended₁.output buf₁
        (show 0 < (BitVec.ofNat 64 n).toNat by omega) (by omega)
      have hstep : ∀ n' s₂, s₁.write m 1 buf₁ (BitVec.ofNat 64 n) = .ok (n', s₂) →
          Affords (Cat.copy m fd passes buf₁ s₂) (.crash outOfMemory) s₂.tables.kernel.freePages
              (fun r => r.2.tables.kernel.freePages)
              (fullClusters ((s.tables.kernel.fs.image g).content.length + n +
                  ((s.tables.kernel.fs.image f).content.length - (p + n))) -
                fullClusters ((s.tables.kernel.fs.image g).content.length + n)) ∧
            ∀ buf' s', Cat.copy m fd passes buf₁ s₂ = .ok (buf', s') →
              Appended m s.tables s'.tables ramFiles 1 g
                ((s.tables.kernel.fs.image f).content.drop p) ∧
              SameFiles m s.tables s'.tables := by
        intro n' s₂ hw
        obtain ⟨happended₂, hsame₂, hothers₂⟩ := hwritten n' s₂ hw
        have hcontent := happended₂.content
        have himage := happended₂.images f hf hne
        rw [hnat, hkernel, hbytes] at hcontent
        rw [hkernel] at himage
        have hlength := congrArg List.length hcontent
        rw [List.length_append, List.length_take, List.length_drop, ← hn, Nat.min_assoc,
          Nat.min_self, hn] at hlength
        have hrest := ih happended₂.kernel (hothers₂ hfd hat₁) (by rw [himage]; omega)
          happended₂.output buf₁ (by rw [himage]; omega)
        rw [himage, hlength] at hrest
        refine hrest.imp_right fun happends buf' s' hs' => ?_
        obtain ⟨happended₃, hsame₃⟩ := happends buf' s' hs'
        refine ⟨?_, hsame₁.trans (hsame₂.trans hsame₃)⟩
        have hall := happended₁.trans (happended₂.trans happended₃)
        rw [hnat, hbytes, List.nil_append, ← List.drop_drop, List.take_append_drop] at hall
        exact hall
      rw [hnat, hkernel] at hwrite
      constructor
      · refine (hwrite.bind fun r hr => (hstep r.1 r.2 hr).1).mono ?_
        simp only [fullClusters]
        omega
      · intro buf' s' hs'
        obtain ⟨⟨n', s₂⟩, hw, hs'⟩ := bind_user_eq_ok hs'
        exact (hstep n' s₂ hw).2 buf' s' hs'

end

/-- `Appended`, with no more descriptors open than before. -/
structure FilesAppended (m : UserTask) (s s' : FileTables FsKernel) (ramFiles : List U64) (g : U64)
    (data : List U8) : Prop extends Appended m s s' ramFiles 1 g data where
  ordered : Ordered (s'.filesLh m.address)
  closed : (s'.filesLh m.address).map OpenFile.fd ⊆ (s.filesLh m.address).map OpenFile.fd

section

variable {m : UserTask} {s s₁ : Process} {ramFiles : List U64} {fd f g : U64} {path : List U8}
  {passes : Nat}

/-- What follows the OPEN of an argument. -/
theorem copy_closes (h : s.tables.kernel.RamKernel ramFiles)
    (ho : Ordered (s.tables.filesLh m.address)) (hroom : m.Room s.tables 1)
    (hpath : s.tables.kernel.PathOf path f) (hf : f ∈ ramFiles) (hg : g ∈ ramFiles) (hne : f ≠ g)
    (hout : m.At s.tables 1 g (s.tables.kernel.fs.image g).content.length)
    (hpasses : (s.tables.kernel.fs.image f).content.length < passes) (buf : Nat → U8)
    (hopen : s.openFile m path 0 = .ok (fd, s₁)) :
    Affords (Cat.copy m fd passes buf s₁) (.crash outOfMemory) s₁.tables.kernel.freePages
        (fun r => r.2.tables.kernel.freePages)
        (fullClusters ((s.tables.kernel.fs.image g).content.length +
            (s.tables.kernel.fs.image f).content.length) -
          fullClusters (s.tables.kernel.fs.image g).content.length) ∧
      isError fd = false ∧
      ∀ buf' s₂, Cat.copy m fd passes buf s₁ = .ok (buf', s₂) →
        ∃ s', s₂.close m fd = .ok (0, s') ∧
          s'.tables.kernel.freePages = s₂.tables.kernel.freePages ∧
          FilesAppended m s.tables s'.tables ramFiles g (s.tables.kernel.fs.image f).content := by
  obtain ⟨hopened, -⟩ := Process.openFile_opened h ho hroom hpath hopen
  have hfd : fd.setWidth 32 ≠ (1 : U64).setWidth 32 := fun he => hopened.fresh (he ▸ hout.mem_fds)
  have happended₁ : Appended m s.tables s₁.tables ramFiles 1 g [] :=
    .of_images hopened.kernel hopened.tree hopened.images (hopened.others hout)
  have hpasses₁ : (s₁.tables.kernel.fs.image f).content.length - 0 < passes := by
    rw [hopened.images]
    omega
  obtain ⟨haffords, hcopied⟩ := copy_appends hopened.kernel hf hg hne hfd hopened.position
    (Nat.zero_le _) happended₁.output buf hpasses₁
  rw [hopened.images, hopened.images, Nat.sub_zero] at haffords
  refine ⟨haffords, hopened.notError, fun buf' s₂ hcopy => ?_⟩
  obtain ⟨happended₂, hsame⟩ := hcopied buf' s₂ hcopy
  rw [hopened.images, List.drop_zero] at happended₂
  obtain ⟨filp₁, hfind₁, hslot⟩ := hopened.slot
  obtain ⟨filp₂, hfind₂, haddress⟩ := hsame.addresses hfind₁
  obtain ⟨tables, hclose, hclosed⟩ := UserTask.sysClose_ok happended₂.kernel
    (hsame.ordered hopened.ordered) hfind₂ (by rw [haddress, hsame.slots]; exact hslot)
  have happended₃ : Appended m s₂.tables tables ramFiles 1 g [] :=
    .of_images hclosed.kernel hclosed.tree (fun _ => by rw [hclosed.ramfs])
      (hclosed.others hfd.symm happended₂.output)
  have hall := happended₁.trans (happended₂.trans happended₃)
  rw [List.nil_append, List.append_nil] at hall
  refine ⟨{ s₂ with tables }, ?_, ?_, hall, hclosed.ordered, fun x hx => ?_⟩
  · rw [Process.close, hclose]
    rfl
  · rw [FsKernel.freePages, hclosed.ramfs]
    rfl
  · obtain ⟨hmem, hxfd⟩ := hclosed.fds x hx
    rw [hsame.fds, hopened.fds] at hmem
    exact (List.mem_append.mp hmem).resolve_right fun hh => hxfd (List.mem_singleton.mp hh)

/-- One argument. -/
theorem copyFile_appends (h : s.tables.kernel.RamKernel ramFiles)
    (ho : Ordered (s.tables.filesLh m.address)) (hroom : m.Room s.tables 1)
    (hpath : s.tables.kernel.PathOf path f) (hf : f ∈ ramFiles) (hg : g ∈ ramFiles) (hne : f ≠ g)
    (hout : m.At s.tables 1 g (s.tables.kernel.fs.image g).content.length)
    (hpasses : (s.tables.kernel.fs.image f).content.length < passes) (buf : Nat → U8) :
    Affords (Cat.copyFile m passes buf s path) (.crash outOfMemory) s.tables.kernel.freePages
        (fun r => r.2.tables.kernel.freePages)
        (fullClusters ((s.tables.kernel.fs.image g).content.length +
            (s.tables.kernel.fs.image f).content.length) -
          fullClusters (s.tables.kernel.fs.image g).content.length + 1) ∧
      ∀ r, Cat.copyFile m passes buf s path = .ok r →
        FilesAppended m s.tables r.2.tables ramFiles g (s.tables.kernel.fs.image f).content := by
  constructor
  · refine (Process.openFile_affords h hpath).bind fun r hopen => ?_
    obtain ⟨haffords, hfd, hcopied⟩ :=
      copy_closes h ho hroom hpath hf hg hne hout hpasses buf hopen
    dsimp only
    rw [hfd, if_neg Bool.false_ne_true]
    refine haffords.bind_free fun r' hcopy => ?_
    obtain ⟨s', hclose, hpages, -⟩ := hcopied r'.1 r'.2 hcopy
    have hlast : (do
        let (_, s) ← r'.2.close m r.1
        .ok (r'.1, s) : Except UserStop ((Nat → U8) × Process)) = .ok (r'.1, s') := by
      rw [hclose]
      rfl
    exact .ok hlast (Nat.le_of_eq hpages.symm)
  · intro r hs'
    rw [Cat.copyFile] at hs'
    obtain ⟨⟨fd, s₁⟩, hopen, hs'⟩ := bind_user_eq_ok hs'
    obtain ⟨-, hfd, hcopied⟩ := copy_closes h ho hroom hpath hf hg hne hout hpasses buf hopen
    dsimp only at hs'
    rw [hfd, if_neg Bool.false_ne_true] at hs'
    obtain ⟨⟨buf', s₂⟩, hcopy, hs'⟩ := bind_user_eq_ok hs'
    obtain ⟨s', hclose, -, happended⟩ := hcopied buf' s₂ hcopy
    dsimp only at hs'
    rw [hclose] at hs'
    cases hs'
    exact happended

variable {paths : List (List U8)} {files : List U64}

/-- The loop over the arguments. -/
theorem copyFiles_append (hpaths : List.Forall₂ s.tables.kernel.PathOf paths files)
    (h : s.tables.kernel.RamKernel ramFiles) (ho : Ordered (s.tables.filesLh m.address))
    (hroom : m.Room s.tables 1) (hg : g ∈ ramFiles)
    (hfiles : ∀ f ∈ files, f ∈ ramFiles ∧ f ≠ g ∧
      (s.tables.kernel.fs.image f).content.length < passes)
    (hout : m.At s.tables 1 g (s.tables.kernel.fs.image g).content.length) (buf : Nat → U8) :
    Affords (paths.foldlM (fun (buf, s) arg => Cat.copyFile m passes buf s arg) (buf, s))
        (.crash outOfMemory) s.tables.kernel.freePages (fun r => r.2.tables.kernel.freePages)
        (fullClusters ((s.tables.kernel.fs.image g).content.length +
            (files.flatMap fun f => (s.tables.kernel.fs.image f).content).length) -
          fullClusters (s.tables.kernel.fs.image g).content.length + paths.length) ∧
      ∀ r, paths.foldlM (fun (buf, s) arg => Cat.copyFile m passes buf s arg) (buf, s) = .ok r →
        FilesAppended m s.tables r.2.tables ramFiles g
          (files.flatMap fun f => (s.tables.kernel.fs.image f).content) := by
  induction paths generalizing s buf files with
  | nil =>
    cases hpaths
    refine ⟨.ok rfl (Nat.le_refl _), fun r hr => ?_⟩
    cases hr
    exact ⟨.of_images h (.refl _) (fun _ => rfl) hout, ho, List.Subset.refl _⟩
  | cons path paths ih =>
    obtain _ | ⟨hpath, hpaths⟩ := hpaths
    next f files =>
    obtain ⟨⟨hf, hne, hpasses⟩, hfiles⟩ := List.forall_mem_cons.mp hfiles
    obtain ⟨haffords, happends⟩ :=
      copyFile_appends h ho hroom hpath hf hg hne hout hpasses buf
    have hstep : ∀ r, Cat.copyFile m passes buf s path = .ok r →
        Affords (paths.foldlM (fun (buf, s) arg => Cat.copyFile m passes buf s arg) r)
            (.crash outOfMemory) r.2.tables.kernel.freePages
            (fun r => r.2.tables.kernel.freePages)
            (fullClusters ((s.tables.kernel.fs.image g).content.length +
                (s.tables.kernel.fs.image f).content.length +
                (files.flatMap fun f => (s.tables.kernel.fs.image f).content).length) -
              fullClusters ((s.tables.kernel.fs.image g).content.length +
                (s.tables.kernel.fs.image f).content.length) + paths.length) ∧
          ∀ r', paths.foldlM (fun (buf, s) arg => Cat.copyFile m passes buf s arg) r = .ok r' →
            FilesAppended m s.tables r'.2.tables ramFiles g
              ((f :: files).flatMap fun f => (s.tables.kernel.fs.image f).content) := by
      intro r hr
      have happended := happends r hr
      have hsame : ∀ f ∈ files, r.2.tables.kernel.fs.image f = s.tables.kernel.fs.image f :=
        fun f hf => happended.images f (hfiles f hf).1 (hfiles f hf).2.1
      have hrest := ih (hpaths.imp fun _ _ hp => hp.kept happended.tree) happended.kernel
        happended.ordered (fun x hx => hroom x (happended.closed hx))
        (fun f hf => by rw [hsame f hf]; exact hfiles f hf) happended.output r.1
      have hcontents : (files.flatMap fun f => (r.2.tables.kernel.fs.image f).content) =
          files.flatMap fun f => (s.tables.kernel.fs.image f).content :=
        List.flatMap_congr fun f hf => by rw [hsame f hf]
      rw [hcontents, happended.content, List.length_append] at hrest
      refine hrest.imp_right fun happends' r' hr' => ?_
      have happended' := happends' r' hr'
      exact ⟨happended.toAppended.trans happended'.toAppended, happended'.ordered,
        List.Subset.trans happended'.closed happended.closed⟩
    rw [List.foldlM_cons]
    constructor
    · refine (haffords.bind fun r hr => (hstep r hr).1).mono ?_
      rw [List.flatMap_cons, List.length_append, List.length_cons]
      simp only [fullClusters]
      omega
    · intro r' hr'
      obtain ⟨r, hr, hr'⟩ := bind_user_eq_ok hr'
      exact (hstep r hr).2 r' hr'

/-- `cat` leaves the contents of its files on an empty file, or the kernel panics without pages
for them. Without arguments it prints a message. -/
theorem cat_concatenates (h : s.tables.kernel.RamKernel ramFiles)
    (ho : Ordered (s.tables.filesLh m.address)) (hroom : m.Room s.tables 1)
    (hpaths : List.Forall₂ s.tables.kernel.PathOf paths files) (hg : g ∈ ramFiles)
    (hfiles : ∀ f ∈ files, f ∈ ramFiles ∧ f ≠ g ∧
      (s.tables.kernel.fs.image f).content.length < passes)
    (hempty : (s.tables.kernel.fs.image g).content = []) (hout : m.At s.tables 1 g 0)
    (herr : paths = [] → m.ClosedOrDevice s.tables 2) (name : List U8) :
    (Cat.main m passes (name :: paths) s = .error (.crash outOfMemory) ∧
        s.tables.kernel.freePages < fullClusters
          (files.flatMap fun f => (s.tables.kernel.fs.image f).content).length + paths.length) ∨
      ∃ s', Cat.main m passes (name :: paths) s =
          .error (.exited (if paths = [] then 1 else 0) s') ∧
        (s'.tables.kernel.fs.image g).content =
          files.flatMap fun f => (s.tables.kernel.fs.image f).content := by
  by_cases hnil : paths = []
  · subst hnil
    cases hpaths
    obtain ⟨s', hfail, hfs⟩ := Process.fail_device (herr rfl)
      (ascii "cat: expected a filepath argument\n")
    refine .inr ⟨s', hfail, ?_⟩
    rw [hfs, hempty]
    rfl
  · have hargs : ¬(name :: paths).length < 2 := by
      rw [List.length_cons]
      have hpos := List.length_pos_of_ne_nil hnil
      omega
    have hout : m.At s.tables 1 g (s.tables.kernel.fs.image g).content.length := by
      rw [hempty]
      exact hout
    obtain ⟨haffords, happends⟩ :=
      copyFiles_append hpaths h ho hroom hg hfiles hout m.stack
    have hzero : fullClusters 0 = 0 := rfl
    rw [hempty, List.length_nil, Nat.zero_add, hzero, Nat.sub_zero] at haffords
    rw [Cat.main, if_neg hargs, List.tail_cons, if_neg hnil]
    rcases haffords with ⟨r, hrun, -⟩ | ⟨hrun, hleft⟩
    · have hcontent := (happends r hrun).content
      rw [hempty, List.nil_append] at hcontent
      refine .inr ⟨r.2, ?_, hcontent⟩
      rw [hrun]
      rfl
    · refine .inl ⟨?_, hleft⟩
      rw [hrun]
      rfl

end

open FsKernel

theorem cat_concatenates_one : ∃ (s s' : Process) (g : U64),
    plainTask.At s.tables 1 g 0 ∧ (s.tables.kernel.fs.image g).content = [] ∧
      Cat.main plainTask 2 [[0x63], [0x61]] s = .error (.exited 0 s') ∧
      (s'.tables.kernel.fs.image g).content = [0x68] := by
  obtain ⟨k, f, g, hk, ha, -, hf, hg, hleft⟩ := exists_two_files (a := [0x68]) (b := [])
    (by decide) (by decide)
  have hne : f ≠ g := by
    rintro rfl
    exact absurd (hf.symm.trans hg) (by decide)
  have hfile : ∀ x ∈ [f], x ∈ [f, g] ∧ x ≠ g ∧ (k.fs.image x).content.length < 2 := by
    intro x hx
    rw [List.mem_singleton.mp hx, hf]
    exact ⟨List.mem_cons_self, hne, by decide⟩
  have hcat := @cat_concatenates plainTask (withOutput k 0 g) [f, g] g 2 [[0x61]] [f]
    hk.toRamKernel (List.pairwise_singleton _ _) (room_withOutput k 0 g) (.cons ha .nil)
    (List.mem_cons_of_mem _ (List.mem_singleton_self g)) hfile hg (at_withOutput k 0 g)
    (fun hh => absurd hh (by decide)) [0x63]
  have hcontent : ([f].flatMap fun x => (k.fs.image x).content) = [0x68] := by
    rw [List.flatMap_singleton, hf]
  change (_ ∧ k.freePages < fullClusters ([f].flatMap fun x => (k.fs.image x).content).length + 1) ∨
    ∃ s', _ ∧ _ = [f].flatMap fun x => (k.fs.image x).content at hcat
  rw [hcontent] at hcat
  have hcost : ¬k.freePages < fullClusters [(0x68 : U8)].length + 1 := by
    have hone : fullClusters [(0x68 : U8)].length = 1 := rfl
    omega
  obtain ⟨s', hrun, hcontent⟩ := hcat.resolve_left fun hh => hcost hh.2
  exact ⟨withOutput k 0 g, s', g, at_withOutput k 0 g, hg, hrun, hcontent⟩

/-- What stops a run that crashes. -/
def crashOf {α : Type} : Except UserStop α → Option Crash
  | .error (.crash e) => some e
  | _ => none

theorem crashOf_eq_some {α : Type} {run : Except UserStop α} {e : Crash} :
    crashOf run = some e ↔ run = .error (.crash e) := by
  constructor
  · intro h
    rw [crashOf.eq_def] at h
    split at h
    · cases h
      rfl
    · cases h
  · rintro rfl
    rfl

/-- `cat a` with the output on `b`, after `a` has taken the last page for its 28 clusters. -/
def tightCat : Except Crash (Option Crash) := do
  let k := (bootOf 5 (by decide)).kernel
  let (f, k) ← k.vfsCreate k.vfsRootInode [0x61]
  let content : List U8 := List.replicate 3584 0x61
  let (_, fs) ← ramfsWrite k.fs ⟨f, 0⟩ (content.getD · 0) (BitVec.ofNat 64 content.length)
  let (g, k) ← { k with fs }.vfsCreate k.vfsRootInode [0x62]
  let (address, k) ← k.fileAlloc
  .ok (crashOf (Cat.main plainTask 3585 [[0x63], [0x61]] (withOutput k address g)))

theorem tightCat_crashes : tightCat = .ok (some outOfMemory) := by decide +kernel

/-- A copy of a file that takes more than the memory that is left. -/
theorem cat_panics : ∃ (s : Process) (f g : U64), s.tables.kernel.RamKernel [f, g] ∧
    s.tables.kernel.PathOf [0x61] f ∧ f ≠ g ∧
    (s.tables.kernel.fs.image f).content.length < 3585 ∧
    (s.tables.kernel.fs.image g).content = [] ∧ plainTask.At s.tables 1 g 0 ∧
    Cat.main plainTask 3585 [[0x63], [0x61]] s = .error (.crash outOfMemory) := by
  have hrun := tightCat_crashes
  obtain ⟨⟨f, k₁⟩, hc₁, hrun⟩ := bind_eq_ok hrun
  obtain ⟨⟨n, fs⟩, hwrite, hrun⟩ := bind_eq_ok hrun
  obtain ⟨⟨g, k₂⟩, hc₂, hrun⟩ := bind_eq_ok hrun
  obtain ⟨⟨address, k₃⟩, halloc, hrun⟩ := bind_eq_ok hrun
  have hlength : (List.replicate 3584 (0x61 : U8)).length = 3584 := List.length_replicate
  have hempty : ∀ w, (bootOf 5 (by decide)).kernel.locate [w] = none := fun _ => rfl
  obtain ⟨h₁, hadded₁, -, hf⟩ := (bootOf 5 (by decide)).ramRoot.fill (hempty [0x61]) (by decide)
    (by rw [hlength]; decide) hc₁ hwrite
  obtain ⟨h₂, hadded₂, himages, hg⟩ := h₁.fill
    (locate_none_of_added hadded₁ (hempty [0x62]) (by decide)) (by decide)
    (show ([] : List U8).length < 2 ^ 33 by decide) hc₂ rfl
  obtain ⟨h₃, htree, himages', -⟩ := h₂.toRamKernel.fileAlloc halloc
  obtain ⟨hpath, -⟩ :=
    paths_of_added hadded₁ hadded₂ (by decide) (by decide) (by decide) (by decide)
  have hcontent : (k₃.fs.image f).content = List.replicate 3584 0x61 := by
    rw [himages', himages f (List.mem_singleton_self f)]
    exact hf
  have hout : (k₃.fs.image g).content = [] := by
    rw [himages']
    exact hg
  refine ⟨withOutput k₃ address g, f, g, h₃, hpath.kept htree, ?_, ?_, hout,
    at_withOutput k₃ address g, crashOf_eq_some.mp (Except.ok.inj hrun)⟩
  · rintro rfl
    have hlengths := congrArg List.length (hcontent.symm.trans hout)
    rw [hlength] at hlengths
    cases hlengths
  · change (k₃.fs.image f).content.length < 3585
    rw [hcontent, hlength]
    decide

end Persistos
