import Persistos.ShellEditor
import Persistos.UserBoot

/-! The script loop of the shell: `main` with an argument. It reads up to 400 bytes, executes
the first line of them and seeks back to the next one. -/

namespace Persistos

open Theory

/-- `exec_shell_line`, with the buffer that it is given and the length of the line. -/
abbrev ExecShellLine := (Nat → U8) → U64 → Process → Except UserStop (U64 × Process)

namespace ShellScript

variable (m : UserTask) (execShellLine : ExecShellLine)

def scriptBufferLength : Nat := 400

/-- One pass of the loop, from `file_offset` to its next value. -/
def pass (fd fileOffset : U64) (s : Process) : Except UserStop (U64 × Process) := do
  let (bytesRead, scriptBuffer, s) ← s.read m fd (fun _ => 0) 400
  if isError bytesRead then s.exit 1
  else
    let fileOffset := fileOffset + bytesRead
    if bytesRead = 0 then s.exit 0
    else
      let line := slice scriptBuffer 0 (min scriptBufferLength bytesRead.toInt.toNat)
      match line.findIdx? (· = newline) with
      | none => s.fail m [ascii "shell: incomplete line\n"]
      | some lineLength => do
        let (childExitCode, after) ← execShellLine scriptBuffer (BitVec.ofNat 64 lineLength) s
        let s := { after with
          executed := s.executed ++ [(slice scriptBuffer 0 lineLength, childExitCode)] }
        if childExitCode ≠ 0 then s.exit (childExitCode.setWidth 8)
        else
          let rewindBytes := bytesRead - (BitVec.ofNat 64 lineLength + 1)
          let newOffset := fileOffset - rewindBytes
          let (_, s) := s.lseek m fd newOffset 0
          .ok (newOffset, s)

/-- The loop, up to a number of passes. -/
def passes (fd : U64) : Nat → U64 → Process → Except UserStop (U64 × Process)
  | 0, fileOffset, s => .ok (fileOffset, s)
  | n + 1, fileOffset, s => do
    let (fileOffset, s) ← pass m execShellLine fd fileOffset s
    passes fd n fileOffset s

def main (n : Nat) (path : List U8) (s : Process) : Except UserStop (U64 × Process) := do
  let (fd, s) ← s.openFile m path 0
  if isError fd then s.fail m [ascii "shell: could not open script\n"]
  else passes m execShellLine fd n 0 s

end ShellScript

/-- The file at `f` has the content, and `fd` is at the position `p` of it. -/
def UserTask.Script (m : UserTask) (s : FileTables FsKernel) (fd f : U64) (content : List U8)
    (p : Nat) : Prop :=
  ∃ ramFiles, s.kernel.RamKernel ramFiles ∧ f ∈ ramFiles ∧
    (s.kernel.fs.image f).content = content ∧ m.At s fd f p

/-- Every call returns a status up to 255 and touches neither the script nor its descriptor. -/
def LeavesScript (m : UserTask) (execShellLine : ExecShellLine) (fd f : U64)
    (content : List U8) : Prop :=
  ∀ (buffer : Nat → U8) (length : U64) (s : Process) (p : Nat),
    m.Script s.tables fd f content p → ∃ status s', execShellLine buffer length s = .ok (status, s') ∧
      status.toNat ≤ 255 ∧ m.Script s'.tables fd f content p

/-- The lines that are executed, with their statuses, and the code at the end. -/
inductive RunsLines : List (List U8) → List (List U8 × U64) → U8 → Prop
  | done : RunsLines [] [] 0
  | stop {line : List U8} {rest : List (List U8)} {status : U64} {exitCode : U8} :
    status ≠ 0 → exitCode.toNat = status.toNat → RunsLines (line :: rest) [(line, status)] exitCode
  | next {line : List U8} {rest : List (List U8)} {executed : List (List U8 × U64)}
    {exitCode : U8} :
    RunsLines rest executed exitCode → RunsLines (line :: rest) ((line, 0) :: executed) exitCode

section

variable {m : UserTask} {execShellLine : ExecShellLine} {s : Process} {fd f fileOffset : U64}
  {content line rest : List U8} {lines : List (List U8)} {p : Nat}

theorem findIdx?_newline {more : List U8} (h : newline ∉ line) :
    (line ++ newline :: more).findIdx? (· = newline) = some line.length := by
  induction line with
  | nil => simp [List.findIdx?_cons]
  | cons c line ih =>
    have hc : c ≠ newline := fun hh => h (hh ▸ List.mem_cons_self)
    have hline : newline ∉ line := fun hh => h (List.mem_cons_of_mem _ hh)
    simp [List.findIdx?_cons, hc, ih hline]

/-- A pass at the end of the script. -/
theorem pass_end (h : m.Script s.tables fd f content p) (hp : p = content.length) :
    ∃ s', ShellScript.pass m execShellLine fd fileOffset s = .error (.exited 0 s') ∧
      s'.executed = s.executed := by
  obtain ⟨ramFiles, hkernel, hf, rfl, hat⟩ := h
  obtain ⟨buffer, s₁, hread, -, -, hexecuted⟩ := Process.read_ram hkernel hf hat hp.le (fun _ => 0)
    (show (400 : U64).toNat ≤ 2 ^ 32 by decide)
  have hcount : UserTask.toRead s.tables f p (400 : U64).toNat = 0 := by
    rw [UserTask.toRead, hp, Nat.sub_self, Nat.min_zero]
  rw [hcount] at hread
  refine ⟨s₁, ?_, hexecuted⟩
  rw [ShellScript.pass, hread]
  rfl

/-- A pass executes the next line. If the pass does not end the shell, the descriptor is behind
the line's newline. -/
theorem pass_line (h : m.Script s.tables fd f content p)
    (hexec : LeavesScript m execShellLine fd f content)
    (hnext : content.drop p = line ++ newline :: rest) (hlength : line.length ≤ 399)
    (hline : newline ∉ line) (hoffset : fileOffset.toNat = p) :
    ∃ status s', status.toNat ≤ 255 ∧ s'.executed = s.executed ++ [(line, status)] ∧
      (status ≠ 0 ∧
          ShellScript.pass m execShellLine fd fileOffset s =
            .error (.exited (status.setWidth 8) s') ∨
        status = 0 ∧ ∃ offset', ShellScript.pass m execShellLine fd fileOffset s =
            .ok (offset', s') ∧ offset'.toNat = p + (line.length + 1) ∧
          m.Script s'.tables fd f content (p + (line.length + 1))) := by
  obtain ⟨ramFiles, hkernel, hf, hcontent, hat⟩ := h
  have hdrop := congrArg List.length hnext
  rw [List.length_drop, List.length_append, List.length_cons] at hdrop
  have hsize := hkernel.size_le hf
  rw [← Image.content_length, hcontent] at hsize
  obtain ⟨buffer, s₁, hread, hhas, -, hexecuted⟩ := Process.read_ram hkernel hf hat
    (by rw [hcontent]; omega) (fun _ => 0) (show (400 : U64).toNat ≤ 2 ^ 32 by decide)
  have h400 : (400 : U64).toNat = 400 := rfl
  rw [UserTask.toRead, h400, hcontent] at hread hhas
  have hbytes := hhas.bytes
  rw [hcontent, hnext] at hbytes
  have hscript₁ : m.Script s₁.tables fd f content
      (p + min 400 (content.length - p)) :=
    ⟨ramFiles, hhas.kernel ▸ hkernel, hf, hhas.kernel ▸ hcontent, hhas.position⟩
  generalize hn : min 400 (content.length - p) = n at hread hbytes hscript₁
  obtain ⟨status, after, hcall, hstatus, hscript₂⟩ :=
    hexec buffer (BitVec.ofNat 64 line.length) s₁ _ hscript₁
  obtain ⟨ramFiles', hkernel₂, hf₂, hcontent₂, hat₂⟩ := hscript₂
  have hnat : (BitVec.ofNat 64 n).toNat = n := by
    rw [BitVec.toNat_ofNat]
    omega
  have hint : (BitVec.ofNat 64 n).toInt.toNat = n := by
    rw [BitVec.toInt_eq_toNat_of_lt (by omega), hnat, Int.toNat_natCast]
  have hok : isError (BitVec.ofNat 64 n) = false := isError_of_lt (by omega)
  have hzero : BitVec.ofNat 64 n ≠ 0 := by
    intro hh
    have hh := congrArg BitVec.toNat hh
    rw [hnat] at hh
    change n = 0 at hh
    omega
  have hmin : min ShellScript.scriptBufferLength n = n := Nat.min_eq_right (by
    rw [ShellScript.scriptBufferLength]
    omega)
  have hfind : (slice buffer 0 n).findIdx? (· = newline) = some line.length := by
    have hsplit : (line ++ newline :: rest).take n =
        line ++ newline :: rest.take (n - line.length - 1) := by
      rw [List.take_append, List.take_of_length_le (by omega),
        show n - line.length = n - line.length - 1 + 1 by omega, List.take_succ_cons]
      rfl
    rw [hbytes, hsplit, findIdx?_newline hline]
  have hslice : slice buffer 0 line.length = line := by
    rw [← slice_take buffer 0 (show line.length ≤ n by omega), hbytes, List.take_take,
      Nat.min_eq_left (by omega), List.take_left]
  let s₂ : Process := { after with executed := s₁.executed ++ [(line, status)] }
  have hpass : ShellScript.pass m execShellLine fd fileOffset s =
      if status ≠ 0 then s₂.exit (status.setWidth 8)
      else
        let newOffset := fileOffset + BitVec.ofNat 64 n -
          (BitVec.ofNat 64 n - (BitVec.ofNat 64 line.length + 1))
        let (_, s) := s₂.lseek m fd newOffset 0
        .ok (newOffset, s) := by
    rw [ShellScript.pass, hread, ok_bind_user]
    dsimp only
    rw [hok, if_neg Bool.false_ne_true, if_neg hzero, hint, hmin, hfind]
    dsimp only
    rw [hcall, ok_bind_user, hslice]
  by_cases hzeroStatus : status = 0
  · have hmoved : fileOffset + BitVec.ofNat 64 n -
        (BitVec.ofNat 64 n - (BitVec.ofNat 64 line.length + 1)) =
          fileOffset + BitVec.ofNat 64 (line.length + 1) := by
      rw [BitVec.ofNat_add]
      bv_omega
    have htoNat : (fileOffset + BitVec.ofNat 64 (line.length + 1)).toNat =
        p + (line.length + 1) := by
      rw [BitVec.toNat_add, BitVec.toNat_ofNat, hoffset]
      omega
    rw [hmoved, if_neg (not_not_intro hzeroStatus)] at hpass
    obtain ⟨tables, hseek, -, hkernel₃, hat₃⟩ := UserTask.sysLseek_ok hat₂
      (fileOffset + BitVec.ofNat 64 (line.length + 1))
    rw [htoNat] at hat₃
    refine ⟨status, { s₂ with tables }, hstatus, ?_, .inr ⟨hzeroStatus, _, ?_, htoNat, ?_⟩⟩
    · change s₁.executed ++ _ = _
      rw [hexecuted]
    · rw [hpass]
      dsimp only
      rw [Process.lseek, hseek]
    · exact ⟨ramFiles', hkernel₃ ▸ hkernel₂, hf₂, hkernel₃ ▸ hcontent₂, hat₃⟩
  · refine ⟨status, s₂, hstatus, ?_, .inl ⟨hzeroStatus, ?_⟩⟩
    · change s₁.executed ++ _ = _
      rw [hexecuted]
    · rw [hpass, if_pos hzeroStatus]
      rfl

/-- The passes over the rest of the script. -/
theorem passes_run (hlines : ∀ line ∈ lines, line.length ≤ 399 ∧ newline ∉ line)
    (hexec : LeavesScript m execShellLine fd f content) {n : Nat} (hn : lines.length < n)
    (h : m.Script s.tables fd f content p) (hp : p ≤ content.length)
    (hrest : content.drop p = lines.flatMap (· ++ [newline])) (hoffset : fileOffset.toNat = p) :
    ∃ s' exitCode executed, ShellScript.passes m execShellLine fd n fileOffset s =
        .error (.exited exitCode s') ∧
      s'.executed = s.executed ++ executed ∧ RunsLines lines executed exitCode := by
  obtain ⟨n, rfl⟩ := Nat.exists_eq_add_one_of_ne_zero (Nat.ne_zero_of_lt hn)
  induction lines generalizing n p fileOffset s with
  | nil =>
    have hend : p = content.length := by
      have hlength := congrArg List.length hrest
      simp at hlength
      omega
    obtain ⟨s', hpass, hexecuted⟩ := @pass_end m execShellLine s fd f fileOffset content p h hend
    refine ⟨s', 0, [], ?_, ?_, .done⟩
    · rw [ShellScript.passes, hpass]
      rfl
    · rw [hexecuted, List.append_nil]
  | cons line lines ih =>
    rw [List.flatMap_cons, List.append_assoc, List.singleton_append] at hrest
    obtain ⟨hlength, hline⟩ := hlines line List.mem_cons_self
    obtain ⟨status, s₁, hstatus, hexecuted, hends⟩ :=
      pass_line h hexec hrest hlength hline hoffset
    rcases hends with ⟨hne, hpass⟩ | ⟨rfl, offset', hpass, hoffset', hscript⟩
    · refine ⟨s₁, status.setWidth 8, [(line, status)], ?_, hexecuted, .stop hne ?_⟩
      · rw [ShellScript.passes, hpass]
        rfl
      · rw [BitVec.toNat_setWidth]
        omega
    · have hdrop : content.drop (p + (line.length + 1)) = lines.flatMap (· ++ [newline]) := by
        rw [← List.drop_drop, hrest, ← List.singleton_append, ← List.append_assoc]
        exact List.drop_left' (by simp)
      have hbound : p + (line.length + 1) ≤ content.length := by
        have hlength := congrArg List.length hrest
        simp at hlength
        omega
      obtain ⟨n, rfl⟩ := Nat.exists_eq_add_one_of_ne_zero (show n ≠ 0 by
        rw [List.length_cons] at hn
        omega)
      obtain ⟨s', exitCode, executed, hpasses, hexecuted', hruns⟩ :=
        ih (fun l hl => hlines l (List.mem_cons_of_mem _ hl)) hscript hbound hdrop hoffset' n
          (by rw [List.length_cons] at hn; omega)
      refine ⟨s', exitCode, (line, 0) :: executed, ?_, ?_, .next hruns⟩
      · rw [ShellScript.passes, hpass]
        exact hpasses
      · rw [hexecuted', hexecuted, List.append_assoc]
        rfl

variable {ramFiles : List U64} {path : List U8}

/-- A script is run line by line, up to the first line that fails. The loop is not reached only
if OPEN panics, without a page for the open file. -/
theorem script_runs_lines (h : s.tables.kernel.RamKernel ramFiles)
    (ho : Ordered (s.tables.filesLh m.address)) (hroom : m.Room s.tables 1)
    (hpath : s.tables.kernel.PathOf path f) (hf : f ∈ ramFiles)
    (hcontent : (s.tables.kernel.fs.image f).content = lines.flatMap (· ++ [newline]))
    (hlines : ∀ line ∈ lines, line.length ≤ 399 ∧ newline ∉ line)
    (hexec : LeavesScript m execShellLine ((nextFd (s.tables.filesLh m.address)).setWidth 64) f
      (lines.flatMap (· ++ [newline]))) {n : Nat} (hn : lines.length < n) :
    (s.openFile m path 0 = .error (.crash outOfMemory) ∧ s.tables.kernel.freePages < 1) ∨
      ∃ s' exitCode executed, ShellScript.main m execShellLine n path s =
          .error (.exited exitCode s') ∧
        s'.executed = s.executed ++ executed ∧ RunsLines lines executed exitCode := by
  rcases Process.openFile_affords h hpath with ⟨⟨fd, s₁⟩, hopen, -⟩ | ⟨hopen, hleft⟩
  · obtain ⟨hopened, -, hexecuted⟩ := Process.openFile_opened h ho hroom hpath hopen
    rw [← hopened.number] at hexec
    have hscript : m.Script s₁.tables fd f (lines.flatMap (· ++ [newline])) 0 :=
      ⟨ramFiles, hopened.kernel, hf, (hopened.images f).symm ▸ hcontent, hopened.position⟩
    have hrun := passes_run hlines hexec hn hscript (Nat.zero_le _) rfl
      (show (0 : U64).toNat = 0 from rfl)
    rw [hexecuted] at hrun
    refine .inr ?_
    rw [ShellScript.main, hopen, ok_bind_user]
    dsimp only
    rw [hopened.notError, if_neg Bool.false_ne_true]
    exact hrun
  · exact .inl ⟨hopen, by omega⟩

end

/-- Two lines, of which the second one fails. -/
theorem script_runs_two_lines : ∃ (s s' : Process) (exitCode : U8)
    (executed : List (List U8 × U64)),
    ShellScript.main plainTask (fun _ _ s => .ok (if s.executed = [] then 0 else 3, s)) 3 [0x61] s =
        .error (.exited exitCode s') ∧
      s'.executed = executed ∧ RunsLines [[0x6c], [0x6d]] executed exitCode := by
  obtain ⟨k, f, g, hk, ha, -, hf, -, hleft⟩ := exists_two_files
    (a := [[0x6c], [0x6d]].flatMap (· ++ [newline])) (b := []) (by decide) (by decide)
  have hrun := @script_runs_lines plainTask
    (fun _ _ s => .ok (if s.executed = [] then 0 else 3, s)) (startOf k) f [[0x6c], [0x6d]] [f, g]
    [0x61] hk.toRamKernel .nil (fun _ hx => absurd hx List.not_mem_nil) ha List.mem_cons_self hf
    (by decide) (fun _ _ s p hs => ⟨_, s, rfl, by split <;> decide, hs⟩) 3 (by decide)
  have hleft : ¬k.freePages < 1 := by omega
  obtain ⟨s', exitCode, executed, hmain, hexecuted, hruns⟩ := hrun.resolve_left fun hh => hleft hh.2
  exact ⟨startOf k, s', exitCode, executed, hmain, hexecuted, hruns⟩

end Persistos
