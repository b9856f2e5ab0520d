import Persistos.NvmeAddresses

/-! `nvme_read` and `nvme_write` with a controller that fails some of their page commands.
A command that fails moves nothing, and the driver only prints its status. -/

namespace Persistos

open Theory

/-- A page of a call: the number of its first byte in the call, the bytes moved with it, and
whether a command for it failed. -/
structure PageOutcome where
  start : Nat
  length : Nat
  failed : Bool

structure NvmeCall where
  result : U64
  io : NvmeIo
  pages : List PageOutcome

namespace NvmeDevice

variable (dev : NvmeDevice)

/-- What a command moves that the controller carries out. -/
def transfer (e : NvmeSqEntry) (s : NvmeIo) : NvmeIo :=
  let start := e.slba * 2 ^ dev.lbadsExponent.toNat
  let bytes := e.blocks * 2 ^ dev.lbadsExponent.toNat
  if e.command.setWidth 8 = (1 : U8) then { s with disk := overlay s.disk start bytes s.tempPage }
  else if e.command.setWidth 8 = (2 : U8) then
    { s with tempPage := overlay s.tempPage 0 bytes fun i => s.disk (start + i) }
  else s

def tryReadpage (failed : Bool) (commandId : U16) (resultPagePhys : U64) (lba : U32)
    (s : NvmeIo) : NvmeIo :=
  if failed then s
  else dev.transfer ((⟨2, commandId, resultPagePhys, lba⟩ : PageCommand).entry dev.lbadsExponent) s

def tryWritepage (failed : Bool) (commandId : U16) (contentPagePhys : U64) (lba : U32)
    (s : NvmeIo) : NvmeIo :=
  if failed then s
  else dev.transfer ((⟨1, commandId, contentPagePhys, lba⟩ : PageCommand).entry dev.lbadsExponent) s

/-- The loop of `nvme_read`, where `fails` says of each of its commands whether it fails. -/
def tryReadFrom (fails : Nat → Bool) (commandId : Nat → U16)
    (tempPagePhys length offset bytesRead : U64) (s : NvmeIo) : NvmeCall :=
  if bytesRead < length then
    let bytesRemaining := length - bytesRead
    let lba := dev.lbaOf offset
    let s := dev.tryReadpage (fails 0) (commandId 0) tempPagePhys lba s
    let chunkPageOffset := offset % 4096
    let n := chunkLength offset bytesRemaining
    let s := { s with
      buffer := overlay s.buffer bytesRead.toNat n.toNat
        fun i => s.tempPage (chunkPageOffset.toNat + i) }
    let rest := tryReadFrom (fun k => fails (k + 1)) (fun k => commandId (k + 1)) tempPagePhys
      length (offset + n) (bytesRead + n) s
    { rest with pages := ⟨bytesRead.toNat, n.toNat, fails 0⟩ :: rest.pages }
  else ⟨bytesRead, s, []⟩
termination_by length.toNat - bytesRead.toNat
decreasing_by exact (done_next offset ‹_›).2

/-- The loop of `nvme_write`, where the commands of a page are a read and a write. -/
def tryWriteFrom (fails : Nat → Bool) (commandId : Nat → U16)
    (tempPagePhys length offset bytesWritten : U64) (s : NvmeIo) : NvmeCall :=
  if bytesWritten < length then
    let bytesRemaining := length - bytesWritten
    let lba := dev.lbaOf offset
    let s := dev.tryReadpage (fails 0) (commandId 0) tempPagePhys lba s
    let chunkPageOffset := offset % 4096
    let n := chunkLength offset bytesRemaining
    let s := { s with
      tempPage := overlay s.tempPage chunkPageOffset.toNat n.toNat
        fun i => s.buffer (bytesWritten.toNat + i) }
    let s := dev.tryWritepage (fails 1) (commandId 1) tempPagePhys lba s
    let rest := tryWriteFrom (fun k => fails (k + 2)) (fun k => commandId (k + 2)) tempPagePhys
      length (offset + n) (bytesWritten + n) s
    { rest with pages := ⟨bytesWritten.toNat, n.toNat, fails 0 || fails 1⟩ :: rest.pages }
  else ⟨bytesWritten, s, []⟩
termination_by length.toNat - bytesWritten.toNat
decreasing_by exact (done_next offset ‹_›).2

def tryRead (fails : Nat → Bool) (commandId : Nat → U16) (tempPagePhys offset length : U64)
    (s : NvmeIo) : NvmeCall :=
  dev.tryReadFrom fails commandId tempPagePhys (dev.readLength offset length) offset 0 s

def tryWrite (fails : Nat → Bool) (commandId : Nat → U16) (tempPagePhys offset length : U64)
    (s : NvmeIo) : NvmeCall :=
  dev.tryWriteFrom fails commandId tempPagePhys (dev.writeLength offset length) offset 0 s

end NvmeDevice

/-- No byte of a page counts as moved for which a command failed. -/
def NvmeCall.Honest (call : NvmeCall) : Prop :=
  ∀ p ∈ call.pages, p.failed = true → call.result.toNat ≤ p.start

/-- Errors of a write are not reported as success, and spare the bytes around the request. -/
def NvmeCall.WriteHonest (call : NvmeCall) (before : NvmeIo) (offset length : U64) : Prop :=
  (∃ p ∈ call.pages, p.failed = true) →
    (∀ i, i < offset.toNat ∨ offset.toNat + length.toNat ≤ i →
      call.io.disk i = before.disk i) ∧ call.Honest

/-- The number of pages that `n` bytes from `offset` on lie in. -/
def pageCount (offset n : Nat) : Nat := if n = 0 then 0 else (offset % 4096 + n + 4095) / 4096

/-- The pages of a call with `n` bytes left, with the failures of the commands of each. -/
structure PagesOf (length offset done : U64) (fails : Nat → Bool) (call : NvmeCall) : Prop where
  result : call.result = length
  failed : call.pages.map PageOutcome.failed =
    (List.range (pageCount offset.toNat (length.toNat - done.toNat))).map fails
  starts : ∀ p ∈ call.pages, p.start < length.toNat

section

variable {length offset done : U64} {fails : Nat → Bool} {call : NvmeCall}

theorem pageCount_next (offset : U64) (hlt : done < length) :
    pageCount offset.toNat (length.toNat - done.toNat) =
      pageCount (offset + chunkLength offset (length - done)).toNat
        (length.toNat - (done + chunkLength offset (length - done)).toNat) + 1 := by
  have hn := chunkLength_toNat offset (length - done)
  have hleft : (length - done).toNat = length.toNat - done.toNat := by bv_omega
  have hlt' : done.toNat < length.toNat := hlt
  have hlength := length.isLt
  rw [BitVec.toNat_add, BitVec.toNat_add, hn, hleft]
  simp only [pageCount]
  split_ifs <;> omega

theorem PagesOf.stopped (hd : done.toNat ≤ length.toNat) (hlt : ¬done < length) (s : NvmeIo) :
    PagesOf length offset done fails ⟨done, s, []⟩ := by
  obtain rfl := NvmeDevice.eq_of_not_lt hd hlt
  refine ⟨rfl, ?_, ?_⟩
  · rw [Nat.sub_self]
    rfl
  · intro p hp
    cases hp

theorem PagesOf.cons {p : PageOutcome} (hlt : done < length) (hstart : p.start = done.toNat)
    (hfailed : p.failed = fails 0)
    (h : PagesOf length (offset + chunkLength offset (length - done))
      (done + chunkLength offset (length - done)) (fun k => fails (k + 1)) call) :
    PagesOf length offset done fails { call with pages := p :: call.pages } := by
  refine ⟨h.result, ?_, ?_⟩
  · rw [List.map_cons, h.failed, pageCount_next offset hlt, List.range_succ_eq_map, List.map_cons,
      List.map_map, hfailed]
    rfl
  · intro q hq
    rcases List.mem_cons.mp hq with rfl | hq
    · rw [hstart]
      exact hlt
    · exact h.starts q hq

theorem PagesOf.all_iff (h : PagesOf length offset done fails call) :
    (∀ p ∈ call.pages, p.failed = false) ↔
      ∀ k < pageCount offset.toNat (length.toNat - done.toNat), fails k = false := by
  have hfailed := h.failed
  generalize pageCount offset.toNat (length.toNat - done.toNat) = n at hfailed ⊢
  constructor
  · intro hp k hk
    have hmem : fails k ∈ call.pages.map PageOutcome.failed := by
      rw [hfailed]
      exact List.mem_map_of_mem (List.mem_range.mpr hk)
    obtain ⟨p, hmem, heq⟩ := List.mem_map.mp hmem
    rw [← heq]
    exact hp p hmem
  · intro hk p hp
    have hmem : p.failed ∈ (List.range n).map fails := by
      rw [← hfailed]
      exact List.mem_map_of_mem hp
    obtain ⟨k, hlt, heq⟩ := List.mem_map.mp hmem
    rw [← heq]
    exact hk k (List.mem_range.mp hlt)

/-- The result counts the bytes of every page, so none may have failed. -/
theorem PagesOf.honest_iff (h : PagesOf length offset done fails call) :
    call.Honest ↔ ∀ p ∈ call.pages, p.failed = false := by
  constructor
  · intro hh p hp
    have hstart := h.starts p hp
    rw [← h.result] at hstart
    by_contra hne
    have hle := hh p hp (eq_true_of_ne_false hne)
    omega
  · intro hall p hp hfailed
    rw [hall p hp] at hfailed
    cases hfailed

theorem PagesOf.writeHonest_iff (h : PagesOf length offset done fails call) (before : NvmeIo)
    (first n : U64) : call.WriteHonest before first n ↔ ∀ p ∈ call.pages, p.failed = false := by
  constructor
  · intro hh p hp
    by_contra hne
    have hfailed := eq_true_of_ne_false hne
    have hall := h.honest_iff.mp (hh ⟨p, hp, hfailed⟩).2 p hp
    exact hne hall
  · rintro hall ⟨p, hp, hfailed⟩
    rw [hall p hp] at hfailed
    cases hfailed

end

namespace NvmeDevice

variable {dev : NvmeDevice} {length offset done : U64}

theorem tryReadFrom_pages (fails : Nat → Bool) (commandId : Nat → U16) (phys : U64) (s : NvmeIo)
    (hd : done.toNat ≤ length.toNat) :
    PagesOf length offset done fails
      (dev.tryReadFrom fails commandId phys length offset done s) := by
  induction hm : length.toNat - done.toNat using Nat.strongRecOn generalizing
    fails commandId offset done s with
  | ind m ih =>
    rw [tryReadFrom]
    split
    · next hlt =>
      obtain ⟨hnext, hless⟩ := done_next offset hlt
      exact .cons hlt rfl rfl (ih _ (hm ▸ hless) _ _ _ hnext rfl)
    · next hlt => exact .stopped hd hlt s

theorem tryWriteFrom_pages (fails : Nat → Bool) (commandId : Nat → U16) (phys : U64) (s : NvmeIo)
    (hd : done.toNat ≤ length.toNat) :
    PagesOf length offset done (fun k => fails (2 * k) || fails (2 * k + 1))
      (dev.tryWriteFrom fails commandId phys length offset done s) := by
  induction hm : length.toNat - done.toNat using Nat.strongRecOn generalizing
    fails commandId offset done s with
  | ind m ih =>
    rw [tryWriteFrom]
    split
    · next hlt =>
      obtain ⟨hnext, hless⟩ := done_next offset hlt
      refine .cons hlt rfl rfl ?_
      exact ih _ (hm ▸ hless) (fun k => fails (k + 2)) (fun k => commandId (k + 2)) _ hnext rfl
    · next hlt => exact .stopped hd hlt s

theorem tryRead_honest_iff (fails : Nat → Bool) (commandId : Nat → U16) (phys : U64)
    (offset length : U64) (s : NvmeIo) :
    (dev.tryRead fails commandId phys offset length s).Honest ↔
      ∀ k < pageCount offset.toNat (dev.readLength offset length).toNat, fails k = false := by
  have hpages : PagesOf (dev.readLength offset length) offset 0 fails
      (dev.tryRead fails commandId phys offset length s) :=
    tryReadFrom_pages fails commandId phys s (Nat.zero_le _)
  exact hpages.honest_iff.trans hpages.all_iff

theorem tryWrite_honest_iff (fails : Nat → Bool) (commandId : Nat → U16) (phys : U64)
    (offset length : U64) (s : NvmeIo) :
    (dev.tryWrite fails commandId phys offset length s).WriteHonest s offset length ↔
      ∀ k < pageCount offset.toNat (dev.writeLength offset length).toNat,
        fails (2 * k) = false ∧ fails (2 * k + 1) = false := by
  have hpages : PagesOf (dev.writeLength offset length) offset 0
      (fun k => fails (2 * k) || fails (2 * k + 1))
      (dev.tryWrite fails commandId phys offset length s) :=
    tryWriteFrom_pages fails commandId phys s (Nat.zero_le _)
  refine (hpages.writeHonest_iff s offset length).trans (hpages.all_iff.trans ?_)
  simp only [Bool.or_eq_false_iff]
  exact Iff.rfl

theorem execute_inside {e : NvmeSqEntry} (h : e.slba + e.blocks ≤ dev.lbaCount.toNat)
    (s : NvmeIo) : dev.execute e s = dev.transfer e s := by
  rw [execute, if_pos h]
  rfl

theorem WholePages.tryReadpage_eq (h : dev.WholePages) (ho : offset.toNat < dev.capacity)
    (commandId : U16) (phys : U64) (s : NvmeIo) :
    dev.tryReadpage false commandId phys (dev.lbaOf offset) s =
      dev.nvmeReadpage commandId phys (dev.lbaOf offset) s :=
  (execute_inside (h.command_inside ho rfl) s).symm

theorem WholePages.tryWritepage_eq (h : dev.WholePages) (ho : offset.toNat < dev.capacity)
    (commandId : U16) (phys : U64) (s : NvmeIo) :
    dev.tryWritepage false commandId phys (dev.lbaOf offset) s =
      dev.nvmeWritepage commandId phys (dev.lbaOf offset) s :=
  (execute_inside (h.command_inside ho rfl) s).symm

/-- Without failures a call does what it does with a controller that executes its commands. -/
theorem WholePages.tryReadFrom_eq (h : dev.WholePages) (phys : U64) {m : Nat} (fails : Nat → Bool)
    (commandId : Nat → U16) (s : NvmeIo) (hm : length.toNat - done.toNat = m)
    (ho : offset.toNat + m ≤ dev.capacity)
    (hfails : ∀ k < pageCount offset.toNat m, fails k = false) :
    let call := dev.tryReadFrom fails commandId phys length offset done s
    (call.result, call.io) = dev.nvmeReadFrom commandId phys length offset done s := by
  induction m using Nat.strongRecOn generalizing fails commandId offset done s with
  | _ m ih =>
    rw [tryReadFrom, nvmeReadFrom]
    by_cases hlt : done < length
    · have hcount := pageCount_next offset hlt
      obtain ⟨k, hk⟩ := h.pass (hm.symm ▸ ho) hlt
      have hpos := hk.pos
      have hle := hk.le
      have hoffset := hk.nextOffset
      have hdone := hk.nextDone
      rw [hm] at hcount
      have hfirst : fails 0 = false := hfails 0 (by omega)
      rw [if_pos hlt, if_pos hlt, hfirst]
      dsimp only
      rw [h.tryReadpage_eq (by omega)]
      refine ih _ ?_ _ _ _ rfl ?_ ?_
      · omega
      · omega
      · intro j hj
        exact hfails (j + 1) (by omega)
    · rw [if_neg hlt, if_neg hlt]

/-- The bytes around a page survive when it is not written without having been read. -/
theorem WholePages.tryPage_outside (h : dev.WholePages) (ho : offset.toNat < dev.capacity) {k : Nat}
    (hk : Pass offset length done k) {readFails writeFails : Bool}
    (hfails : readFails = true → writeFails = true) (readId writeId : U16) (phys : U64)
    (s : NvmeIo) {i : Nat} (hi : i < offset.toNat ∨ offset.toNat + k ≤ i) :
    let s₁ := dev.tryReadpage readFails readId phys (dev.lbaOf offset) s
    let s₂ := { s₁ with
      tempPage := overlay s₁.tempPage (offset % 4096).toNat k
        fun i => s₁.buffer (done.toNat + i) }
    (dev.tryWritepage writeFails writeId phys (dev.lbaOf offset) s₂).disk i = s.disk i := by
  intro s₁ s₂
  have hmod : (offset % 4096).toNat = offset.toNat % 4096 := BitVec.toNat_umod
  cases writeFails with
  | true =>
    have hdisk : s₁.disk = s.disk := by
      cases readFails with
      | true => rfl
      | false =>
        have hread := h.tryReadpage_eq ho readId phys s
        rw [h.nvmeReadpage_eq ho] at hread
        have hsame := congrArg NvmeIo.disk hread
        exact hsame
    exact congrFun hdisk i
  | false =>
    have hread : readFails = false := by
      cases readFails with
      | true => exact (hfails rfl).symm
      | false => rfl
    subst hread
    have hpage := overlay_page offset.toNat (fun i => s.buffer (done.toNat + i)) s.disk s.tempPage
      hk.inside
    rw [h.tryWritepage_eq ho, h.nvmeWritepage_eq ho]
    dsimp only [s₂, s₁]
    rw [h.tryReadpage_eq ho, h.nvmeReadpage_eq ho, hmod]
    dsimp only
    rw [hpage]
    exact hi.elim overlay_of_lt overlay_of_ge

/-- A write spares the bytes around the request when it fails to write each page that it
failed to read. -/
theorem WholePages.tryWriteFrom_outside (h : dev.WholePages) (phys : U64) {m : Nat}
    (fails : Nat → Bool) (commandId : Nat → U16) (s : NvmeIo)
    (hm : length.toNat - done.toNat = m) (ho : offset.toNat + m ≤ dev.capacity)
    (hfails : ∀ k < pageCount offset.toNat m, fails (2 * k) = true → fails (2 * k + 1) = true)
    {i : Nat} (hi : i < offset.toNat ∨ offset.toNat + m ≤ i) :
    (dev.tryWriteFrom fails commandId phys length offset done s).io.disk i = s.disk i := by
  induction m using Nat.strongRecOn generalizing fails commandId offset done s with
  | _ m ih =>
    rw [tryWriteFrom]
    by_cases hlt : done < length
    · have hcount := pageCount_next offset hlt
      obtain ⟨k, hk⟩ := h.pass (hm.symm ▸ ho) hlt
      have hpos := hk.pos
      have hle := hk.le
      have hoffset := hk.nextOffset
      have hdone := hk.nextDone
      rw [hm] at hcount
      have hin : offset.toNat < dev.capacity := by omega
      have hpage := h.tryPage_outside hin hk (hfails 0 (by omega))
        (commandId 0) (commandId 1) phys s (i := i) (by omega)
      rw [if_pos hlt]
      dsimp only
      rw [hk.chunk] at *
      refine (ih _ ?_ (fun k => fails (k + 2)) _ _ rfl ?_ ?_ ?_).trans hpage
      · omega
      · omega
      · intro j hj
        exact hfails (j + 1) (by omega)
      · omega
    · rw [if_neg hlt]

end NvmeDevice

/-- Device errors show in what a call reports exactly when there are none. -/
theorem nvme_errors_show_iff (dev : NvmeDevice) (fails : Nat → Bool) (commandId : Nat → U16)
    (tempPagePhys offset length : U64) (s : NvmeIo) :
    ((dev.tryRead fails commandId tempPagePhys offset length s).Honest ↔
      ∀ k < pageCount offset.toNat (dev.readLength offset length).toNat, fails k = false) ∧
    ((dev.tryWrite fails commandId tempPagePhys offset length s).WriteHonest s offset length ↔
      ∀ k < pageCount offset.toNat (dev.writeLength offset length).toNat,
        fails (2 * k) = false ∧ fails (2 * k + 1) = false) :=
  ⟨dev.tryRead_honest_iff fails commandId tempPagePhys offset length s,
    dev.tryWrite_honest_iff fails commandId tempPagePhys offset length s⟩

/-- A read of a block whose command fails. -/
theorem nvme_failed_read_reported : ¬ ∀ (dev : NvmeDevice) (fails : Nat → Bool)
    (commandId : Nat → U16) (tempPagePhys offset length : U64) (s : NvmeIo),
    (dev.tryRead fails commandId tempPagePhys offset length s).Honest ∧
      (dev.tryWrite fails commandId tempPagePhys offset length s).WriteHonest s offset length := by
  intro h
  have hread := (h ⟨9, 16⟩ (fun _ => true) (fun _ => 0) 0x5000 0 512
    ⟨fun _ => 0, fun _ => 7, fun _ => 1⟩).1
  rw [NvmeDevice.tryRead_honest_iff] at hread
  have hfirst := hread 0 (by decide)
  cases hfirst

end Persistos
