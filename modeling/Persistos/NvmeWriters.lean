import Persistos.Nvme
import Persistos.Theory.Overlay
import Mathlib.Logic.Relation

/-! Two tasks in `nvme_write` on one device. Each chunk reads a page, changes a part of it
and writes it back, and the other task may run between any two of these. -/

namespace Persistos

open Theory

namespace NvmeDevice

/-- The byte at which the command for `lba` starts. -/
def pageStart (dev : NvmeDevice) (lba : U32) : Nat := lba.toNat * 2 ^ dev.lbadsExponent.toNat

/-- The page that `nvme_readpage` reads. -/
def readPage (dev : NvmeDevice) (disk : Nat → U8) (lba : U32) : Nat → U8 :=
  fun i => disk (dev.pageStart lba + i)

/-- The device after `nvme_writepage`. -/
def writePage (dev : NvmeDevice) (disk : Nat → U8) (lba : U32) (page : Nat → U8) : Nat → U8 :=
  overlay disk (dev.pageStart lba) 4096 page

end NvmeDevice

/-- What a call of `nvme_write` does next. -/
inductive WritePhase where
  | read
  | copy
  | write
  deriving DecidableEq, Repr

/-- A call of `nvme_write` with the chunks that are left to write. -/
structure NvmeWriter where
  buffer : Nat → U8
  left : List NvmeChunk
  bytesWritten : Nat
  phase : WritePhase
  tempPage : Nat → U8

/-- One step of the call, with the device before it and after it. -/
def NvmeWriter.step (dev : NvmeDevice) (w : NvmeWriter) (disk : Nat → U8) :
    Option (NvmeWriter × (Nat → U8)) :=
  match w.left, w.phase with
  | [], _ => none
  | c :: _, .read => some ({ w with phase := .copy, tempPage := dev.readPage disk c.lba }, disk)
  | c :: _, .copy =>
    some ({ w with
      phase := .write
      tempPage := overlay w.tempPage c.pageOffset.toNat c.length.toNat
        fun i => w.buffer (w.bytesWritten + i) }, disk)
  | c :: left, .write =>
    some ({ w with left, bytesWritten := w.bytesWritten + c.length.toNat, phase := .read },
      dev.writePage disk c.lba w.tempPage)

structure NvmeWriters where
  task : Bool → NvmeWriter
  disk : Nat → U8

namespace NvmeWriters

inductive Step (dev : NvmeDevice) : NvmeWriters → NvmeWriters → Prop
  | step {s : NvmeWriters} {t : Bool} {w : NvmeWriter} {disk : Nat → U8}
      (takes : (s.task t).step dev s.disk = some (w, disk)) :
      Step dev s ⟨Function.update s.task t w, disk⟩

abbrev Run (dev : NvmeDevice) : NvmeWriters → NvmeWriters → Prop := Relation.ReflTransGen (Step dev)

/-- The two calls at their start. -/
def start (dev : NvmeDevice) (offset length : Bool → U64) (buffer : Bool → Nat → U8)
    (disk : Nat → U8) : NvmeWriters where
  task t := ⟨buffer t, (nvmeWrite dev (offset t) (length t)).chunks, 0, .read, fun _ => 0⟩
  disk := disk

/-- Both calls have returned. -/
def Returned (s : NvmeWriters) : Prop := ∀ t, (s.task t).left = []

end NvmeWriters

/-- The number of bytes that the call writes after its clamp. -/
def nvmeBytes (dev : NvmeDevice) (offset length : U64) : Nat :=
  (nvmeWrite dev offset length).bytes.toNat

/-- The byte of the device that byte `i` of a call's buffer is for. -/
def bytePlace (offset : U64) (i : Nat) : Nat := (offset + BitVec.ofNat 64 i).toNat

/-- Whatever the tasks write, and in whatever order they run, the device holds the data of
both afterwards, and nothing else of it has changed. -/
def NoLostUpdate (dev : NvmeDevice) (offset length : Bool → U64) : Prop :=
  ∀ (buffer : Bool → Nat → U8) (disk : Nat → U8) (s : NvmeWriters),
    NvmeWriters.Run dev (.start dev offset length buffer disk) s → s.Returned →
      (∀ t, ∀ i < nvmeBytes dev (offset t) (length t),
        s.disk (bytePlace (offset t) i) = buffer t i) ∧
      ∀ x, (∀ t, ∀ i < nvmeBytes dev (offset t) (length t), x ≠ bytePlace (offset t) i) →
        s.disk x = disk x

/-- The commands reach every page that the call writes to. -/
def Reached (dev : NvmeDevice) (offset : U64) (n : Nat) : Prop :=
  ∀ i < n, bytePlace offset i / 4096 < 2 ^ (20 + dev.lbadsExponent.toNat)

/-- The call writes to some byte of the page that has `x`. -/
def InPages (offset : U64) (n x : Nat) : Prop := ∃ i < n, bytePlace offset i / 4096 = x / 4096

namespace NvmeDevice

variable {dev : NvmeDevice} {offset length n : U64} {i x done : Nat}

theorem pageStart_lbaOf (he : dev.lbadsExponent.toNat ≤ 12) (offset : U64) :
    dev.pageStart (dev.lbaOf offset) =
      4096 * (offset.toNat / 4096 % 2 ^ (20 + dev.lbadsExponent.toNat)) := dev.lbaOf_mul he offset

/-- Every page command ends inside of what the block numbers reach. -/
theorem pageStart_lt (he : dev.lbadsExponent.toNat ≤ 12) (offset : U64) :
    dev.pageStart (dev.lbaOf offset) + 4096 ≤ 4096 * 2 ^ (20 + dev.lbadsExponent.toNat) := by
  have hlt := Nat.mod_lt (offset.toNat / 4096) (Nat.two_pow_pos (20 + dev.lbadsExponent.toNat))
  rw [pageStart_lbaOf he]
  omega

theorem chunks_lba {length offset bytesDone : U64} {c : NvmeChunk}
    (hc : c ∈ dev.chunks length offset bytesDone) : c.lba = dev.lbaOf c.offset := by
  induction offset, bytesDone using chunks.induct length with
  | case1 offset bytesDone hlt n ih =>
    rw [chunks, if_pos hlt] at hc
    rcases List.mem_cons.mp hc with rfl | hc
    · rfl
    · exact ih hc
  | case2 offset bytesDone hlt =>
    rw [chunks, if_neg hlt] at hc
    cases hc

end NvmeDevice

/-- What is reached does not wrap around. -/
theorem Reached.bytePlace_eq {dev : NvmeDevice} {offset : U64} {n i : Nat}
    (h : Reached dev offset n) (he : dev.lbadsExponent.toNat ≤ 12) (hi : i < n) :
    bytePlace offset i = offset.toNat + i := by
  have hlimit : 4096 * 2 ^ (20 + dev.lbadsExponent.toNat) ≤ 2 ^ 44 := by
    have hpow : 2 ^ (20 + dev.lbadsExponent.toNat) ≤ 2 ^ 32 :=
      Nat.pow_le_pow_right (by decide) (by omega)
    omega
  have hlast : ∀ k ≤ i, bytePlace offset k = offset.toNat + k ∧ offset.toNat + k < 2 ^ 44 := by
    intro k hk
    have hpage := h k (by omega)
    induction k with
    | zero =>
      have h0 : bytePlace offset 0 = offset.toNat := by simp [bytePlace]
      rw [h0] at hpage ⊢
      omega
    | succ k ih =>
      obtain ⟨hk', hlt⟩ := ih (by omega) (h k (by omega))
      have hsucc : bytePlace offset (k + 1) = offset.toNat + (k + 1) := by
        rw [bytePlace, BitVec.toNat_add, BitVec.toNat_ofNat] at hk' ⊢
        omega
      rw [hsucc] at hpage ⊢
      omega
  exact (hlast i (Nat.le_refl i)).1

/-- A call that has written the first `w.bytesWritten` of `n` bytes. -/
structure NvmeWriter.At (dev : NvmeDevice) (w : NvmeWriter) (offset n : U64)
    (buffer : Nat → U8) : Prop where
  le : w.bytesWritten ≤ n.toNat
  left : w.left = dev.chunks n (offset + BitVec.ofNat 64 w.bytesWritten)
    (BitVec.ofNat 64 w.bytesWritten)
  buffer : w.buffer = buffer

/-- The chunk that is to be written after `done` bytes, and its page. -/
structure NextChunk (dev : NvmeDevice) (c : NvmeChunk) (offset n : U64) (done : Nat) : Prop where
  page : dev.pageStart c.lba = (offset.toNat + done) / 4096 * 4096
  pageOffset : c.pageOffset.toNat = (offset.toNat + done) % 4096
  pos : 0 < c.length.toNat
  inside : c.pageOffset.toNat + c.length.toNat ≤ 4096
  le : done + c.length.toNat ≤ n.toNat

theorem NvmeDevice.chunks_next {dev : NvmeDevice} (he : dev.lbadsExponent.toNat ≤ 12)
    {offset n : U64} (hr : Reached dev offset n.toNat) {done : Nat} (hd : done < n.toNat) :
    ∃ c, NextChunk dev c offset n done ∧
      dev.chunks n (offset + BitVec.ofNat 64 done) (BitVec.ofNat 64 done) =
        c :: dev.chunks n (offset + BitVec.ofNat 64 (done + c.length.toNat))
          (BitVec.ofNat 64 (done + c.length.toNat)) := by
  have hoff : (offset + BitVec.ofNat 64 done).toNat = offset.toNat + done := hr.bytePlace_eq he hd
  have hdone : (BitVec.ofNat 64 done).toNat = done := by
    rw [BitVec.toNat_ofNat]
    exact Nat.mod_eq_of_lt (Nat.lt_trans hd n.isLt)
  have hlt : BitVec.ofNat 64 done < n := by rwa [BitVec.lt_def, hdone]
  have hleft : (n - BitVec.ofNat 64 done).toNat = n.toNat - done := by bv_omega
  have hlen := chunkLength_toNat (offset + BitVec.ofNat 64 done) (n - BitVec.ofNat 64 done)
  have hpage : ((offset + BitVec.ofNat 64 done) % 4096).toNat = (offset.toNat + done) % 4096 := by
    rw [BitVec.toNat_umod, hoff]
    rfl
  rw [hoff, hleft] at hlen
  rw [chunks, if_pos hlt]
  dsimp only
  generalize chunkLength (offset + BitVec.ofNat 64 done) (n - BitVec.ofNat 64 done) = len at hlen ⊢
  refine ⟨⟨_, _, _, len⟩, ⟨?_, hpage, ?_, ?_, ?_⟩, congrArg₂ List.cons rfl ?_⟩
  · have hreach := hr done hd
    rw [bytePlace, hoff] at hreach
    rw [pageStart_lbaOf he, hoff, Nat.mod_eq_of_lt hreach, Nat.mul_comm]
  · dsimp only
    omega
  · dsimp only
    rw [hpage]
    omega
  · dsimp only
    omega
  · rw [BitVec.ofNat_add, BitVec.ofNat_toNat, BitVec.setWidth_eq, BitVec.add_assoc]

theorem overlay_grow {m d : Nat → U8} {o n k x : Nat} :
    overlay m o (n + k) d x =
      if o + n ≤ x ∧ x < o + n + k then d (x - o) else overlay m o n d x := by
  simp only [overlay]
  by_cases hx : o + n ≤ x ∧ x < o + n + k
  · rw [if_pos hx, if_pos (by omega)]
  · rw [if_neg hx]
    by_cases hin : o ≤ x ∧ x < o + n
    · rw [if_pos hin, if_pos (by omega)]
    · rw [if_neg hin, if_neg (by omega)]

namespace NvmeWriter

variable {dev : NvmeDevice} {w w' : NvmeWriter} {offset n : U64} {buffer : Nat → U8}
  {disk disk' base : Nat → U8}

theorem At.start (dev : NvmeDevice) (offset length : U64) (buffer tempPage : Nat → U8)
    (phase : WritePhase) :
    At dev ⟨buffer, (nvmeWrite dev offset length).chunks, 0, phase, tempPage⟩ offset
      (nvmeWrite dev offset length).bytes buffer := by
  refine ⟨Nat.zero_le _, ?_, rfl⟩
  have hzero : offset + BitVec.ofNat 64 0 = offset := BitVec.add_zero offset
  rw [hzero]
  rfl

/-- What a call that is not finished does next. -/
theorem At.next (h : w.At dev offset n buffer) (he : dev.lbadsExponent.toNat ≤ 12)
    (hr : Reached dev offset n.toNat) (hd : w.bytesWritten < n.toNat) :
    ∃ c left, w.left = c :: left ∧ NextChunk dev c offset n w.bytesWritten ∧
      left = dev.chunks n (offset + BitVec.ofNat 64 (w.bytesWritten + c.length.toNat))
        (BitVec.ofNat 64 (w.bytesWritten + c.length.toNat)) := by
  obtain ⟨c, hc, hchunks⟩ := NvmeDevice.chunks_next he hr hd
  exact ⟨c, _, h.left.trans hchunks, hc, rfl⟩

theorem At.finished (h : w.At dev offset n buffer) (he : dev.lbadsExponent.toNat ≤ 12)
    (hr : Reached dev offset n.toNat) (hleft : w.left = []) : w.bytesWritten = n.toNat := by
  by_contra hne
  obtain ⟨c, left, hcons, -⟩ := h.next he hr (Nat.lt_of_le_of_ne h.le hne)
  rw [hleft] at hcons
  cases hcons

theorem At.unfinished (h : w.At dev offset n buffer) (hleft : w.left ≠ []) :
    w.bytesWritten < n.toNat := by
  by_contra hge
  apply hleft
  have hdone : (BitVec.ofNat 64 w.bytesWritten).toNat = w.bytesWritten := by
    rw [BitVec.toNat_ofNat]
    exact Nat.mod_eq_of_lt (Nat.lt_of_le_of_lt h.le n.isLt)
  rw [h.left, NvmeDevice.chunks, if_neg]
  rw [BitVec.lt_def, hdone]
  exact hge

/-- What a step does, with the chunk that it is for. -/
theorem step_cases (h : w.step dev disk = some (w', disk')) :
    ∃ c left, w.left = c :: left ∧
      (w.phase = .read ∧ w' = { w with phase := .copy, tempPage := dev.readPage disk c.lba } ∧
        disk' = disk ∨
      w.phase = .copy ∧ w' = { w with
        phase := .write
        tempPage := overlay w.tempPage c.pageOffset.toNat c.length.toNat
          fun i => w.buffer (w.bytesWritten + i) } ∧ disk' = disk ∨
      w.phase = .write ∧ w' = { w with
        left := left, bytesWritten := w.bytesWritten + c.length.toNat, phase := .read } ∧
        disk' = dev.writePage disk c.lba w.tempPage) := by
  rw [step] at h
  cases hleft : w.left with
  | nil => simp [hleft] at h
  | cons c left =>
    refine ⟨c, left, rfl, ?_⟩
    cases hphase : w.phase with
    | read =>
      simp only [hleft, hphase, Option.some.injEq, Prod.mk.injEq] at h
      exact .inl ⟨rfl, h.1.symm, h.2.symm⟩
    | copy =>
      simp only [hleft, hphase, Option.some.injEq, Prod.mk.injEq] at h
      exact .inr (.inl ⟨rfl, h.1.symm, h.2.symm⟩)
    | write =>
      simp only [hleft, hphase, Option.some.injEq, Prod.mk.injEq] at h
      exact .inr (.inr ⟨rfl, h.1.symm, h.2.symm⟩)

theorem At.step (h : w.At dev offset n buffer) (he : dev.lbadsExponent.toNat ≤ 12)
    (hr : Reached dev offset n.toNat) (hs : w.step dev disk = some (w', disk')) :
    w'.At dev offset n buffer := by
  obtain ⟨c, left, hleft, hcases⟩ := step_cases hs
  obtain ⟨c', left', hleft', hc, hrest⟩ := h.next he hr (h.unfinished (by simp [hleft]))
  obtain ⟨rfl, rfl⟩ := List.cons.inj (hleft.symm.trans hleft')
  rcases hcases with ⟨-, rfl, -⟩ | ⟨-, rfl, -⟩ | ⟨-, rfl, -⟩
  · exact ⟨h.le, h.left, h.buffer⟩
  · exact ⟨h.le, h.left, h.buffer⟩
  · exact ⟨hc.le, hrest, h.buffer⟩

/-- A call alone on its pages: they are as its own chunks leave them, and so is the page
that it holds. -/
structure Own (dev : NvmeDevice) (w : NvmeWriter) (offset n : U64) (buffer : Nat → U8)
    (base disk : Nat → U8) : Prop where
  place : w.At dev offset n buffer
  pages : ∀ x, InPages offset n.toNat x →
    disk x = overlay base offset.toNat w.bytesWritten buffer x
  copied : w.phase = .copy → ∀ c left, w.left = c :: left → ∀ j < 4096, w.tempPage j =
    overlay base offset.toNat w.bytesWritten buffer (dev.pageStart c.lba + j)
  changed : w.phase = .write → ∀ c left, w.left = c :: left → ∀ j < 4096, w.tempPage j =
    overlay base offset.toNat (w.bytesWritten + c.length.toNat) buffer (dev.pageStart c.lba + j)

theorem Own.frame (h : w.Own dev offset n buffer base disk)
    (hsame : ∀ x, InPages offset n.toNat x → disk' x = disk x) :
    w.Own dev offset n buffer base disk' :=
  ⟨h.place, fun x hx => (hsame x hx).trans (h.pages x hx), h.copied, h.changed⟩

theorem inPages_of_next {c : NvmeChunk} (he : dev.lbadsExponent.toNat ≤ 12)
    (hr : Reached dev offset n.toNat) (hd : w.bytesWritten < n.toNat)
    (hc : NextChunk dev c offset n w.bytesWritten) {x : Nat}
    (hx : dev.pageStart c.lba ≤ x ∧ x < dev.pageStart c.lba + 4096) :
    InPages offset n.toNat x := by
  refine ⟨w.bytesWritten, hd, ?_⟩
  rw [hr.bytePlace_eq he hd]
  have hpage := hc.page
  omega

theorem Own.step (h : w.Own dev offset n buffer base disk) (he : dev.lbadsExponent.toNat ≤ 12)
    (hr : Reached dev offset n.toNat) (hs : w.step dev disk = some (w', disk')) :
    w'.Own dev offset n buffer base disk' ∧ ∀ x, ¬InPages offset n.toNat x → disk' x = disk x := by
  have hplace := h.place.step he hr hs
  obtain ⟨c, left, hleft, hcases⟩ := step_cases hs
  have hd := h.place.unfinished (by simp [hleft])
  obtain ⟨c', left', hleft', hc, -⟩ := h.place.next he hr hd
  obtain ⟨rfl, rfl⟩ := List.cons.inj (hleft.symm.trans hleft')
  have hpage := hc.page
  have hoff := hc.pageOffset
  have hinside := hc.inside
  have hin : ∀ {x}, dev.pageStart c.lba ≤ x ∧ x < dev.pageStart c.lba + 4096 →
      InPages offset n.toNat x := fun hx => inPages_of_next he hr hd hc hx
  rcases hcases with ⟨hphase, rfl, rfl⟩ | ⟨hphase, rfl, rfl⟩ | ⟨hphase, rfl, rfl⟩
  · refine ⟨⟨hplace, h.pages, ?_, fun hp => ?_⟩, fun _ _ => rfl⟩
    · intro _ c' left' hcons j hj
      obtain ⟨rfl, -⟩ := List.cons.inj (hleft.symm.trans hcons)
      exact h.pages _ (hin (by omega))
    · cases hp
  · refine ⟨⟨hplace, h.pages, fun hp => (by cases hp), ?_⟩, fun _ _ => rfl⟩
    intro _ c' left' hcons j hj
    obtain ⟨rfl, -⟩ := List.cons.inj (hleft.symm.trans hcons)
    have hold := h.copied hphase c left hleft j hj
    dsimp only
    rw [overlay_grow, ← hold, overlay, h.place.buffer]
    by_cases hmem : c.pageOffset.toNat ≤ j ∧ j < c.pageOffset.toNat + c.length.toNat
    · rw [if_pos hmem, if_pos (by omega)]
      congr 1
      omega
    · rw [if_neg hmem, if_neg (by omega)]
  · refine ⟨⟨hplace, ?_, fun hp => (by cases hp), fun hp => by cases hp⟩, ?_⟩
    · intro x hx
      change overlay disk (dev.pageStart c.lba) 4096 w.tempPage x = _
      by_cases hmem : dev.pageStart c.lba ≤ x ∧ x < dev.pageStart c.lba + 4096
      · have htemp := h.changed hphase c left hleft (x - dev.pageStart c.lba) (by omega)
        rw [overlay, if_pos hmem, htemp, Nat.add_sub_cancel' hmem.1]
      · rw [overlay, if_neg hmem, h.pages x hx, overlay_grow, if_neg (by omega)]
    · intro x hx
      exact if_neg fun hmem => hx (hin hmem)

theorem Own.finished (h : w.Own dev offset n buffer base disk) (he : dev.lbadsExponent.toNat ≤ 12)
    (hr : Reached dev offset n.toNat) (hleft : w.left = []) {x : Nat}
    (hx : InPages offset n.toNat x) : disk x = overlay base offset.toNat n.toNat buffer x := by
  rw [h.pages x hx, h.place.finished he hr hleft]

end NvmeWriter

/-- The commands reach what either call writes, and no page has bytes of both. -/
def PagesApart (dev : NvmeDevice) (offset length : Bool → U64) : Prop :=
  (∀ t, Reached dev (offset t) (nvmeBytes dev (offset t) (length t))) ∧
  ∀ i < nvmeBytes dev (offset false) (length false),
    ∀ j < nvmeBytes dev (offset true) (length true),
      bytePlace (offset false) i / 4096 ≠ bytePlace (offset true) j / 4096

namespace NvmeWriters

variable {dev : NvmeDevice} {offset length : Bool → U64} {buffer : Bool → Nat → U8}
  {disk : Nat → U8} {s s' : NvmeWriters}

/-- Each call is alone on its pages, and the others are as at the start. -/
structure Separate (dev : NvmeDevice) (offset length : Bool → U64) (buffer : Bool → Nat → U8)
    (disk : Nat → U8) (s : NvmeWriters) : Prop where
  own : ∀ t, (s.task t).Own dev (offset t) (nvmeWrite dev (offset t) (length t)).bytes (buffer t)
    disk s.disk
  others : ∀ x, (∀ t, ¬InPages (offset t) (nvmeBytes dev (offset t) (length t)) x) →
    s.disk x = disk x

theorem PagesApart.not_both (h : PagesApart dev offset length) {t u : Bool} (htu : t ≠ u) {x : Nat}
    (ht : InPages (offset t) (nvmeBytes dev (offset t) (length t)) x) :
    ¬InPages (offset u) (nvmeBytes dev (offset u) (length u)) x := by
  intro hu
  obtain ⟨i, hi, hix⟩ := ht
  obtain ⟨j, hj, hjx⟩ := hu
  cases t with
  | false =>
    cases u with
    | false => exact htu rfl
    | true => exact h.2 i hi j hj (hix.trans hjx.symm)
  | true =>
    cases u with
    | false => exact h.2 j hj i hi (hjx.trans hix.symm)
    | true => exact htu rfl

theorem Separate.start (dev : NvmeDevice) (offset length : Bool → U64)
    (buffer : Bool → Nat → U8) (disk : Nat → U8) :
    Separate dev offset length buffer disk (.start dev offset length buffer disk) where
  own t := by
    refine ⟨.start dev _ _ _ _ _, fun x _ => ?_, fun hp => (by cases hp), fun hp => by cases hp⟩
    simp [NvmeWriters.start]
  others _ _ := rfl

theorem Separate.step (h : Separate dev offset length buffer disk s)
    (he : dev.lbadsExponent.toNat ≤ 12) (hapart : PagesApart dev offset length)
    (hs : Step dev s s') : Separate dev offset length buffer disk s' := by
  cases hs with | @step t w disk' takes =>
  obtain ⟨hown, hkeep⟩ := (h.own t).step he (hapart.1 t) takes
  constructor
  · intro u
    by_cases hu : u = t
    · subst hu
      simpa using hown
    · have hframe := (h.own u).frame fun x hx => hkeep x (PagesApart.not_both hapart hu hx)
      simpa [hu] using hframe
  · intro x hx
    exact (hkeep x (hx t)).trans (h.others x hx)

theorem Separate.run (he : dev.lbadsExponent.toNat ≤ 12) (hapart : PagesApart dev offset length)
    (hs : Run dev (.start dev offset length buffer disk) s) :
    Separate dev offset length buffer disk s := by
  induction hs with
  | refl => exact .start dev offset length buffer disk
  | tail _ hstep ih => exact ih.step he hapart hstep

end NvmeWriters

theorem PagesApart.noLostUpdate {dev : NvmeDevice} {offset length : Bool → U64}
    (h : PagesApart dev offset length) (he : dev.lbadsExponent.toNat ≤ 12) :
    NoLostUpdate dev offset length := by
  intro buffer disk s hrun hreturned
  have hsep := NvmeWriters.Separate.run he h hrun
  have hfinal : ∀ t x, InPages (offset t) (nvmeBytes dev (offset t) (length t)) x → s.disk x =
      overlay disk (offset t).toNat (nvmeBytes dev (offset t) (length t)) (buffer t) x :=
    fun t x hx => (hsep.own t).finished he (h.1 t) (hreturned t) hx
  constructor
  · intro t i hi
    rw [hfinal t _ ⟨i, hi, rfl⟩, (h.1 t).bytePlace_eq he hi, overlay_add hi]
  · intro x hx
    by_cases hin : ∃ t, InPages (offset t) (nvmeBytes dev (offset t) (length t)) x
    · obtain ⟨t, ht⟩ := hin
      rw [hfinal t x ht, overlay, if_neg]
      rintro ⟨hle, hlt⟩
      have hi : x - (offset t).toNat < nvmeBytes dev (offset t) (length t) := by omega
      apply hx t _ hi
      rw [(h.1 t).bytePlace_eq he hi]
      omega
    · exact hsep.others x fun t ht => hin ⟨t, ht⟩

namespace NvmeWriter

variable {dev : NvmeDevice} {w w' : NvmeWriter} {offset n : U64} {buffer : Nat → U8}
  {disk disk' : Nat → U8} {b : Nat} {v : U8}

def WritePhase.passed : WritePhase → Nat
  | .read => 0
  | .copy => 1
  | .write => 2

/-- The steps that a call has still to take. -/
def remaining (w : NvmeWriter) : Nat := 3 * w.left.length - WritePhase.passed w.phase

theorem step_some (dev : NvmeDevice) (disk : Nat → U8) (hleft : w.left ≠ []) :
    ∃ w' disk', w.step dev disk = some (w', disk') := by
  obtain ⟨c, left, hcons⟩ := List.exists_cons_of_ne_nil hleft
  have hsome : w.step dev disk ≠ none := by
    cases hphase : w.phase
    all_goals simp [step, hcons, hphase]
  obtain ⟨⟨w', disk'⟩, hs⟩ := Option.ne_none_iff_exists'.mp hsome
  exact ⟨w', disk', hs⟩

theorem remaining_lt (h : w.step dev disk = some (w', disk')) : w'.remaining < w.remaining := by
  obtain ⟨c, left, hleft, hcases⟩ := step_cases h
  have hlen := congrArg List.length hleft
  rw [List.length_cons] at hlen
  rcases hcases with ⟨hphase, rfl, -⟩ | ⟨hphase, rfl, -⟩ | ⟨hphase, rfl, -⟩
  all_goals
    simp only [remaining, hphase, WritePhase.passed]
    omega

/-- The call has not changed the byte `b`, which is none of its own, and will write back
the value that it found there. -/
structure Spares (dev : NvmeDevice) (w : NvmeWriter) (offset n : U64) (buffer : Nat → U8)
    (b : Nat) (v : U8) : Prop where
  place : w.At dev offset n buffer
  held : w.phase ≠ .read → ∀ c left, w.left = c :: left → ∀ k < 4096,
    dev.pageStart c.lba + k = b → w.tempPage k = v

theorem Spares.step (h : w.Spares dev offset n buffer b v) (he : dev.lbadsExponent.toNat ≤ 12)
    (hr : Reached dev offset n.toNat) (hb : ∀ i < n.toNat, bytePlace offset i ≠ b)
    (hbyte : w.phase = .write ∨ disk b = v) (hs : w.step dev disk = some (w', disk')) :
    w'.Spares dev offset n buffer b v ∧ (disk b = v → disk' b = v) := by
  have hplace := h.place.step he hr hs
  obtain ⟨c, left, hleft, hcases⟩ := step_cases hs
  have hd := h.place.unfinished (by simp [hleft])
  obtain ⟨c', left', hleft', hc, -⟩ := h.place.next he hr hd
  obtain ⟨rfl, rfl⟩ := List.cons.inj (hleft.symm.trans hleft')
  have hpage := hc.page
  have hoff := hc.pageOffset
  have hle := hc.le
  rcases hcases with ⟨hphase, rfl, rfl⟩ | ⟨hphase, rfl, rfl⟩ | ⟨hphase, rfl, rfl⟩
  · refine ⟨⟨hplace, ?_⟩, id⟩
    intro _ c' left' hcons k hk hkb
    obtain ⟨rfl, -⟩ := List.cons.inj (hleft.symm.trans hcons)
    have hvalue := hbyte.resolve_left (by simp [hphase])
    rw [← hvalue, ← hkb]
    rfl
  · refine ⟨⟨hplace, ?_⟩, id⟩
    intro _ c' left' hcons k hk hkb
    obtain ⟨rfl, -⟩ := List.cons.inj (hleft.symm.trans hcons)
    have hold := h.held (by simp [hphase]) c left hleft k hk hkb
    dsimp only
    rw [overlay, if_neg, hold]
    rintro ⟨hge, hlt⟩
    have hi : w.bytesWritten + (k - c.pageOffset.toNat) < n.toNat := by omega
    apply hb _ hi
    rw [hr.bytePlace_eq he hi]
    omega
  · refine ⟨⟨hplace, fun hne => absurd rfl hne⟩, ?_⟩
    intro hvalue
    change overlay disk (dev.pageStart c.lba) 4096 w.tempPage b = v
    by_cases hmem : dev.pageStart c.lba ≤ b ∧ b < dev.pageStart c.lba + 4096
    · rw [overlay, if_pos hmem]
      exact h.held (by simp [hphase]) c left hleft _ (by omega) (by omega)
    · rw [overlay, if_neg hmem, hvalue]

/-- A call about to write the page of `b`. -/
def Holds (dev : NvmeDevice) (w : NvmeWriter) (b : Nat) : Prop :=
  w.phase = .write ∧ ∃ c left, w.left = c :: left ∧
    dev.pageStart c.lba ≤ b ∧ b < dev.pageStart c.lba + 4096

end NvmeWriter

namespace NvmeWriters

variable {dev : NvmeDevice} {offset length : Bool → U64} {buffer : Bool → Nat → U8}
  {disk : Nat → U8} {s s' : NvmeWriters}

open NvmeWriter

/-- One task runs alone until it reaches what it is bound for. -/
theorem run_until {P : NvmeWriter → (Nat → U8) → Prop} {G : NvmeWriter → Prop} (t : Bool)
    (hstep : ∀ w disk, P w disk → ¬G w → ∃ w' disk', w.step dev disk = some (w', disk') ∧
      P w' disk') (h : P (s.task t) s.disk) :
    ∃ s', Run dev s s' ∧ G (s'.task t) ∧ P (s'.task t) s'.disk ∧
      ∀ u, u ≠ t → s'.task u = s.task u := by
  generalize hm : (s.task t).remaining = m
  induction m using Nat.strongRecOn generalizing s with
  | _ m ih =>
    by_cases hg : G (s.task t)
    · exact ⟨s, .refl, hg, h, fun _ _ => rfl⟩
    · obtain ⟨w', disk', hs, hp⟩ := hstep _ _ h hg
      have hlt := remaining_lt hs
      obtain ⟨s', hrun, hg', hp', hothers⟩ :=
        @ih w'.remaining (hm ▸ hlt) ⟨Function.update s.task t w', disk'⟩ (by simpa using hp)
          (by simp)
      refine ⟨s', hrun.head (.step hs), hg', hp', ?_⟩
      intro u hu
      rw [hothers u hu]
      exact Function.update_of_ne hu _ _

theorem run_to_return (t : Bool) : ∃ s', Run dev s s' ∧ (s'.task t).left = [] ∧
    ∀ u, u ≠ t → s'.task u = s.task u := by
  obtain ⟨s', hrun, hleft, -, hothers⟩ := @run_until dev s (fun _ _ => True)
    (fun w => w.left = []) t
    (fun w disk _ hne => (step_some dev disk hne).imp fun _ => Exists.imp fun _ h => ⟨h, trivial⟩)
    trivial
  exact ⟨s', hrun, hleft, hothers⟩

/-- Both calls return, in one order of their steps at least. -/
theorem exists_returned : ∃ s', Run dev s s' ∧ s'.Returned := by
  obtain ⟨s₁, hrun₁, hleft₁, -⟩ := @run_to_return dev s false
  obtain ⟨s₂, hrun₂, hleft₂, hothers⟩ := @run_to_return dev s₁ true
  refine ⟨s₂, hrun₁.trans hrun₂, ?_⟩
  intro t
  cases t with
  | false => rw [hothers false (by decide), hleft₁]
  | true => exact hleft₂

/-- What the block numbers do not reach stays as it is. -/
theorem run_unreached (he : dev.lbadsExponent.toNat ≤ 12)
    (hs : Run dev (.start dev offset length buffer disk) s) :
    (∀ t, ∀ c ∈ (s.task t).left, c.lba = dev.lbaOf c.offset) ∧
      ∀ x, 4096 * 2 ^ (20 + dev.lbadsExponent.toNat) ≤ x → s.disk x = disk x := by
  induction hs with
  | refl => exact ⟨fun _ _ hc => NvmeDevice.chunks_lba hc, fun _ _ => rfl⟩
  | @tail mid _ _ hstep ih =>
    cases hstep with | @step t w disk' takes =>
    obtain ⟨c, left, hleft, hcases⟩ := step_cases takes
    have hsub : ∀ c' ∈ w.left, c' ∈ c :: left := by
      rcases hcases with ⟨-, rfl, -⟩ | ⟨-, rfl, -⟩ | ⟨-, rfl, -⟩
      · exact fun c' hc' => hleft ▸ hc'
      · exact fun c' hc' => hleft ▸ hc'
      · exact fun c' hc' => List.mem_cons_of_mem _ hc'
    constructor
    · intro u c' hc'
      by_cases hu : u = t
      · subst hu
        simp only [Function.update_self] at hc'
        exact ih.1 u c' (hleft ▸ hsub c' hc')
      · simp only [Function.update_of_ne hu] at hc'
        exact ih.1 u c' hc'
    · intro x hx
      have hsame : disk' x = mid.disk x := by
        rcases hcases with ⟨-, -, rfl⟩ | ⟨-, -, rfl⟩ | ⟨-, -, rfl⟩
        · rfl
        · rfl
        · have hlba := ih.1 t c (hleft ▸ List.mem_cons_self)
          have hend := NvmeDevice.pageStart_lt he c.offset
          rw [← hlba] at hend
          exact overlay_of_ge (by omega)
      exact hsame.trans (ih.2 x hx)

end NvmeWriters

open NvmeWriter NvmeWriters

variable {dev : NvmeDevice} {offset length : Bool → U64}

theorem NoLostUpdate.reached (h : NoLostUpdate dev offset length)
    (he : dev.lbadsExponent.toNat ≤ 12) (t : Bool) :
    Reached dev (offset t) (nvmeBytes dev (offset t) (length t)) := by
  intro i hi
  by_contra hge
  obtain ⟨s, hrun, hreturned⟩ :=
    @exists_returned dev (.start dev offset length (fun _ _ => 1) fun _ => 0)
  have hdata := (h _ _ s hrun hreturned).1 t i hi
  have hkept := (run_unreached he hrun).2 (bytePlace (offset t) i) (by omega)
  exact absurd (hdata.symm.trans hkept) (by decide)

/-- One task reads a page, the other one writes its bytes of it, and the first one writes
the page back as it was. -/
theorem lost_update (he : dev.lbadsExponent.toNat ≤ 12)
    (hr : ∀ t, Reached dev (offset t) (nvmeBytes dev (offset t) (length t))) {i j : Nat}
    (hi : i < nvmeBytes dev (offset false) (length false))
    (hpage : bytePlace (offset false) i / 4096 = bytePlace (offset true) j / 4096)
    (hother : ∀ k < nvmeBytes dev (offset false) (length false),
      bytePlace (offset false) k ≠ bytePlace (offset true) j) (buffer : Bool → Nat → U8)
    (disk : Nat → U8) :
    ∃ s, Run dev (.start dev offset length buffer disk) s ∧ s.Returned ∧
      s.disk (bytePlace (offset true) j) = disk (bytePlace (offset true) j) := by
  generalize hb : bytePlace (offset true) j = b at hpage hother ⊢
  let n := (nvmeWrite dev (offset false) (length false)).bytes
  have hr₀ : Reached dev (offset false) n.toNat := hr false
  -- the first task, up to its write of the page
  let P : NvmeWriter → (Nat → U8) → Prop := fun w d =>
    w.Spares dev (offset false) n (buffer false) b (disk b) ∧ d b = disk b ∧ w.bytesWritten ≤ i
  have hhold : ∀ w d, P w d → ¬w.Holds dev b →
      ∃ w' d', w.step dev d = some (w', d') ∧ P w' d' := by
    rintro w d ⟨hspares, hbyte, hle⟩ hnot
    have hd : w.bytesWritten < n.toNat := Nat.lt_of_le_of_lt hle hi
    obtain ⟨c, left, hleft, hc, -⟩ := hspares.place.next he hr₀ hd
    obtain ⟨w', d', hs⟩ := step_some dev d (w := w) (by simp [hleft])
    obtain ⟨hspares', hbyte'⟩ := hspares.step he hr₀ hother (.inr hbyte) hs
    refine ⟨w', d', hs, hspares', hbyte' hbyte, ?_⟩
    obtain ⟨c', left', hleft', hcases⟩ := step_cases hs
    obtain ⟨rfl, rfl⟩ := List.cons.inj (hleft.symm.trans hleft')
    rcases hcases with ⟨-, rfl, -⟩ | ⟨-, rfl, -⟩ | ⟨hphase, rfl, -⟩
    · exact hle
    · exact hle
    · by_contra hgt
      change ¬w.bytesWritten + c.length.toNat ≤ i at hgt
      apply hnot
      refine ⟨hphase, c, left, hleft, ?_⟩
      have hcpage := hc.page
      have hoff := hc.pageOffset
      have hinside := hc.inside
      rw [hr₀.bytePlace_eq he hi] at hpage
      omega
  have hstart : P ((NvmeWriters.start dev offset length buffer disk).task false) disk :=
    ⟨⟨.start dev _ _ _ _ _, fun hne => absurd rfl hne⟩, rfl, Nat.zero_le _⟩
  obtain ⟨s₁, hrun₁, ⟨hphase, c, left, hleft, hmem⟩, ⟨hspares, -, -⟩, -⟩ :=
    run_until false hhold hstart
  -- the second task, and then the write and the rest of the first one
  obtain ⟨s₂, hrun₂, hdone, hsame⟩ := @run_to_return dev s₁ true
  rw [← hsame false (by decide)] at hphase hleft hspares
  obtain ⟨w', d', hs⟩ := step_some dev s₂.disk (w := s₂.task false) (by simp [hleft])
  obtain ⟨hspares', -⟩ := hspares.step he hr₀ hother (.inl hphase) hs
  have hbyte' : d' b = disk b := by
    obtain ⟨c', left', hleft', hcases⟩ := step_cases hs
    obtain ⟨rfl, rfl⟩ := List.cons.inj (hleft.symm.trans hleft')
    rcases hcases with ⟨hph, -, -⟩ | ⟨hph, -, -⟩ | ⟨-, -, rfl⟩
    · exact absurd (hphase.symm.trans hph) (by decide)
    · exact absurd (hphase.symm.trans hph) (by decide)
    · change overlay s₂.disk (dev.pageStart c.lba) 4096 (s₂.task false).tempPage b = disk b
      rw [overlay, if_pos hmem]
      exact hspares.held (by simp [hphase]) c left hleft _ (by omega) (by omega)
  let Q : NvmeWriter → (Nat → U8) → Prop := fun w d =>
    w.Spares dev (offset false) n (buffer false) b (disk b) ∧ d b = disk b
  have hfinish : ∀ w d, Q w d → ¬w.left = [] → ∃ w' d', w.step dev d = some (w', d') ∧ Q w' d' := by
    rintro w d ⟨hspares, hbyte⟩ hne
    obtain ⟨w', d', hs⟩ := step_some dev d hne
    obtain ⟨hspares', hbyte'⟩ := hspares.step he hr₀ hother (.inr hbyte) hs
    exact ⟨w', d', hs, hspares', hbyte' hbyte⟩
  obtain ⟨s₃, hrun₃, hleft₃, ⟨-, hfinal⟩, hsame₃⟩ :=
    @run_until dev ⟨Function.update s₂.task false w', d'⟩ Q (fun w => w.left = []) false hfinish
      (by simpa using ⟨hspares', hbyte'⟩)
  refine ⟨s₃, hrun₁.trans (hrun₂.trans (.head (.step hs) hrun₃)), ?_, hfinal⟩
  intro t
  cases t with
  | false => exact hleft₃
  | true =>
    rw [hsame₃ true (by decide)]
    exact hdone

/-- Two calls that write no byte of the device both keep their updates in every order of
their steps exactly if the commands reach what they write and no page has bytes of both. -/
theorem no_lost_update_iff (he : dev.lbadsExponent.toNat ≤ 12)
    (hdisjoint : ∀ i < nvmeBytes dev (offset false) (length false),
      ∀ j < nvmeBytes dev (offset true) (length true),
        bytePlace (offset false) i ≠ bytePlace (offset true) j) :
    NoLostUpdate dev offset length ↔ PagesApart dev offset length := by
  constructor
  · intro h
    refine ⟨h.reached he, ?_⟩
    intro i hi j hj hpage
    obtain ⟨s, hrun, hreturned, hlost⟩ := lost_update he (h.reached he) hi hpage
      (fun k hk => hdisjoint k hk j hj) (fun _ _ => 1) fun _ => 0
    have hdata := (h _ _ s hrun hreturned).1 true j hj
    exact absurd (hdata.symm.trans hlost) (by decide)
  · exact fun h => h.noLostUpdate he

instance (dev : NvmeDevice) (offset : U64) (n : Nat) : Decidable (Reached dev offset n) :=
  inferInstanceAs (Decidable (∀ _ < _, _))

instance (dev : NvmeDevice) (offset length : Bool → U64) :
    Decidable (PagesApart dev offset length) :=
  inferInstanceAs (Decidable (_ ∧ _))

/-- A byte each, on two pages. -/
theorem no_lost_update_iff_two_pages :
    NoLostUpdate ⟨9, 16⟩ (fun t => if t then 4096 else 0) fun _ => 1 :=
  (no_lost_update_iff (by decide) (by decide +kernel)).mpr (by decide +kernel)

/-- A byte each, on one page. -/
theorem neighbour_byte_lost :
    (∀ i < nvmeBytes ⟨9, 8⟩ 0 1, ∀ j < nvmeBytes ⟨9, 8⟩ 1 1, bytePlace 0 i ≠ bytePlace 1 j) ∧
      ¬NoLostUpdate ⟨9, 8⟩ (fun t => if t then 1 else 0) fun _ => 1 := by
  refine ⟨by decide +kernel, ?_⟩
  intro h
  have hr : ∀ t : Bool, Reached ⟨9, 8⟩ (if t then 1 else 0)
      (nvmeBytes ⟨9, 8⟩ (if t then 1 else 0) 1) := by decide +kernel
  obtain ⟨s, hrun, hreturned, hlost⟩ := @lost_update ⟨9, 8⟩ (fun t => if t then 1 else 0)
    (fun _ => 1) (by decide) hr 0 0 (by decide +kernel) (by decide +kernel) (by decide +kernel)
    (fun _ _ => 1) fun _ => 0
  have hdata := (h _ _ s hrun hreturned).1 true 0 (by decide +kernel)
  exact absurd (hdata.symm.trans hlost) (by decide)

end Persistos
