import Persistos.FsKernel

/-! The search for the partitions of the NVMe devices. The size and the number of the entries
of a partition table are what the disk says, and the partitions of all disks share a table. -/

namespace Persistos

open Theory

def maxNvmepartDevices : Nat := 64

/-- The length of `disk_start_buffer`. -/
def diskStartLength : Nat := 4096 * 5

/-- `struct gpt_partition_entry` -/
structure GptPartitionEntry where
  partitionTypeGuid : List U32
  partitionGuid : List U32
  firstLbaLow : U32
  firstLbaHigh : U32
  lastLbaLow : U32
  lastLbaHigh : U32
  partitionNameUtf16 : List U8
  deriving DecidableEq

def gptPartitionEntry (buffer : Nat → U8) (o : Nat) : GptPartitionEntry where
  partitionTypeGuid := (List.range 4).map fun i => le32 buffer (o + 4 * i)
  partitionGuid := (List.range 4).map fun i => le32 buffer (o + 16 + 4 * i)
  firstLbaLow := le32 buffer (o + 32)
  firstLbaHigh := le32 buffer (o + 36)
  lastLbaLow := le32 buffer (o + 40)
  lastLbaHigh := le32 buffer (o + 44)
  partitionNameUtf16 := slice buffer (o + 56) 72

namespace GptPartitionEntry

def Unused (pe : GptPartitionEntry) : Prop := pe.partitionTypeGuid = List.replicate 4 0

instance (pe : GptPartitionEntry) : Decidable pe.Unused := inferInstanceAs (Decidable (_ = _))

/-- An entry at which the driver gives up. -/
def TooFar (pe : GptPartitionEntry) : Prop :=
  ¬pe.Unused ∧ (pe.firstLbaHigh ≠ 0 ∨ pe.lastLbaHigh ≠ 0)

instance (pe : GptPartitionEntry) : Decidable pe.TooFar := inferInstanceAs (Decidable (_ ∧ _))

def firstLba (pe : GptPartitionEntry) : U64 := pe.firstLbaHigh ++ pe.firstLbaLow

def lastLba (pe : GptPartitionEntry) : U64 := pe.lastLbaHigh ++ pe.lastLbaLow

/-- The characters of the name before its end. -/
def name (pe : GptPartitionEntry) : List U8 :=
  ((List.range 36).map fun i => pe.partitionNameUtf16.getD (2 * i) 0).takeWhile (· ≠ 0)

/-- How far an entry is read. The words of the type are compared up to one that is not zero,
and the name is read up to its end. -/
def extent (pe : GptPartitionEntry) : Nat :=
  if pe.Unused then 16
  else if pe.firstLbaHigh ≠ 0 then 40
  else if pe.lastLbaHigh ≠ 0 then 48
  else 57 + 2 * min pe.name.length 35

end GptPartitionEntry

/-- `struct nvmepart_device` and where it is, with the name of its node. -/
structure ProbedPartition where
  deviceNumber : U16
  nvmeDevice : Nat
  partitionTypeGuid : List U32
  partitionGuid : List U32
  firstLba : U64
  lastLba : U64
  partitionName : List U8
  nodeName : List U8

/-- The partitions that were found, with the places and lengths of the entries that were read
and the entries that the loop went on from. -/
structure GptProbe where
  numNvmepartDevices : U16
  partitions : List ProbedPartition
  reads : List (Nat × Nat)
  visited : List GptPartitionEntry

namespace GptProbe

def init : GptProbe := ⟨0, [], [], []⟩

def read (s : GptProbe) (o : Nat) (pe : GptPartitionEntry) : GptProbe :=
  { s with reads := s.reads ++ [(o, pe.extent)] }

def visit (s : GptProbe) (pe : GptPartitionEntry) : GptProbe :=
  { s with visited := s.visited ++ [pe] }

def register (s : GptProbe) (disk : Nat) (pnum : U32) (pe : GptPartitionEntry) : GptProbe :=
  { s with
    numNvmepartDevices := s.numNvmepartDevices + 1
    partitions := s.partitions ++ [{
      deviceNumber := s.numNvmepartDevices
      nvmeDevice := disk
      partitionTypeGuid := pe.partitionTypeGuid
      partitionGuid := pe.partitionGuid
      firstLba := pe.firstLbaLow.setWidth 64
      lastLba := pe.lastLbaLow.setWidth 64
      partitionName := pe.name ++ List.replicate (37 - pe.name.length) 0
      nodeName := [110, 118, 109, 101, 48 + BitVec.ofNat 8 disk, 112, 49 + pnum.setWidth 8] }] }

end GptProbe

/-- `partition_entry_offset` -/
def partitionEntryOffset (partitionEntrySize pnum : U32) : U32 := 0x400 + pnum * partitionEntrySize

/-- The loop of `nvmepart_probe` with the number of passes that are left. -/
def probeEntries (disk : Nat) (buffer : Nat → U8) (partitionEntrySize : U32) :
    Nat → U32 → GptProbe → GptProbe
  | 0, _, s => s
  | left + 1, pnum, s =>
    let offset := partitionEntryOffset partitionEntrySize pnum
    if partitionEntrySize + offset > 20480 then s
    else
      let pe := gptPartitionEntry buffer offset.toNat
      let s := s.read offset.toNat pe
      if pe.Unused then probeEntries disk buffer partitionEntrySize left (pnum + 1) (s.visit pe)
      else if pe.firstLbaHigh ≠ 0 then s
      else if pe.lastLbaHigh ≠ 0 then s
      else
        probeEntries disk buffer partitionEntrySize left (pnum + 1)
          ((s.visit pe).register disk pnum pe)

/-- `"EFI PART"` at the start of the second sector. -/
def HasGpt (buffer : Nat → U8) : Prop :=
  slice buffer 0x200 8 = [69, 70, 73, 32, 80, 65, 82, 84]

instance (buffer : Nat → U8) : Decidable (HasGpt buffer) := inferInstanceAs (Decidable (_ = _))

def numPartitionEntries (buffer : Nat → U8) : U32 := le32 buffer 0x250

def gptEntrySize (buffer : Nat → U8) : U32 := le32 buffer 0x254

def nvmepartProbe (disk : Nat) (buffer : Nat → U8) (s : GptProbe) : GptProbe :=
  if HasGpt buffer then
    probeEntries disk buffer (gptEntrySize buffer) (numPartitionEntries buffer).toNat 0 s
  else s

/-- The probes of all disks, in the order of their numbers. -/
def nvmepartProbeAll : Nat → List (Nat → U8) → GptProbe → GptProbe
  | _, [], s => s
  | disk, buffer :: buffers, s =>
    nvmepartProbeAll (disk + 1) buffers (nvmepartProbe disk buffer s)

namespace GptProbe

/-- Entries are read inside the buffer, partitions are put into their table, and each used
entry that was visited has one. -/
structure Sound (s : GptProbe) : Prop where
  reads : ∀ read ∈ s.reads, read.1 + read.2 ≤ diskStartLength
  slots : ∀ p ∈ s.partitions, p.deviceNumber.toNat < maxNvmepartDevices
  partitions : s.partitions.map (fun p => (p.firstLba, p.lastLba)) =
    (s.visited.filter fun pe => ¬pe.Unused).map fun pe => (pe.firstLba, pe.lastLba)

end GptProbe

def gptOffset (buffer : Nat → U8) (p : Nat) : U32 :=
  partitionEntryOffset (gptEntrySize buffer) (BitVec.ofNat 32 p)

/-- The entry with a number. -/
def gptEntry (buffer : Nat → U8) (p : Nat) : GptPartitionEntry :=
  gptPartitionEntry buffer (gptOffset buffer p).toNat

/-- The check that an entry lies before the end of the buffer. -/
def PassesCheck (buffer : Nat → U8) (p : Nat) : Prop :=
  gptEntrySize buffer + gptOffset buffer p ≤ 20480

instance (buffer : Nat → U8) (p : Nat) : Decidable (PassesCheck buffer p) :=
  inferInstanceAs (Decidable (_ ≤ _))

/-- From the entry `p` the loop comes to the entry `q` and reads it. -/
def ReadsEntry (buffer : Nat → U8) (p q : Nat) : Prop :=
  (∀ j ≤ q, p ≤ j → PassesCheck buffer j) ∧ ∀ j < q, p ≤ j → ¬(gptEntry buffer j).TooFar

instance (buffer : Nat → U8) (p q : Nat) : Decidable (ReadsEntry buffer p q) :=
  inferInstanceAs (Decidable (_ ∧ _))

/-- The numbers of the entries that are read. -/
def gptEntriesRead (buffer : Nat → U8) : List Nat :=
  if HasGpt buffer then
    (List.range (numPartitionEntries buffer).toNat).filter (ReadsEntry buffer 0 ·)
  else []

/-- All that is read of an entry is inside the buffer. -/
def EntryInside (buffer : Nat → U8) (p : Nat) : Prop :=
  128 ≤ (gptEntrySize buffer).toNat ∨
    0x400 + p * (gptEntrySize buffer).toNat + (gptEntry buffer p).extent ≤ diskStartLength

/-- The number of used entries that are visited. -/
def usedEntries (buffer : Nat → U8) : Nat :=
  (gptEntriesRead buffer).countP fun p =>
    ¬(gptEntry buffer p).Unused ∧ ¬(gptEntry buffer p).TooFar

namespace GptPartitionEntry

variable {pe : GptPartitionEntry}

theorem extent_le (pe : GptPartitionEntry) : pe.extent ≤ 128 := by
  rw [extent]
  split_ifs <;> omega

theorem Unused.not_tooFar (h : pe.Unused) : ¬pe.TooFar := fun hh => hh.1 h

theorem setWidth_low {high : U32} (low : U32) (h : high = 0) : (high ++ low : U64) = low.setWidth 64 := by
  subst h
  have hzero : (0 : U32).toNat = 0 := rfl
  apply BitVec.eq_of_toNat_eq
  rw [BitVec.toNat_append, BitVec.toNat_setWidth, hzero, Nat.zero_shiftLeft, Nat.zero_or,
    Nat.mod_eq_of_lt (by omega)]

end GptPartitionEntry

section

variable {buffer : Nat → U8} {p q left : Nat}

theorem gptOffset_zero (buffer : Nat → U8) : gptOffset buffer 0 = 0x400 := by
  rw [gptOffset, partitionEntryOffset]
  exact (congrArg (0x400 + ·) BitVec.zero_mul).trans (BitVec.add_zero _)

theorem gptOffset_succ (buffer : Nat → U8) (p : Nat) :
    gptOffset buffer (p + 1) = gptOffset buffer p + gptEntrySize buffer := by
  rw [gptOffset, gptOffset, partitionEntryOffset, partitionEntryOffset, BitVec.ofNat_add,
    BitVec.succ_mul, BitVec.add_assoc]

theorem readsEntry_self (hcheck : PassesCheck buffer p) : ReadsEntry buffer p p := by
  refine ⟨fun j hj hp => ?_, fun j hj hp => by omega⟩
  obtain rfl : j = p := by omega
  exact hcheck

theorem readsEntry_from (hcheck : PassesCheck buffer p) (hnear : ¬(gptEntry buffer p).TooFar) :
    ReadsEntry buffer p q ↔ ReadsEntry buffer (p + 1) q := by
  constructor
  · exact fun h => ⟨fun j hj hp => h.1 j hj (by omega), fun j hj hp => h.2 j hj (by omega)⟩
  · rintro ⟨hall, hfar⟩
    constructor
    · intro j hj hp
      by_cases heq : j = p
      · exact heq ▸ hcheck
      · exact hall j hj (by omega)
    · intro j hj hp
      by_cases heq : j = p
      · exact heq ▸ hnear
      · exact hfar j hj (by omega)

theorem filter_stopped (h : ¬PassesCheck buffer p) :
    (List.range' p left).filter (ReadsEntry buffer p ·) = [] := by
  rw [List.filter_eq_nil_iff]
  intro q hq hreads
  have hle := (List.mem_range'_1.mp hq).1
  exact h ((of_decide_eq_true hreads).1 p hle (Nat.le_refl p))

theorem filter_tooFar (hcheck : PassesCheck buffer p) (h : (gptEntry buffer p).TooFar) :
    (List.range' p (left + 1)).filter (ReadsEntry buffer p ·) = [p] := by
  have hrest : (List.range' (p + 1) left).filter (ReadsEntry buffer p ·) = [] := by
    rw [List.filter_eq_nil_iff]
    intro q hq hreads
    have hle := (List.mem_range'_1.mp hq).1
    exact (of_decide_eq_true hreads).2 p (by omega) (Nat.le_refl p) h
  rw [List.range'_succ, List.filter_cons, if_pos (decide_eq_true (readsEntry_self hcheck)), hrest]

theorem filter_visited (hcheck : PassesCheck buffer p) (h : ¬(gptEntry buffer p).TooFar) :
    (List.range' p (left + 1)).filter (ReadsEntry buffer p ·) =
      p :: (List.range' (p + 1) left).filter (ReadsEntry buffer (p + 1) ·) := by
  rw [List.range'_succ, List.filter_cons, if_pos (decide_eq_true (readsEntry_self hcheck))]
  congr 1
  exact List.filter_congr fun q _ => decide_eq_decide.mpr (readsEntry_from hcheck h)

end

namespace GptProbe

/-- The devices are numbered in the order of their registration. -/
structure Counted (s : GptProbe) : Prop where
  next : s.numNvmepartDevices = BitVec.ofNat 16 s.partitions.length
  numbers : s.partitions.map ProbedPartition.deviceNumber =
    (List.range s.partitions.length).map (BitVec.ofNat 16)

theorem init_counted : Counted init := ⟨rfl, rfl⟩

theorem Counted.register {s : GptProbe} (h : Counted s) (disk : Nat) (pnum : U32)
    (pe : GptPartitionEntry) : Counted (s.register disk pnum pe) := by
  have hlength : (s.register disk pnum pe).partitions.length = s.partitions.length + 1 :=
    List.length_append
  constructor
  · rw [hlength, BitVec.ofNat_add, ← h.next]
    rfl
  · rw [hlength, List.range_succ, List.map_append, ← h.numbers]
    refine List.map_append.trans (congrArg _ ?_)
    exact congrArg (fun n => [n]) h.next

/-- What reading the entries with the given numbers of one disk does. -/
structure Probed (buffer : Nat → U8) (entries : List Nat) (s s' : GptProbe) : Prop where
  reads : s'.reads = s.reads ++
    entries.map fun p => ((gptOffset buffer p).toNat, (gptEntry buffer p).extent)
  visited : s'.visited = s.visited ++
    (entries.filter fun p => ¬(gptEntry buffer p).TooFar).map (gptEntry buffer)
  partitions : s'.partitions.map (fun p => (p.firstLba, p.lastLba)) =
    s.partitions.map (fun p => (p.firstLba, p.lastLba)) ++
      (entries.filter fun p => ¬(gptEntry buffer p).Unused ∧ ¬(gptEntry buffer p).TooFar).map
        fun p => ((gptEntry buffer p).firstLba, (gptEntry buffer p).lastLba)
  counted : Counted s → Counted s'

namespace Probed

variable {buffer : Nat → U8} {entries : List Nat} {s s' : GptProbe} {p : Nat}

theorem nil (buffer : Nat → U8) (s : GptProbe) : Probed buffer [] s s :=
  ⟨(List.append_nil _).symm, (List.append_nil _).symm, (List.append_nil _).symm, id⟩

theorem tooFar (h : (gptEntry buffer p).TooFar) (s : GptProbe) :
    Probed buffer [p] s (s.read (gptOffset buffer p).toNat (gptEntry buffer p)) := by
  refine ⟨rfl, ?_, ?_, fun hc => ⟨hc.next, hc.numbers⟩⟩
  · simp [h, GptProbe.read]
  · simp [h, GptProbe.read]

theorem unused (h : (gptEntry buffer p).Unused)
    (hrest : Probed buffer entries ((s.read (gptOffset buffer p).toNat (gptEntry buffer p)).visit
      (gptEntry buffer p)) s') : Probed buffer (p :: entries) s s' := by
  have hnear := h.not_tooFar
  refine ⟨?_, ?_, ?_, fun hc => hrest.counted ⟨hc.next, hc.numbers⟩⟩
  · simp [hrest.reads, GptProbe.read, GptProbe.visit]
  · simp [hrest.visited, hnear, GptProbe.read, GptProbe.visit]
  · simp [hrest.partitions, h, GptProbe.read, GptProbe.visit]

theorem used (h : ¬(gptEntry buffer p).Unused) (hnear : ¬(gptEntry buffer p).TooFar)
    (disk : Nat) (pnum : U32)
    (hrest : Probed buffer entries (((s.read (gptOffset buffer p).toNat (gptEntry buffer p)).visit
      (gptEntry buffer p)).register disk pnum (gptEntry buffer p)) s') :
    Probed buffer (p :: entries) s s' := by
  have hhigh : (gptEntry buffer p).firstLbaHigh = 0 ∧ (gptEntry buffer p).lastLbaHigh = 0 := by
    have hnot := not_and.mp hnear h
    rw [not_or, not_not, not_not] at hnot
    exact hnot
  have hfirst := GptPartitionEntry.setWidth_low (gptEntry buffer p).firstLbaLow hhigh.1
  have hlast := GptPartitionEntry.setWidth_low (gptEntry buffer p).lastLbaLow hhigh.2
  refine ⟨?_, ?_, ?_, fun hc => hrest.counted ?_⟩
  · simp [hrest.reads, GptProbe.read, GptProbe.visit, GptProbe.register]
  · simp [hrest.visited, hnear, GptProbe.read, GptProbe.visit, GptProbe.register]
  · simp [hrest.partitions, h, hnear, GptProbe.read, GptProbe.visit, GptProbe.register,
      GptPartitionEntry.firstLba, GptPartitionEntry.lastLba, hfirst, hlast]
  · have hvisited : Counted ((s.read (gptOffset buffer p).toNat (gptEntry buffer p)).visit
        (gptEntry buffer p)) := ⟨hc.next, hc.numbers⟩
    exact hvisited.register disk pnum (gptEntry buffer p)

end Probed

end GptProbe

theorem probeEntries_succ (disk : Nat) (buffer : Nat → U8) (left p : Nat) (s : GptProbe) :
    probeEntries disk buffer (gptEntrySize buffer) (left + 1) (BitVec.ofNat 32 p) s =
      if gptEntrySize buffer + gptOffset buffer p > 20480 then s
      else
        let s := s.read (gptOffset buffer p).toNat (gptEntry buffer p)
        if (gptEntry buffer p).Unused then
          probeEntries disk buffer (gptEntrySize buffer) left (BitVec.ofNat 32 (p + 1))
            (s.visit (gptEntry buffer p))
        else if (gptEntry buffer p).firstLbaHigh ≠ 0 then s
        else if (gptEntry buffer p).lastLbaHigh ≠ 0 then s
        else
          probeEntries disk buffer (gptEntrySize buffer) left (BitVec.ofNat 32 (p + 1))
            ((s.visit (gptEntry buffer p)).register disk (BitVec.ofNat 32 p)
              (gptEntry buffer p)) := by
  rw [BitVec.ofNat_add]
  rfl

theorem probeEntries_probed (disk : Nat) (buffer : Nat → U8) (left p : Nat) (s : GptProbe) :
    GptProbe.Probed buffer ((List.range' p left).filter (ReadsEntry buffer p ·)) s
      (probeEntries disk buffer (gptEntrySize buffer) left (BitVec.ofNat 32 p) s) := by
  induction left generalizing p s with
  | zero => exact .nil buffer s
  | succ left ih =>
    rw [probeEntries_succ]
    by_cases hcheck : PassesCheck buffer p
    · rw [if_neg (BitVec.not_lt.mpr hcheck)]
      dsimp only
      by_cases hunused : (gptEntry buffer p).Unused
      · rw [if_pos hunused, filter_visited hcheck hunused.not_tooFar]
        exact .unused hunused (ih _ _)
      · rw [if_neg hunused]
        by_cases hfirst : (gptEntry buffer p).firstLbaHigh ≠ 0
        · have hfar : (gptEntry buffer p).TooFar := ⟨hunused, .inl hfirst⟩
          rw [if_pos hfirst, filter_tooFar hcheck hfar]
          exact .tooFar hfar s
        · rw [if_neg hfirst]
          by_cases hlast : (gptEntry buffer p).lastLbaHigh ≠ 0
          · have hfar : (gptEntry buffer p).TooFar := ⟨hunused, .inr hlast⟩
            rw [if_pos hlast, filter_tooFar hcheck hfar]
            exact .tooFar hfar s
          · have hnear : ¬(gptEntry buffer p).TooFar := fun h => h.2.elim hfirst hlast
            rw [if_neg hlast, filter_visited hcheck hnear]
            exact .used hunused hnear disk _ (ih _ _)
    · rw [if_pos (BitVec.not_le.mp hcheck), filter_stopped hcheck]
      exact .nil buffer s

theorem nvmepartProbe_probed (disk : Nat) (buffer : Nat → U8) (s : GptProbe) :
    GptProbe.Probed buffer (gptEntriesRead buffer) s (nvmepartProbe disk buffer s) := by
  rw [nvmepartProbe, gptEntriesRead]
  split
  · rw [List.range_eq_range']
    exact probeEntries_probed disk buffer _ 0 s
  · exact .nil buffer s

namespace GptProbe

/-- What the probes of some disks do, one after the other. -/
structure AllProbed (buffers : List (Nat → U8)) (s s' : GptProbe) : Prop where
  reads : s'.reads = s.reads ++ buffers.flatMap fun buffer => (gptEntriesRead buffer).map
    fun p => ((gptOffset buffer p).toNat, (gptEntry buffer p).extent)
  length : s'.partitions.length = s.partitions.length + (buffers.map usedEntries).sum
  counted : Counted s → Counted s'
  partitions : s.partitions.map (fun p => (p.firstLba, p.lastLba)) =
      (s.visited.filter fun pe => ¬pe.Unused).map (fun pe => (pe.firstLba, pe.lastLba)) →
    s'.partitions.map (fun p => (p.firstLba, p.lastLba)) =
      (s'.visited.filter fun pe => ¬pe.Unused).map (fun pe => (pe.firstLba, pe.lastLba))

theorem Probed.length {buffer : Nat → U8} {s s' : GptProbe}
    (h : Probed buffer (gptEntriesRead buffer) s s') :
    s'.partitions.length = s.partitions.length + usedEntries buffer := by
  have hlength := congrArg List.length h.partitions
  rw [List.length_map, List.length_append, List.length_map, List.length_map,
    ← List.countP_eq_length_filter] at hlength
  exact hlength

theorem Probed.matched {buffer : Nat → U8} {entries : List Nat} {s s' : GptProbe}
    (h : Probed buffer entries s s')
    (hs : s.partitions.map (fun p => (p.firstLba, p.lastLba)) =
      (s.visited.filter fun pe => ¬pe.Unused).map (fun pe => (pe.firstLba, pe.lastLba))) :
    s'.partitions.map (fun p => (p.firstLba, p.lastLba)) =
      (s'.visited.filter fun pe => ¬pe.Unused).map (fun pe => (pe.firstLba, pe.lastLba)) := by
  rw [h.partitions, h.visited, hs, List.filter_append, List.map_append, List.filter_map,
    List.map_map, List.filter_filter]
  congr 3
  funext p
  simp

theorem nvmepartProbeAll_probed (disk : Nat) (buffers : List (Nat → U8)) (s : GptProbe) :
    AllProbed buffers s (nvmepartProbeAll disk buffers s) := by
  induction buffers generalizing disk s with
  | nil => exact ⟨(List.append_nil _).symm, rfl, id, id⟩
  | cons buffer buffers ih =>
    have hfirst := nvmepartProbe_probed disk buffer s
    have hrest := ih (disk + 1) (nvmepartProbe disk buffer s)
    refine ⟨?_, ?_, hrest.counted ∘ hfirst.counted, hrest.partitions ∘ hfirst.matched⟩
    · rw [nvmepartProbeAll, hrest.reads, hfirst.reads, List.append_assoc, List.flatMap_cons]
    · rw [nvmepartProbeAll, hrest.length, hfirst.length, List.map_cons, List.sum_cons,
        Nat.add_assoc]

theorem Counted.slots_iff {s : GptProbe} (h : Counted s) :
    (∀ p ∈ s.partitions, p.deviceNumber.toNat < maxNvmepartDevices) ↔
      s.partitions.length ≤ maxNvmepartDevices := by
  have hall : (∀ p ∈ s.partitions, p.deviceNumber.toNat < maxNvmepartDevices) ↔
      ∀ n ∈ s.partitions.map ProbedPartition.deviceNumber, n.toNat < maxNvmepartDevices := by
    rw [List.forall_mem_map]
  rw [hall, h.numbers, List.forall_mem_map]
  constructor
  · intro hslots
    by_contra hlong
    have hlast : (BitVec.ofNat 16 64).toNat < maxNvmepartDevices :=
      hslots 64 (List.mem_range.mpr (Nat.lt_of_not_le hlong))
    revert hlast
    decide
  · intro hshort n hn
    have hlt := List.mem_range.mp hn
    rw [maxNvmepartDevices] at hshort ⊢
    rw [BitVec.toNat_ofNat]
    omega

end GptProbe

section

variable {buffer : Nat → U8} {p q : Nat}

theorem mem_gptEntriesRead : p ∈ gptEntriesRead buffer ↔
    HasGpt buffer ∧ p < (numPartitionEntries buffer).toNat ∧ ReadsEntry buffer 0 p := by
  rw [gptEntriesRead]
  split
  · next hgpt => simp [hgpt]
  · next hgpt => simp [hgpt]

theorem passesCheck_iff : PassesCheck buffer p ↔
    ((gptEntrySize buffer).toNat + (gptOffset buffer p).toNat) % 2 ^ 32 ≤ 20480 := by
  rw [PassesCheck, BitVec.le_def, BitVec.toNat_add]
  exact Iff.rfl

theorem gptOffset_next (buffer : Nat → U8) (p : Nat) : (gptOffset buffer (p + 1)).toNat =
    ((gptOffset buffer p).toNat + (gptEntrySize buffer).toNat) % 2 ^ 32 := by
  rw [gptOffset_succ, BitVec.toNat_add]

theorem gptOffset_first (buffer : Nat → U8) : (gptOffset buffer 0).toNat = 0x400 := by
  rw [gptOffset_zero]
  rfl

/-- Entries of less than 128 bytes lie one behind the other. -/
theorem gptOffset_small (hsize : (gptEntrySize buffer).toNat < 128)
    (h : ∀ j < p, PassesCheck buffer j) :
    (gptOffset buffer p).toNat = 0x400 + p * (gptEntrySize buffer).toNat ∧
      (gptOffset buffer p).toNat ≤ 20480 := by
  induction p with
  | zero =>
    rw [gptOffset_first, Nat.zero_mul]
    exact ⟨rfl, by decide⟩
  | succ p ih =>
    obtain ⟨heq, hle⟩ := ih fun j hj => h j (by omega)
    have hcheck := passesCheck_iff.mp (h p (Nat.lt_succ_self p))
    rw [gptOffset_next, Nat.succ_mul]
    omega

/-- Larger ones either lie before the end of the buffer, or in front of each other when
their size is negative as a signed number. -/
theorem gptOffset_large (h : ∀ j < p, PassesCheck buffer j) :
    (gptOffset buffer p).toNat ≤ 20480 ∧
      (2 ^ 32 - 20480 ≤ (gptEntrySize buffer).toNat → (gptOffset buffer p).toNat ≤ 0x400) := by
  induction p with
  | zero =>
    rw [gptOffset_first]
    exact ⟨by decide, fun _ => Nat.le_refl _⟩
  | succ p ih =>
    obtain ⟨hle, hfirst⟩ := ih fun j hj => h j (by omega)
    have hcheck := passesCheck_iff.mp (h p (Nat.lt_succ_self p))
    have hsize := (gptEntrySize buffer).isLt
    rw [gptOffset_next]
    omega

theorem entryInside_iff (h : ReadsEntry buffer 0 p) :
    (gptOffset buffer p).toNat + (gptEntry buffer p).extent ≤ diskStartLength ↔
      EntryInside buffer p := by
  have hbefore : ∀ j < p, PassesCheck buffer j :=
    fun j hj => h.1 j (Nat.le_of_lt hj) (Nat.zero_le j)
  have hcheck := passesCheck_iff.mp (h.1 p (Nat.le_refl p) (Nat.zero_le p))
  have hextent := (gptEntry buffer p).extent_le
  have hlength : diskStartLength = 20480 := rfl
  rw [EntryInside, hlength]
  by_cases hsize : (gptEntrySize buffer).toNat < 128
  · obtain ⟨heq, -⟩ := gptOffset_small hsize hbefore
    rw [heq]
    omega
  · obtain ⟨hle, hfirst⟩ := gptOffset_large hbefore
    omega

end

/-- The probes are sound exactly when every entry that they read is large enough or ends in
the buffer, and the table has room for the used entries of all disks. -/
theorem gpt_probe_sound_iff (buffers : List (Nat → U8)) :
    (nvmepartProbeAll 0 buffers GptProbe.init).Sound ↔
      (∀ buffer ∈ buffers, ∀ p ∈ gptEntriesRead buffer, EntryInside buffer p) ∧
        (buffers.map usedEntries).sum ≤ maxNvmepartDevices := by
  have hall := GptProbe.nvmepartProbeAll_probed 0 buffers GptProbe.init
  have hslots := (hall.counted GptProbe.init_counted).slots_iff
  have hlength : (nvmepartProbeAll 0 buffers GptProbe.init).partitions.length =
      (buffers.map usedEntries).sum := by
    rw [hall.length]
    exact Nat.zero_add _
  have hreads : (∀ read ∈ (nvmepartProbeAll 0 buffers GptProbe.init).reads,
      read.1 + read.2 ≤ diskStartLength) ↔
        ∀ buffer ∈ buffers, ∀ p ∈ gptEntriesRead buffer, EntryInside buffer p := by
    rw [hall.reads]
    constructor
    · intro h buffer hbuffer p hp
      have hin := h ((gptOffset buffer p).toNat, (gptEntry buffer p).extent)
        (List.mem_append_right _ (List.mem_flatMap.mpr ⟨buffer, hbuffer, List.mem_map_of_mem hp⟩))
      exact (entryInside_iff (mem_gptEntriesRead.mp hp).2.2).mp hin
    · intro h read hread
      rcases List.mem_append.mp hread with hread | hread
      · cases hread
      · obtain ⟨buffer, hbuffer, hmem⟩ := List.mem_flatMap.mp hread
        obtain ⟨p, hp, rfl⟩ := List.mem_map.mp hmem
        exact (entryInside_iff (mem_gptEntriesRead.mp hp).2.2).mpr (h buffer hbuffer p hp)
  rw [hlength] at hslots
  constructor
  · exact fun h => ⟨hreads.mp h.reads, hslots.mp h.slots⟩
  · exact fun h => ⟨hreads.mpr h.1, hslots.mpr h.2, hall.partitions rfl⟩

/-- The start of a disk with a partition table of 0x8000 entries of one byte, all zero. -/
def smallEntries : Nat → U8 :=
  fun i => ([69, 70, 73, 32, 80, 65, 82, 84] ++ List.replicate 72 0 ++ [0, 0x80, 0, 0, 1]
    : List U8).getD (i - 0x200) 0

theorem smallEntries_unused {o : Nat} (ho : 0x400 ≤ o) :
    (gptPartitionEntry smallEntries o).Unused := by
  have hzero : ∀ i, 0x400 ≤ i → smallEntries i = 0 := by
    intro i hi
    have hlength : ([69, 70, 73, 32, 80, 65, 82, 84] ++ List.replicate 72 0 ++ [0, 0x80, 0, 0, 1]
        : List U8).length ≤ i - 0x200 := by
      have hlist : ([69, 70, 73, 32, 80, 65, 82, 84] ++ List.replicate 72 0 ++ [0, 0x80, 0, 0, 1]
        : List U8).length = 85 := rfl
      omega
    rw [smallEntries, List.getD_eq_getElem?_getD, List.getElem?_eq_none hlength]
    rfl
  have hword : ∀ i, 0x400 ≤ i → le32 smallEntries i = 0 := by
    intro i hi
    rw [le32, le16, le16, hzero i hi, hzero (i + 1) (by omega), hzero (i + 2) (by omega),
      hzero (i + 2 + 1) (by omega)]
    rfl
  rw [GptPartitionEntry.Unused, gptPartitionEntry, List.map_eq_replicate_iff.mpr]
  · rfl
  · intro i hi
    exact hword _ (by omega)

theorem smallEntries_offset {p : Nat} (hp : p < 0x8000) :
    (gptOffset smallEntries p).toNat = 0x400 + p := by
  induction p with
  | zero => exact gptOffset_first _
  | succ p ih =>
    have hsize : (gptEntrySize smallEntries).toNat = 1 := by decide
    rw [gptOffset_next, ih (by omega), hsize]
    omega

/-- The type of an entry in the last byte of the buffer is read behind it. -/
theorem gpt_reads_past_buffer : ¬ ∀ buffers : List (Nat → U8),
    (nvmepartProbeAll 0 buffers GptProbe.init).Sound := by
  intro h
  have hsize : (gptEntrySize smallEntries).toNat = 1 := by decide
  have hunused : ∀ p < 0x8000, (gptEntry smallEntries p).Unused := by
    intro p hp
    refine smallEntries_unused ?_
    rw [smallEntries_offset hp]
    exact Nat.le_add_right _ _
  have hreads : ReadsEntry smallEntries 0 19455 := by
    constructor
    · intro j hj _
      rw [passesCheck_iff, hsize, smallEntries_offset (by omega)]
      omega
    · exact fun j hj _ => (hunused j (by omega)).not_tooFar
  have hmem : 19455 ∈ gptEntriesRead smallEntries :=
    mem_gptEntriesRead.mpr ⟨by decide, by decide, hreads⟩
  have hall := GptProbe.nvmepartProbeAll_probed 0 [smallEntries] GptProbe.init
  have hin := (h [smallEntries]).reads (0x400 + 19455, 16) (by
    rw [hall.reads]
    refine List.mem_append_right _ (List.mem_flatMap.mpr ⟨_, List.mem_singleton_self _, ?_⟩)
    refine List.mem_map.mpr ⟨19455, hmem, ?_⟩
    rw [smallEntries_offset (by omega), GptPartitionEntry.extent, if_pos (hunused _ (by omega))])
  revert hin
  decide

end Persistos
