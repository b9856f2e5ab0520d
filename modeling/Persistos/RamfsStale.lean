import Persistos.RamfsRuns

/-! Bytes that were never written since the file was last too short for them.
They read as zero unless a call shows bytes that the last cluster has kept. -/

namespace Persistos

open Theory

def FileOp.Writes (p : Nat) : FileOp → Prop
  | .write offset _ length => offset.toNat ≤ p ∧ p < (offset + length).toNat
  | _ => False

/-- The call makes a file of this size reach over the position `p`, without
storing a byte there. -/
def FileOp.Exposes (size p : Nat) : FileOp → Prop
  | .write offset _ length => length ≠ 0 ∧ size ≤ p ∧ p < (offset + length).toNat ∧ p < offset.toNat
  | .setSize newSize => size ≤ p ∧ p < newSize.toNat
  | .read _ _ _ => False

namespace FileOp

variable {op : FileOp} {image : Image} {p : Nat}

theorem exposes_iff : op.Exposes image.size p ↔
    image.size ≤ p ∧ p < (op.onImage image).size ∧ ¬ op.Writes p := by
  cases op with
  | write offset buffer length =>
    rw [Exposes, Writes, onImage, Image.write]
    by_cases hz : length = 0
    · rw [if_pos hz]
      constructor
      · exact fun h => absurd hz h.1
      · exact fun h => absurd h.2.1 (Nat.not_lt.mpr h.1)
    · rw [if_neg hz]
      dsimp only
      split
      · rw [Image.setSize_size]
        constructor
        · exact fun h => ⟨h.2.1, h.2.2.1, by omega⟩
        · exact fun h => ⟨hz, h.1, h.2.1, by omega⟩
      · constructor
        · omega
        · omega
  | setSize size => simp [Exposes, Writes, onImage]
  | read offset buffer length =>
    rw [Exposes, onImage]
    constructor
    · exact False.elim
    · exact fun h => absurd h.2.1 (Nat.not_lt.mpr h.1)

/-- A byte below the new size is the old one, or the one that was stored. -/
theorem onImage_bytes (hp : p < (op.onImage image).size) (hw : ¬ op.Writes p) :
    (op.onImage image).bytes p = image.bytes p := by
  cases op with
  | write offset buffer length =>
    rw [Writes] at hw
    rw [onImage, Image.write] at hp ⊢
    split
    · rfl
    · next hz =>
      rw [if_neg hz] at hp
      dsimp only at hp ⊢
      rw [overlay, if_neg (by omega)]
      split
      · next hlt =>
        rw [if_pos hlt, Image.setSize_size] at hp
        exact image.setSize_bytes_of_lt hp
      · rfl
  | setSize size => exact image.setSize_bytes_of_lt hp
  | read offset buffer length => rfl

end FileOp

theorem RamfsRun.step_files {s t : RamfsRun} {e : RamfsEvent} (h : s.step e = .ok t) :
    ∃ more, t.files = s.files ++ more := by
  cases e with
  | create parentDir name =>
    obtain ⟨⟨f, parent, fs⟩, -, he⟩ := bind_eq_ok h
    cases he
    exact ⟨_, rfl⟩
  | mkdir parentDir name =>
    obtain ⟨⟨f, parent, fs⟩, -, he⟩ := bind_eq_ok h
    cases he
    exact ⟨[], (List.append_nil _).symm⟩
  | file key op =>
    rw [step] at h
    split at h
    · cases h
    · obtain ⟨⟨fs, replies⟩, -, he⟩ := bind_eq_ok h
      cases he
      exact ⟨[], (List.append_nil _).symm⟩

theorem RunInv.image_step {s t : RamfsRun} {events : List RamfsEvent} {e : RamfsEvent}
    (h : RunInv s events) (hs : s.step e = .ok t) {b : Nat} {f : U64}
    (hf : t.files[b]? = some f) :
    (s.files[b]? = none ∧ (t.fs.image f).size = 0) ∨
      s.files[b]? = some f ∧
        (e.on b = [] ∧ t.fs.image f = s.fs.image f ∨
          ∃ op, e = .file b op ∧ t.fs.image f = op.onImage (s.fs.image f)) := by
  have hafter := (h.step hs).files b f hf
  have hone : opsOn b [e] = e.on b := List.flatMap_singleton ..
  rw [opsOn_append, hone, fileAfter, List.foldl_append, ← fileAfter] at hafter
  by_cases hb : b < s.files.length
  · obtain ⟨more, hmore⟩ := RamfsRun.step_files hs
    have hold : s.files[b]? = some f := by
      rw [← hf, hmore, List.getElem?_append_left hb]
    rw [← h.files b f hold] at hafter
    refine Or.inr ⟨hold, ?_⟩
    cases e with
    | create parentDir name => exact Or.inl ⟨rfl, congrArg Prod.fst hafter⟩
    | mkdir parentDir name => exact Or.inl ⟨rfl, congrArg Prod.fst hafter⟩
    | file key op =>
      by_cases hkey : key = b
      · subst hkey
        rw [RamfsEvent.on, if_pos rfl] at hafter
        exact Or.inr ⟨op, rfl, congrArg Prod.fst hafter⟩
      · rw [RamfsEvent.on, if_neg hkey] at hafter ⊢
        exact Or.inl ⟨rfl, congrArg Prod.fst hafter⟩
  · have hnone : s.files[b]? = none := List.getElem?_eq_none (Nat.le_of_not_lt hb)
    have hon : e.on b = [] := by
      cases e with
      | create parentDir name => rfl
      | mkdir parentDir name => rfl
      | file key op =>
        refine if_neg ?_
        intro hkey
        rw [RamfsRun.step, hkey, hnone] at hs
        cases hs
    rw [hon, (h.replies b (Nat.le_of_not_lt hb)).1] at hafter
    exact Or.inl ⟨hnone, congrArg (fun state => state.1.size) hafter⟩

/-- No call has stored a byte at the position since the file was last too short
for it, or since before the file was created. -/
def Unwritten (m : BootMemory) (events : List RamfsEvent) (b p : Nat) : Prop :=
  ∃ before after s, events = before ++ after ∧ (RamfsRun.boot m).run before = .ok s ∧
    (∀ f, s.files[b]? = some f → (s.fs.image f).size ≤ p) ∧
    ∀ op ∈ opsOn b after, ¬ op.Writes p

def ReadsZero (fs : Ramfs) (f : U64) (p : Nat) : Prop :=
  ∀ buffer, ∃ r, ramfsRead fs ⟨f, BitVec.ofNat 64 p⟩ buffer 1 = .ok r ∧
    r.bytesRead = 1 ∧ r.buffer 0 = 0

/-- After the history the bytes of the file that were not written read as zero. -/
def NoStale (m : BootMemory) (events : List RamfsEvent) (b : Nat) : Prop :=
  ∀ s f, (RamfsRun.boot m).run events = .ok s → s.files[b]? = some f →
    ∀ p < (s.fs.image f).size, Unwritten m events b p → ReadsZero s.fs f p

/-- No call on the file shows a byte behind its size that is not zero. -/
def ClearSlack (m : BootMemory) (events : List RamfsEvent) (b : Nat) : Prop :=
  ∀ before op after s t f, events = before ++ .file b op :: after →
    (RamfsRun.boot m).run before = .ok s → s.step (.file b op) = .ok t →
    s.files[b]? = some f → ∀ p, op.Exposes (s.fs.image f).size p → (s.fs.image f).bytes p = 0

theorem RamfsInv.readsZero_iff {fs : Ramfs} {files : List U64} (h : RamfsInv fs files) {f : U64}
    (hf : f ∈ files) {p : Nat} (hp : p < (fs.image f).size) :
    ReadsZero fs f p ↔ (fs.image f).bytes p = 0 := by
  have hsize := (h.sized f hf).size_le
  have hlt : p < 2 ^ 64 - 128 := Nat.lt_of_lt_of_le hp hsize
  have hoffset : (BitVec.ofNat 64 p).toNat = p := by
    rw [BitVec.toNat_ofNat]
    omega
  have hone : (1 : U64).toNat = 1 := rfl
  have hcount : (fs.image f).readCount p 1 = 1 := by
    rw [Image.readCount, if_pos (Nat.le_of_lt hp)]
    omega
  have hread : ∀ buffer, ramfsRead fs ⟨f, BitVec.ofNat 64 p⟩ buffer 1 = .ok
      ⟨1, File.advance ⟨f, BitVec.ofNat 64 p⟩ 1,
        overlay buffer 0 1 fun i => (fs.image f).bytes (p + i), fs⟩ := by
    intro buffer
    have hfile : (File.mk f (BitVec.ofNat 64 p)).inode ∈ files := hf
    have hok := @Image.read_eq_ok (fs.image f) (BitVec.ofNat 64 p) buffer 1
      (by rw [hoffset, hone]; omega) (Or.inl (by rw [hoffset]; exact Nat.le_of_lt hp))
    rw [hoffset] at hok
    rw [h.read_eq hfile]
    dsimp only
    rw [hok, ok_bind, hone, hcount]
    rfl
  constructor
  · intro hz
    obtain ⟨r, hr, -, hbyte⟩ := hz fun _ => 0
    obtain rfl := Except.ok.inj ((hread _).symm.trans hr)
    exact hbyte
  · exact fun hz buffer => ⟨_, hread buffer, rfl, hz⟩

variable {m : BootMemory} {events : List RamfsEvent} {b : Nat}

theorem opsOn_singleton (b : Nat) (e : RamfsEvent) : opsOn b [e] = e.on b :=
  List.flatMap_singleton ..

/-- A position below the size is unwritten after a call only if it was before
and the call did not store a byte there. -/
theorem Unwritten.before {e : RamfsEvent} {t : RamfsRun} {f : U64} {p : Nat}
    (ht : (RamfsRun.boot m).run (events ++ [e]) = .ok t) (hf : t.files[b]? = some f)
    (hp : p < (t.fs.image f).size) (h : Unwritten m (events ++ [e]) b p) :
    Unwritten m events b p ∧ ∀ op ∈ e.on b, ¬ op.Writes p := by
  obtain ⟨before, after, s, hsplit, hrun, hsize, hops⟩ := h
  rcases List.eq_nil_or_concat after with rfl | ⟨after', e', rfl⟩
  · rw [List.append_nil] at hsplit
    rw [← hsplit, ht] at hrun
    cases hrun
    exact absurd hp (Nat.not_lt.mpr (hsize f hf))
  · rw [List.concat_eq_append, ← List.append_assoc] at hsplit
    obtain ⟨rfl, he⟩ := List.append_inj' hsplit rfl
    cases he
    rw [List.concat_eq_append, opsOn_append, opsOn_singleton] at hops
    refine ⟨⟨before, after', s, rfl, hrun, hsize, ?_⟩, ?_⟩
    · exact fun op hop => hops op (List.mem_append_left _ hop)
    · exact fun op hop => hops op (List.mem_append_right _ hop)

theorem ClearSlack.of_append {more : List RamfsEvent} (h : ClearSlack m (events ++ more) b) :
    ClearSlack m events b := by
  intro before op after s t f hsplit
  refine h before op (after ++ more) s t f ?_
  rw [hsplit, List.append_assoc, List.cons_append]

/-- Every unwritten byte is zero, by induction on the history. -/
theorem ClearSlack.noStale (h : ClearSlack m events b) : NoStale m events b := by
  induction events using List.reverseRecOn with
  | nil =>
    intro s f hrun hf
    cases hrun
    cases hf
  | append_singleton events e ih =>
    intro t f ht hf p hp hun
    obtain ⟨s, hrun, hstep⟩ := RamfsRun.run_concat_ok.mp ht
    have hs := RunInv.run events hrun
    have htinv := (RunInv.run _ ht).inv
    obtain ⟨hbefore, hwrites⟩ := hun.before ht hf hp
    rw [htinv.readsZero_iff (List.mem_of_getElem? hf) hp]
    have hzero : s.files[b]? = some f → p < (s.fs.image f).size → (s.fs.image f).bytes p = 0 :=
      fun hold hlt => (hs.inv.readsZero_iff (List.mem_of_getElem? hold) hlt).mp
        (ih h.of_append s f hrun hold p hlt hbefore)
    rcases hs.image_step hstep hf with ⟨-, hnew⟩ | ⟨hold, ⟨-, himage⟩ | ⟨op, rfl, himage⟩⟩
    · rw [hnew] at hp
      exact absurd hp (Nat.not_lt_zero p)
    · rw [himage] at hp ⊢
      exact hzero hold hp
    · have hw : ¬ op.Writes p := hwrites op (by rw [RamfsEvent.on, if_pos rfl]; simp)
      rw [himage] at hp ⊢
      rw [FileOp.onImage_bytes hp hw]
      by_cases hlt : p < (s.fs.image f).size
      · exact hzero hold hlt
      · have hexposes := FileOp.exposes_iff.mpr ⟨Nat.le_of_not_lt hlt, hp, hw⟩
        exact h events op [] s t f rfl hrun hstep hold p hexposes

theorem ClearSlack.of_noStale
    (h : ∀ before after, events = before ++ after → NoStale m before b) :
    ClearSlack m events b := by
  intro before op after s t f hsplit hrun hstep hf p hexposes
  have hs := RunInv.run before hrun
  obtain ⟨hle, hlt, hw⟩ := FileOp.exposes_iff.mp hexposes
  have ht : (RamfsRun.boot m).run (before ++ [.file b op]) = .ok t :=
    RamfsRun.run_concat_ok.mpr ⟨s, hrun, hstep⟩
  have htf : t.files[b]? = some f := by
    obtain ⟨more, hmore⟩ := RamfsRun.step_files hstep
    rw [hmore, List.getElem?_append_left (List.getElem?_eq_some_iff.mp hf).1, hf]
  have himage : t.fs.image f = op.onImage (s.fs.image f) := by
    rcases hs.image_step hstep htf with ⟨hnone, -⟩ | ⟨-, ⟨hon, -⟩ | ⟨op', he, himage⟩⟩
    · rw [hnone] at hf
      cases hf
    · rw [RamfsEvent.on, if_pos rfl] at hon
      cases hon
    · cases he
      exact himage
  have hun : Unwritten m (before ++ [.file b op]) b p := by
    refine ⟨before, [.file b op], s, rfl, hrun, ?_, ?_⟩
    · intro g hg
      obtain rfl := Option.some.inj (hf.symm.trans hg)
      exact hle
    · intro op' hop
      rw [opsOn_singleton, RamfsEvent.on, if_pos rfl, List.mem_singleton] at hop
      exact hop ▸ hw
  have hzero := h (before ++ [.file b op]) after (by rw [hsplit, List.append_assoc]; rfl)
    t f ht htf p (himage ▸ hlt) hun
  rw [(RunInv.run _ ht).inv.readsZero_iff (List.mem_of_getElem? htf) (himage ▸ hlt), himage,
    FileOp.onImage_bytes hlt hw] at hzero
  exact hzero

/-- Nothing shows of the bytes behind `n` that cutting the file there keeps,
up to the position `k`. -/
def Image.ClearUpTo (image : Image) (n k : Nat) : Prop :=
  ∀ i, n ≤ i → i < k → i < 128 * Image.clustersFor n → image.bytes i = 0

theorem Image.slice_setSize_iff (image : Image) {n k : Nat} (hn : n ≤ image.size) (hk : n ≤ k) :
    slice (image.setSize n).bytes 0 k = image.content.take n ++ List.replicate (k - n) 0 ↔
      image.ClearUpTo n k := by
  obtain ⟨d, rfl⟩ := Nat.exists_eq_add_of_le hk
  have hkept := image.content_setSize_of_le hn
  rw [content, setSize_size] at hkept
  rw [slice_add, hkept, List.append_cancel_left_eq, Nat.zero_add, Nat.add_sub_cancel_left,
    slice_eq_replicate_iff]
  constructor
  · intro h i hlo hhi hin
    have hi := h (i - n) (by omega)
    rw [Nat.add_sub_cancel' hlo] at hi
    exact (if_pos hin).symm.trans hi
  · intro h i hi
    rw [setSize]
    dsimp only
    split
    · next hin => exact h _ (Nat.le_add_right n i) (by omega) hin
    · rfl

theorem Image.content_regrow_iff (image : Image) {n k : Nat} (hn : n ≤ image.size) (hk : n ≤ k) :
    ((image.setSize n).setSize k).content = image.content.take n ++ List.replicate (k - n) 0 ↔
      image.ClearUpTo n k := by
  have hshown : ((image.setSize n).setSize k).content = slice (image.setSize n).bytes 0 k :=
    slice_congr fun i hi => (image.setSize n).setSize_bytes_of_lt (by rwa [Nat.zero_add])
  rw [hshown, image.slice_setSize_iff hn hk]

theorem Image.content_setSize_write_iff (image : Image) {n : Nat} (hn : n ≤ image.size)
    {offset length : U64} (buffer : Nat → U8) (ho : n ≤ offset.toNat) (hz : length ≠ 0)
    (h : offset.toNat + length.toNat < 2 ^ 64) :
    ((image.setSize n).write offset buffer length).content =
        image.content.take n ++ List.replicate (offset.toNat - n) 0 ++
          slice buffer 0 length.toNat ↔
      image.ClearUpTo n offset.toNat := by
  have hnil : (image.setSize n).content.drop (offset.toNat + length.toNat) = [] := by
    rw [content, slice_drop, setSize_size, Nat.sub_eq_zero_of_le (by omega)]
    rfl
  rw [content_write_any buffer hz h, hnil, List.append_nil, List.append_cancel_right_eq,
    image.slice_setSize_iff hn ho]

/-- Exactly when no history shows stale bytes, and what cutting a file and
lengthening it again leaves. -/
theorem no_stale_bytes_iff (m : BootMemory) (events : List RamfsEvent) (b : Nat) :
    ((∀ before after, events = before ++ after → NoStale m before b) ↔ ClearSlack m events b) ∧
    ∀ s filp fs₁ n, (RamfsRun.boot m).run events = .ok s → s.files[b]? = some filp.inode →
      n.toNat ≤ (s.fs.image filp.inode).size → ramfsSetSize s.fs filp n = .ok (0, fs₁) →
      (∀ k fs₂, n.toNat ≤ k.toNat → ramfsSetSize fs₁ filp k = .ok (0, fs₂) →
        ((fs₂.image filp.inode).content = (s.fs.image filp.inode).content.take n.toNat ++
            List.replicate (k.toNat - n.toNat) 0 ↔
          (s.fs.image filp.inode).ClearUpTo n.toNat k.toNat)) ∧
      ∀ buffer length fs₂, n.toNat ≤ filp.offset.toNat → length ≠ 0 →
        filp.offset.toNat + length.toNat < 2 ^ 64 →
        ramfsWrite fs₁ filp buffer length = .ok (length, fs₂) →
        ((fs₂.image filp.inode).content = (s.fs.image filp.inode).content.take n.toNat ++
            List.replicate (filp.offset.toNat - n.toNat) 0 ++ slice buffer 0 length.toNat ↔
          (s.fs.image filp.inode).ClearUpTo n.toNat filp.offset.toNat) := by
  refine ⟨⟨ClearSlack.of_noStale, ?_⟩, ?_⟩
  · intro h before after hsplit
    subst hsplit
    exact h.of_append.noStale
  · intro s filp fs₁ n hrun hb hn hcut
    have hf := List.mem_of_getElem? hb
    have hcall := (RunInv.run events hrun).inv.setSize_ok hf hcut
    constructor
    · intro k fs₂ hk hgrow
      rw [(hcall.inv.setSize_ok hf hgrow).image, hcall.image]
      exact Image.content_regrow_iff _ hn hk
    · intro buffer length fs₂ ho hz hlen hw
      rw [(hcall.inv.write_ok hf hw).2.image, hcall.image]
      exact Image.content_setSize_write_iff _ hn buffer ho hz hlen

/-- Bytes of a file that was cut to 10 bytes appear when it is lengthened to 100. -/
theorem truncate_shows_stale_bytes : ¬ NoStale (fourPages 0)
    [.create rootDirectory [0x61], .file 0 (.write 0 (fun _ => 0x41) 200), .file 0 (.setSize 10),
      .file 0 (.setSize 100)] 0 := by
  intro h
  obtain ⟨s, hrun, hs⟩ := RamfsRun.exists_of_map (fourPages 0)
    [.create rootDirectory [0x61], .file 0 (.write 0 (fun _ => 0x41) 200), .file 0 (.setSize 10)]
    (fun s => (s.files, (s.fs.image 0x1030).size)) ([0x1030], 10) (by decide +kernel)
  obtain ⟨t, htrun, ht⟩ := RamfsRun.exists_of_map (fourPages 0)
    [.create rootDirectory [0x61], .file 0 (.write 0 (fun _ => 0x41) 200), .file 0 (.setSize 10),
      .file 0 (.setSize 100)]
    (fun t => (t.files, (t.fs.image 0x1030).size,
      (ramfsRead t.fs ⟨0x1030, 50⟩ (fun _ => 0) 1).map fun r => r.buffer 0))
    ([0x1030], 100, .ok 0x41) (by decide +kernel)
  obtain ⟨hfiles, hsize⟩ := Prod.mk.inj hs
  obtain ⟨htfiles, htsize, hread⟩ : t.files = [0x1030] ∧ (t.fs.image 0x1030).size = 100 ∧
    (ramfsRead t.fs ⟨0x1030, 50⟩ (fun _ => 0) 1).map (fun r => r.buffer 0) = .ok 0x41 := by
    simpa using ht
  have hun : Unwritten (fourPages 0)
      [.create rootDirectory [0x61], .file 0 (.write 0 (fun _ => 0x41) 200),
        .file 0 (.setSize 10), .file 0 (.setSize 100)] 0 50 := by
    refine ⟨_, [.file 0 (.setSize 100)], s, rfl, hrun, ?_, ?_⟩
    · intro f hf
      obtain rfl : 0x1030 = f := by simpa [hfiles] using hf
      rw [hsize]
      decide
    · intro op hop
      obtain rfl := List.mem_singleton.mp hop
      exact id
  obtain ⟨r, hr, -, hbyte⟩ := h t 0x1030 htrun (by rw [htfiles]; rfl) 50
    (by rw [htsize]; decide) hun fun _ => 0
  have hstale : r.buffer 0 = 0x41 := by
    rw [show (⟨0x1030, 50⟩ : File) = ⟨0x1030, BitVec.ofNat 64 50⟩ from rfl, hr] at hread
    exact Except.ok.inj hread
  rw [hstale] at hbyte
  exact absurd hbyte (by decide)

end Persistos
