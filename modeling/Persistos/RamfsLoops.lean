import Persistos.Ramfs

/-! The copy loops of `ramfs_read` and `ramfs_write`. Each cluster contributes
the overlap of its range with the range of the call. -/

namespace Persistos

open Theory

abbrev clusterBytes (data : U64 → Nat → U8) (clusters : List U64) : Nat → U8 :=
  joinBlocks 128 0 (clusters.map data)

theorem clusterBytes_cons (data : U64 → Nat → U8) (cluster : U64) (rest : List U64) (i : Nat) :
    clusterBytes data (cluster :: rest) i =
      if i < 128 then data cluster i else clusterBytes data rest (i - 128) := rfl

theorem clusterBytes_congr {data data' : U64 → Nat → U8} {clusters : List U64}
    (h : ∀ y ∈ clusters, data y = data' y) :
    clusterBytes data clusters = clusterBytes data' clusters :=
  congrArg (joinBlocks 128 0) (List.map_congr_left h)

theorem clusterBytes_modify (slab : Slab (Nat → U8)) {cluster : U64} {clusters : List U64}
    (h : cluster ∉ clusters) (f : (Nat → U8) → Nat → U8) :
    clusterBytes (slab.modify cluster f).objects clusters = clusterBytes slab.objects clusters :=
  clusterBytes_congr fun _ hy => slab.modify_objects_ne (ne_of_mem_of_not_mem hy h) f

/-- Where a cluster starts, and that the next one starts below `2 ^ 64`. -/
structure ClusterStart (clusterStart limit : U64) : Prop where
  aligned : clusterStart.toNat % 128 = 0
  limit_le : limit.toNat ≤ 2 ^ 64 - 128

theorem ClusterStart.next {clusterStart limit : U64} (h : ClusterStart clusterStart limit)
    (hlt : clusterStart < limit) :
    ClusterStart (clusterStart + 128) limit ∧
      (clusterStart + 128).toNat = clusterStart.toNat + 128 := by
  have hal := h.aligned
  have hlim := h.limit_le
  have hh : (clusterStart + 128).toNat = clusterStart.toNat + 128 := by bv_omega
  exact ⟨⟨by omega, hlim⟩, hh⟩

theorem copiedStart_toNat (start clusterStart : U64) :
    (copiedStart start clusterStart).toNat = max start.toNat clusterStart.toNat := by
  rw [copiedStart]
  split <;> bv_omega

theorem copiedEnd_toNat (stop clusterEnd : U64) :
    (copiedEnd stop clusterEnd).toNat = min stop.toNat clusterEnd.toNat := by
  rw [copiedEnd]
  split <;> bv_omega

/-- A pass copies the positions from `first` to `last`, the overlap of the range
of the call with the range of the cluster. -/
structure Overlap (start stop clusterStart : U64) (first last : Nat) : Prop where
  start_le : start.toNat ≤ first
  cluster_le : clusterStart.toNat ≤ first
  first_le : first ≤ last
  le_stop : last ≤ stop.toNat
  le_cluster : last ≤ clusterStart.toNat + 128
  first_eq : first = start.toNat ∨ first = clusterStart.toNat
  last_eq : last = stop.toNat ∨ last = clusterStart.toNat + 128
  target : (copiedStart start clusterStart - start).toNat = first - start.toNat
  source : (copiedStart start clusterStart - clusterStart).toNat = first - clusterStart.toNat
  count : (copiedEnd stop (clusterStart + 128) - copiedStart start clusterStart).toNat =
    last - first

theorem exists_overlap {start stop clusterStart : U64} (hle : start.toNat ≤ stop.toNat)
    (hlt : clusterStart.toNat < stop.toNat) (hover : start.toNat < clusterStart.toNat + 128)
    (hnext : (clusterStart + 128).toNat = clusterStart.toNat + 128) :
    ∃ first last, Overlap start stop clusterStart first last := by
  have hs := copiedStart_toNat start clusterStart
  have he := copiedEnd_toNat stop (clusterStart + 128)
  rw [hnext] at he
  refine ⟨(copiedStart start clusterStart).toNat, (copiedEnd stop (clusterStart + 128)).toNat,
    by omega, by omega, by omega, by omega, by omega, by omega, by omega, ?_, ?_, ?_⟩
  · exact BitVec.toNat_sub_of_le (by rw [BitVec.le_def]; omega)
  · exact BitVec.toNat_sub_of_le (by rw [BitVec.le_def]; omega)
  · exact BitVec.toNat_sub_of_le (by rw [BitVec.le_def]; omega)

namespace Overlap

variable {start stop clusterStart : U64} {first last : Nat}

/-- What a pass of `ramfs_read` puts into the buffer. -/
theorem overlay_read (ho : Overlap start stop clusterStart first last) (buffer data : Nat → U8)
    (i : Nat) :
    overlay buffer (first - start.toNat) (last - first)
        (fun j => data (first - clusterStart.toNat + j)) i =
      if first - start.toNat ≤ i ∧ i < last - start.toNat then
        data (start.toNat + i - clusterStart.toNat)
      else buffer i := by
  obtain ⟨hs, hcs, hfl, -, -, -, -, -, -, -⟩ := ho
  rw [overlay]
  by_cases hi : first - start.toNat ≤ i ∧ i < last - start.toNat
  · rw [if_pos hi, if_pos (by omega)]
    exact congrArg data (by omega)
  · rw [if_neg hi, if_neg (by omega)]

/-- What a pass of `ramfs_write` puts into the cluster. -/
theorem overlay_write (ho : Overlap start stop clusterStart first last) (data buffer : Nat → U8)
    (i : Nat) (hi : i < 128) :
    overlay data (first - clusterStart.toNat) (last - first)
        (fun j => buffer (first - start.toNat + j)) i =
      if start.toNat ≤ clusterStart.toNat + i ∧ clusterStart.toNat + i < stop.toNat then
        buffer (clusterStart.toNat + i - start.toNat)
      else data i := by
  obtain ⟨hs, hcs, hfl, hstop, hcluster, hfirst, hlast, -, -, -⟩ := ho
  rw [overlay]
  by_cases hin : start.toNat ≤ clusterStart.toNat + i ∧ clusterStart.toNat + i < stop.toNat
  · rw [if_pos hin, if_pos (by omega)]
    exact congrArg buffer (by omega)
  · rw [if_neg hin, if_neg (by omega)]

end Overlap

/-- A range that ends before it starts has a length near `2 ^ 64`, which no
cluster holds. -/
theorem overlap_reversed {start stop clusterStart clusterEnd : U64}
    (hlt : stop.toNat < start.toNat) (hstart : clusterStart.toNat < stop.toNat)
    (hend : start.toNat < clusterEnd.toNat)
    (hcluster : clusterEnd.toNat = clusterStart.toNat + 128) :
    128 < (copiedStart start clusterStart - clusterStart).toNat +
      (copiedEnd stop clusterEnd - copiedStart start clusterStart).toNat := by
  have hs := copiedStart_toNat start clusterStart
  have he := copiedEnd_toNat stop clusterEnd
  bv_omega

variable {data : U64 → Nat → U8} {buffer : Nat → U8} {readStart readEnd length : U64}

theorem ramfsReadClusters_ok (hle : readStart.toNat ≤ readEnd.toNat)
    (hlen : readEnd.toNat ≤ readStart.toNat + length.toNat) (clusters : List U64)
    {clusterStart bytesRead : U64} (hc : ClusterStart clusterStart readEnd)
    (hend : readEnd.toNat ≤ clusterStart.toNat + 128 * clusters.length)
    (hn : bytesRead.toNat =
      min (max readStart.toNat clusterStart.toNat) readEnd.toNat - readStart.toNat) :
    ramfsReadClusters data readStart readEnd length clusters clusterStart bytesRead buffer =
      .ok (readEnd - readStart, fun i =>
        if bytesRead.toNat ≤ i ∧ i < readEnd.toNat - readStart.toNat then
          clusterBytes data clusters (readStart.toNat + i - clusterStart.toNat)
        else buffer i) := by
  have hdiff : (readEnd - readStart).toNat = readEnd.toNat - readStart.toNat := by bv_omega
  induction clusters generalizing clusterStart bytesRead buffer with
  | nil =>
    rw [List.length_nil] at hend
    have hstop : bytesRead = readEnd - readStart := BitVec.eq_of_toNat_eq (by omega)
    rw [ramfsReadClusters, hstop]
    refine congrArg (fun bytes => Except.ok (readEnd - readStart, bytes)) (funext fun i => ?_)
    exact (if_neg (by omega)).symm
  | cons cluster rest ih =>
    rw [ramfsReadClusters]
    split
    · next hlt =>
      obtain ⟨hc', hnext⟩ := hc.next hlt
      rw [BitVec.lt_def] at hlt
      rw [List.length_cons] at hend
      dsimp only
      split
      · next hover =>
        rw [BitVec.lt_def, hnext] at hover
        obtain ⟨first, last, ho⟩ := exists_overlap hle hlt hover hnext
        have hcopied := ho.overlay_read buffer (data cluster)
        obtain ⟨hs, hcs, hfl, hstop, hcluster, hfirst, hlast, hto, hfrom, hnum⟩ := ho
        have hbytes : bytesRead.toNat = first - readStart.toNat := by omega
        clear hn
        rw [memcpy_ok (by omega) (by omega)]
        have hread : (bytesRead + (copiedEnd readEnd (clusterStart + 128) -
            copiedStart readStart clusterStart)).toNat = last - readStart.toNat := by
          rw [BitVec.toNat_add, hnum, hbytes]
          omega
        rw [ok_bind, ih hc' (by omega) (by rw [hread, hnext]; omega)]
        refine congrArg (fun bytes => Except.ok (readEnd - readStart, bytes)) (funext fun i => ?_)
        rw [hread, hnum, hto, hfrom, hnext, hbytes, hcopied, clusterBytes_cons]
        by_cases hi : first - readStart.toNat ≤ i ∧ i < readEnd.toNat - readStart.toNat
        · rw [if_pos hi]
          by_cases hb : readStart.toNat + i - clusterStart.toNat < 128
          · rw [if_pos hb, if_neg (by omega), if_pos (by omega)]
          · rw [if_neg hb, if_pos (by omega), Nat.sub_sub]
        · rw [if_neg hi, if_neg (by omega), if_neg (by omega)]
      · next hover =>
        rw [BitVec.lt_def, hnext] at hover
        rw [ih hc' (by omega) (by omega)]
        refine congrArg (fun bytes => Except.ok (readEnd - readStart, bytes)) (funext fun i => ?_)
        have hb : ¬ readStart.toNat + i - clusterStart.toNat < 128 := by omega
        rw [hnext, clusterBytes_cons, if_neg hb, Nat.sub_sub]
    · next hlt =>
      rw [BitVec.lt_def, Nat.not_lt] at hlt
      have hstop : bytesRead = readEnd - readStart := BitVec.eq_of_toNat_eq (by omega)
      rw [hstop]
      refine congrArg (fun bytes => Except.ok (readEnd - readStart, bytes)) (funext fun i => ?_)
      exact (if_neg (by omega)).symm

theorem ramfsReadClusters_behind (clusters : List U64) {clusterStart bytesRead : U64}
    (hc : ClusterStart clusterStart readEnd)
    (h : ∀ k, 128 * k < readEnd.toNat → 128 * k + 128 ≤ readStart.toNat) :
    ramfsReadClusters data readStart readEnd length clusters clusterStart bytesRead buffer =
      .ok (bytesRead, buffer) := by
  induction clusters generalizing clusterStart with
  | nil => rfl
  | cons cluster rest ih =>
    rw [ramfsReadClusters]
    split
    · next hlt =>
      obtain ⟨hc', hnext⟩ := hc.next hlt
      have hal := hc.aligned
      have hh := h (clusterStart.toNat / 128) (by bv_omega)
      have hover : ¬ readStart < clusterStart + 128 := by
        rw [BitVec.lt_def, hnext]
        omega
      dsimp only
      rw [if_neg hover, ih hc']
    · rfl

theorem ramfsReadClusters_inside (hlt : readEnd.toNat < readStart.toNat) (clusters : List U64)
    {clusterStart bytesRead : U64} (hc : ClusterStart clusterStart readEnd)
    (hstart : clusterStart.toNat < readEnd.toNat)
    (hend : readEnd.toNat ≤ clusterStart.toNat + 128 * clusters.length)
    (hin : readStart.toNat < (readEnd.toNat + 127) / 128 * 128) :
    ramfsReadClusters data readStart readEnd length clusters clusterStart bytesRead buffer =
      .error .outOfBounds := by
  induction clusters generalizing clusterStart with
  | nil =>
    rw [List.length_nil] at hend
    omega
  | cons cluster rest ih =>
    obtain ⟨hc', hnext⟩ := hc.next hstart
    have hal := hc.aligned
    rw [List.length_cons] at hend
    rw [ramfsReadClusters, if_pos (show clusterStart < readEnd from hstart)]
    dsimp only
    split
    · next hover =>
      have hh := overlap_reversed hlt hstart hover hnext
      rw [memcpy, if_neg (fun hb => Nat.not_lt.mpr hb.2 hh)]
      rfl
    · next hover =>
      rw [BitVec.lt_def, hnext] at hover
      exact ih hc' (by omega) (by omega)

variable {writeStart writeEnd : U64} (buffer)

theorem ramfsWriteClusters_ok (hle : writeStart.toNat ≤ writeEnd.toNat)
    (hlen : writeEnd.toNat ≤ writeStart.toNat + length.toNat) {clusters : List U64}
    (hnd : clusters.Nodup) {clusterStart : U64} (hc : ClusterStart clusterStart writeEnd)
    (hend : writeEnd.toNat ≤ clusterStart.toNat + 128 * clusters.length)
    (slab : Slab (Nat → U8)) :
    ∃ slab', ramfsWriteClusters buffer length writeStart writeEnd clusters clusterStart slab =
        .ok slab' ∧ slab'.allocator = slab.allocator ∧
      (∀ y, y ∉ clusters → slab'.objects y = slab.objects y) ∧
      ∀ i, clusterBytes slab'.objects clusters i =
        if writeStart.toNat ≤ clusterStart.toNat + i ∧ clusterStart.toNat + i < writeEnd.toNat then
          buffer (clusterStart.toNat + i - writeStart.toNat)
        else clusterBytes slab.objects clusters i := by
  induction clusters generalizing clusterStart slab with
  | nil =>
    rw [List.length_nil] at hend
    have hstop : ¬ clusterStart < writeEnd := by bv_omega
    refine ⟨slab, if_neg hstop, rfl, fun y _ => rfl, ?_⟩
    intro i
    exact (if_neg (by omega)).symm
  | cons cluster rest ih =>
    obtain ⟨hnot, hnd'⟩ := List.nodup_cons.mp hnd
    rw [ramfsWriteClusters]
    split
    · next hlt =>
      obtain ⟨hc', hnext⟩ := hc.next hlt
      rw [BitVec.lt_def] at hlt
      rw [List.length_cons] at hend
      dsimp only
      split
      · next hover =>
        rw [BitVec.lt_def, hnext] at hover
        obtain ⟨first, last, ho⟩ := exists_overlap hle hlt hover hnext
        have hcopied := ho.overlay_write (slab.objects cluster) buffer
        obtain ⟨hs, hcs, hfl, hstop, hcluster, -, -, hfrom, hto, hnum⟩ := ho
        rw [memcpy_ok (by omega) (by omega), ok_bind]
        obtain ⟨slab', hrun, halloc, hframe, hbytes⟩ := ih hnd' hc' (by omega)
          (slab.modify cluster fun _ => overlay (slab.objects cluster) _ _ _)
        refine ⟨slab', hrun, halloc, ?_, ?_⟩
        · intro y hy
          rw [List.mem_cons, not_or] at hy
          rw [hframe y hy.2, Slab.modify_objects_ne _ hy.1]
        · intro i
          rw [clusterBytes_cons, clusterBytes_cons, hframe cluster hnot, hbytes,
            clusterBytes_modify slab hnot, Slab.modify_objects_self, hnext, hfrom, hto, hnum]
          by_cases hb : i < 128
          · rw [if_pos hb, if_pos hb, hcopied i hb]
          · have hshift : clusterStart.toNat + 128 + (i - 128) = clusterStart.toNat + i := by omega
            rw [if_neg hb, if_neg hb, hshift]
      · next hover =>
        rw [BitVec.lt_def, hnext] at hover
        obtain ⟨slab', hrun, halloc, hframe, hbytes⟩ := ih hnd' hc' (by omega) slab
        refine ⟨slab', hrun, halloc, ?_, ?_⟩
        · intro y hy
          exact hframe y (fun hm => hy (List.mem_cons_of_mem _ hm))
        · intro i
          rw [clusterBytes_cons, clusterBytes_cons, hframe cluster hnot, hbytes, hnext]
          by_cases hb : i < 128
          · rw [if_pos hb, if_pos hb, if_neg (by omega)]
          · have hshift : clusterStart.toNat + 128 + (i - 128) = clusterStart.toNat + i := by omega
            rw [if_neg hb, if_neg hb, hshift]
    · next hlt =>
      rw [BitVec.lt_def] at hlt
      refine ⟨slab, rfl, rfl, fun y _ => rfl, ?_⟩
      intro i
      exact (if_neg (by omega)).symm

/-- A write that wraps around either changes nothing or leaves its cluster. -/
theorem ramfsWriteClusters_reversed (length : U64) (hlt : writeEnd.toNat < writeStart.toNat)
    (clusters : List U64) {clusterStart : U64} (hc : ClusterStart clusterStart writeEnd)
    (slab : Slab (Nat → U8)) :
    ramfsWriteClusters buffer length writeStart writeEnd clusters clusterStart slab = .ok slab ∨
      ramfsWriteClusters buffer length writeStart writeEnd clusters clusterStart slab =
        .error .outOfBounds := by
  induction clusters generalizing clusterStart with
  | nil =>
    rw [ramfsWriteClusters]
    split
    · exact Or.inr rfl
    · exact Or.inl rfl
  | cons cluster rest ih =>
    rw [ramfsWriteClusters]
    split
    · next hbelow =>
      obtain ⟨hc', hnext⟩ := hc.next hbelow
      dsimp only
      split
      · next hover =>
        have hh := overlap_reversed hlt hbelow hover hnext
        right
        rw [memcpy, if_neg (fun hb => Nat.not_lt.mpr hb.1 hh)]
        rfl
      · exact ih hc'
    · exact Or.inl rfl

theorem ramfsWriteClusters_reversed_ok {length : U64} (hlt : writeEnd.toNat < writeStart.toNat)
    {clusters : List U64} {clusterStart : U64} (hc : ClusterStart clusterStart writeEnd)
    {slab slab' : Slab (Nat → U8)}
    (hw : ramfsWriteClusters buffer length writeStart writeEnd clusters clusterStart slab =
      .ok slab') : slab' = slab := by
  rcases ramfsWriteClusters_reversed buffer length hlt clusters hc slab with hr | hr
  · exact (Except.ok.inj (hr.symm.trans hw)).symm
  · rw [hr] at hw
    cases hw

end Persistos
