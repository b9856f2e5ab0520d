import Persistos.NvmeQueues

/-! The interrupt handler on queues that hold anything. A loop comes to an old phase when it
has been around once, but the ids that it passes on are those that it finds. -/

namespace Persistos

open Theory

namespace NvmeQueueState

/-- The entry that the handler comes to after `k` others. -/
def entryAt (q : NvmeQueueState) (k : Nat) : NvmeCqEntry :=
  q.cq ((q.cqHead.toNat + k) % nvmeQueueSize)

/-- It takes that entry if it comes to it. The old phase changes behind the last slot. -/
def isNew (q : NvmeQueueState) (k : Nat) : Bool :=
  (q.entryAt k).phase ≠ if q.cqHead.toNat + k < nvmeQueueSize then q.cqPhase else !q.cqPhase

/-- All entries that are taken have the id of a command. -/
def IdsInside (q : NvmeQueueState) : Prop :=
  ∀ k < nvmeQueueSize, (∀ j ≤ k, q.isNew j = true) →
    (q.entryAt k).commandIdentifier.toNat < nvmeMaxCommands

instance (q : NvmeQueueState) : Decidable q.IdsInside :=
  inferInstanceAs (Decidable (∀ k < nvmeQueueSize, (∀ j ≤ k, q.isNew j = true) →
    (q.entryAt k).commandIdentifier.toNat < nvmeMaxCommands))

theorem takeHead_sqTail (q : NvmeQueueState) : q.takeHead.sqTail = q.sqTail := by
  rw [takeHead]
  split <;> rfl

end NvmeQueueState

/-- What the handler may do to a device. -/
structure HandlerSafe (dev dev' : NvmeQueues) : Prop where
  head : ∀ id, (dev'.queue id).cqHead.toNat < nvmeQueueSize
  ring : ∀ id, (dev'.queue id).cq = (dev.queue id).cq
  tail : ∀ id, (dev'.queue id).sqTail = (dev.queue id).sqTail
  ids : ∀ id, ∃ ids, dev'.finished id = dev.finished id ++ ids ∧
    ∀ c ∈ ids, c.toNat < nvmeMaxCommands
  statuses : ∀ i, nvmeMaxCommands ≤ i → dev'.commandStatuses i = dev.commandStatuses i

/-- A stretch of a loop over a queue that takes the entries with the given ids. -/
structure Taken (id : NvmeQueue) (ids : List U16) (dev dev' : NvmeQueues) : Prop where
  ring : (dev'.queue id).cq = (dev.queue id).cq
  tail : (dev'.queue id).sqTail = (dev.queue id).sqTail
  finished : dev'.finished id = dev.finished id ++ ids
  others : ∀ other, other ≠ id →
    dev'.queue other = dev.queue other ∧ dev'.finished other = dev.finished other
  statuses : ∀ i, (∀ c ∈ ids, c.toNat ≠ i) → dev'.commandStatuses i = dev.commandStatuses i

namespace Taken

variable {id : NvmeQueue} {ids ids' : List U16} {dev dev' dev'' : NvmeQueues}

theorem refl (id : NvmeQueue) (dev : NvmeQueues) : Taken id [] dev dev where
  ring := rfl
  tail := rfl
  finished := (List.append_nil _).symm
  others _ _ := ⟨rfl, rfl⟩
  statuses _ _ := rfl

theorem trans (h : Taken id ids dev dev') (h' : Taken id ids' dev' dev'') :
    Taken id (ids ++ ids') dev dev'' where
  ring := h'.ring.trans h.ring
  tail := h'.tail.trans h.tail
  finished := by rw [h'.finished, h.finished, List.append_assoc]
  others other ho := ⟨(h'.others other ho).1.trans (h.others other ho).1,
    (h'.others other ho).2.trans (h.others other ho).2⟩
  statuses i hi := by
    have hfirst := h.statuses i fun c hc => hi c (List.mem_append_left _ hc)
    have hsecond := h'.statuses i fun c hc => hi c (List.mem_append_right _ hc)
    exact hsecond.trans hfirst

theorem writeHeadDoorbell (dev : NvmeQueues) (id : NvmeQueue) (needed : Bool) :
    Taken id [] dev (dev.writeHeadDoorbell id needed) := by
  have hself : (dev.writeHeadDoorbell id needed).queue id =
      (dev.queue id).writeHeadDoorbell needed := Function.update_self _ _ _
  refine ⟨?_, ?_, (List.append_nil _).symm, ?_, fun _ _ => rfl⟩
  · rw [hself]
    cases needed <;> rfl
  · rw [hself]
    cases needed <;> rfl
  · intro other ho
    exact ⟨Function.update_of_ne ho _ _, rfl⟩

end Taken

namespace NvmeQueues

variable {dev : NvmeQueues} {id : NvmeQueue}

theorem completionPass_old (h : (dev.queue id).headEntry.phase = (dev.queue id).cqPhase) :
    dev.completionPass id = none := by
  rw [completionPass, if_pos h]

/-- A pass takes the entry at the head. -/
theorem completionPass_new (h : (dev.queue id).headEntry.phase ≠ (dev.queue id).cqPhase) :
    ∃ dev', dev.completionPass id = some dev' ∧
      dev'.queue id = (dev.queue id).takeHead ∧
      Taken id [(dev.queue id).headEntry.commandIdentifier] dev dev' := by
  rw [completionPass, if_neg h]
  have hself : Function.update dev.queue id (dev.queue id).takeHead id = (dev.queue id).takeHead :=
    Function.update_self _ _ _
  refine ⟨_, rfl, hself, ?_, ?_, Function.update_self _ _ _, ?_, ?_⟩
  · exact (congrArg NvmeQueueState.cq hself).trans (NvmeQueueInv.takeHead_cq _)
  · exact (congrArg NvmeQueueState.sqTail hself).trans (NvmeQueueState.takeHead_sqTail _)
  · intro other ho
    exact ⟨Function.update_of_ne ho _ _, Function.update_of_ne ho _ _⟩
  · intro i hi
    exact Function.update_of_ne (hi _ List.mem_cons_self).symm _ _

/-- A loop takes the new entries from its head on and stops at the first old one. -/
theorem completionLoop_takes {r n passes : Nat}
    (hreads : ReadsAt nvmeQueueSize r (dev.queue id).cqHead.toNat (dev.queue id).cqPhase)
    (hnew : ∀ k < n, ((dev.queue id).cq ((r + k) % nvmeQueueSize)).phase =
      ringPhase nvmeQueueSize (r + k))
    (hold : ((dev.queue id).cq ((r + n) % nvmeQueueSize)).phase ≠ ringPhase nvmeQueueSize (r + n))
    (hpasses : n < passes) (needed : Bool) :
    ∃ dev' needed', completionLoop id passes dev needed = .ok (dev', needed') ∧
      (dev'.queue id).cqHead.toNat < nvmeQueueSize ∧
      Taken id ((List.range n).map fun k =>
        ((dev.queue id).cq ((r + k) % nvmeQueueSize)).commandIdentifier) dev dev' := by
  obtain ⟨passes, rfl⟩ : ∃ m, passes = m + 1 := Nat.exists_eq_succ_of_ne_zero (by omega)
  have hhead : (dev.queue id).headEntry = (dev.queue id).cq (r % nvmeQueueSize) := by
    rw [NvmeQueueState.headEntry, hreads.head]
  induction n generalizing dev r passes needed with
  | zero =>
    have hphase : (dev.queue id).headEntry.phase = (dev.queue id).cqPhase := by
      rw [hhead, hreads.old]
      exact Bool.eq_not.mpr hold
    refine ⟨dev, needed, ?_, hreads.head_lt (by decide), .refl id dev⟩
    rw [completionLoop, completionPass_old hphase]
  | succ n ih =>
    have hphase : (dev.queue id).headEntry.phase ≠ (dev.queue id).cqPhase := by
      have hfirst := hnew 0 (Nat.succ_pos n)
      rw [Nat.add_zero] at hfirst
      rw [hhead, hfirst, hreads.old]
      exact (Bool.not_ne_self _).symm
    obtain ⟨dev₁, hpass, hqueue, htaken⟩ := completionPass_new hphase
    have hreads₁ : ReadsAt nvmeQueueSize (r + 1) (dev₁.queue id).cqHead.toNat
        (dev₁.queue id).cqPhase := by
      rw [hqueue]
      exact NvmeQueueState.takeHead_readsAt hreads
    have hshift : ∀ k, r + 1 + k = r + (k + 1) := by omega
    obtain ⟨passes, rfl⟩ : ∃ m, passes = m + 1 := Nat.exists_eq_succ_of_ne_zero (by omega)
    obtain ⟨dev', needed', hrun, hlt, hrest⟩ := ih (r := r + 1) hreads₁
      (by
        intro k hk
        rw [htaken.ring, hshift]
        exact hnew (k + 1) (by omega))
      (by
        rw [htaken.ring, hshift]
        exact hold)
      true passes (by omega)
      (by rw [NvmeQueueState.headEntry, hreads₁.head])
    refine ⟨dev', needed', ?_, hlt, ?_⟩
    · rw [completionLoop, hpass]
      exact hrun
    · have hall := htaken.trans hrest
      rw [hhead, htaken.ring] at hall
      rw [List.range_succ_eq_map, List.map_cons, List.map_map]
      simp only [hshift] at hall
      exact hall

theorem handleQueue_takes (hhead : (dev.queue id).cqHead.toNat < nvmeQueueSize) :
    ∃ dev' ids, dev.handleQueue (nvmeQueueSize + 1) id = .ok dev' ∧
      (dev'.queue id).cqHead.toNat < nvmeQueueSize ∧ Taken id ids dev dev' ∧
      ((∀ c ∈ ids, c.toNat < nvmeMaxCommands) ↔ (dev.queue id).IdsInside) := by
  have hpos : 0 < nvmeQueueSize := by decide
  obtain ⟨r, hreads⟩ := exists_readsAt hhead (dev.queue id).cqPhase
  obtain ⟨n, hn, hold, hnew⟩ := exists_old NvmeCqEntry.phase (dev.queue id).cq hpos r
  obtain ⟨dev₁, needed, hrun, hlt, htaken⟩ :=
    completionLoop_takes hreads hnew hold (Nat.lt_succ_of_le hn) false
  have hentry : ∀ k, (dev.queue id).entryAt k = (dev.queue id).cq ((r + k) % nvmeQueueSize) := by
    intro k
    rw [NvmeQueueState.entryAt, hreads.head, Nat.mod_add_mod]
  have hisNew : ∀ k ≤ nvmeQueueSize, (dev.queue id).isNew k = true ↔
      ((dev.queue id).cq ((r + k) % nvmeQueueSize)).phase = ringPhase nvmeQueueSize (r + k) := by
    intro k hk
    rw [NvmeQueueState.isNew, decide_eq_true_iff, hentry, ← hreads.phase_add hpos hk, Bool.ne_not]
  have hdoorbell := htaken.trans (.writeHeadDoorbell dev₁ id needed)
  rw [List.append_nil] at hdoorbell
  refine ⟨dev₁.writeHeadDoorbell id needed, _, ?_, ?_, hdoorbell, ?_⟩
  · rw [handleQueue, hrun]
    rfl
  · have hself : (dev₁.writeHeadDoorbell id needed).queue id =
        (dev₁.queue id).writeHeadDoorbell needed := Function.update_self _ _ _
    rw [hself]
    cases needed <;> exact hlt
  · constructor
    · intro hall k hk hj
      have hlast : k < n := by
        by_contra hle
        exact hold ((hisNew n hn).mp (hj n (by omega)))
      rw [hentry]
      exact hall _ (List.mem_map_of_mem (List.mem_range.mpr hlast))
    · intro hinside c hc
      obtain ⟨k, hk, rfl⟩ := List.mem_map.mp hc
      have hlast := List.mem_range.mp hk
      rw [← hentry]
      refine hinside k (by omega) fun j hj => ?_
      exact (hisNew j (by omega)).mpr (hnew j (by omega))

/-- The handler returns from a device in any state, and is safe when the ids are. -/
theorem handleDevice_total (hheads : ∀ id, (dev.queue id).cqHead.toNat < nvmeQueueSize) :
    ∃ dev', dev.handleDevice (nvmeQueueSize + 1) = .ok dev' ∧
      (∀ id, (dev'.queue id).cqHead.toNat < nvmeQueueSize) ∧
      (HandlerSafe dev dev' ↔ ∀ id, (dev.queue id).IdsInside) := by
  obtain ⟨dev₁, ids, hadmin, hhead₁, htaken₁, hids₁⟩ := handleQueue_takes (hheads .admin)
  have hio : dev₁.queue .io = dev.queue .io := (htaken₁.others .io (by decide)).1
  have hhead : (dev₁.queue .io).cqHead.toNat < nvmeQueueSize := by
    rw [hio]
    exact hheads .io
  obtain ⟨dev', ids', hrun, hhead', htaken, hids⟩ := handleQueue_takes hhead
  obtain ⟨hqueue, hfinished⟩ := htaken.others .admin (by decide)
  have hfinishedIo : dev'.finished .io = dev.finished .io ++ ids' := by
    rw [htaken.finished, (htaken₁.others .io (by decide)).2]
  have hfinishedAdmin : dev'.finished .admin = dev.finished .admin ++ ids := by
    rw [hfinished, htaken₁.finished]
  have hheads' : ∀ id, (dev'.queue id).cqHead.toNat < nvmeQueueSize := by
    intro id
    cases id with
    | admin =>
      rw [hqueue]
      exact hhead₁
    | io => exact hhead'
  rw [hio] at hids
  refine ⟨dev', ?_, hheads', ?_⟩
  · rw [handleDevice, hadmin]
    exact hrun
  · constructor
    · intro h id
      obtain ⟨all, hall, hinside⟩ := h.ids id
      cases id with
      | admin =>
        obtain rfl := List.append_cancel_left (hfinishedAdmin.symm.trans hall)
        exact hids₁.mp hinside
      | io =>
        obtain rfl := List.append_cancel_left (hfinishedIo.symm.trans hall)
        exact hids.mp hinside
    · intro hinside
      have hadminIds := hids₁.mpr (hinside .admin)
      have hioIds := hids.mpr (hinside .io)
      refine ⟨hheads', ?_, ?_, ?_, ?_⟩
      · intro id
        cases id with
        | admin => rw [hqueue, htaken₁.ring]
        | io => rw [htaken.ring, hio]
      · intro id
        cases id with
        | admin => rw [hqueue, htaken₁.tail]
        | io => rw [htaken.tail, hio]
      · intro id
        cases id with
        | admin => exact ⟨ids, hfinishedAdmin, hadminIds⟩
        | io => exact ⟨ids', hfinishedIo, hioIds⟩
      · intro i hi
        have hfirst := htaken₁.statuses i fun c hc => by
          have hlt := hadminIds c hc
          omega
        have hsecond := htaken.statuses i fun c hc => by
          have hlt := hioIds c hc
          omega
        exact hsecond.trans hfirst

end NvmeQueues

/-- On heads inside their queues the handler returns, and leaves them inside. -/
theorem nvmeHandleInterrupt_total {devices : List NvmeQueues}
    (hheads : ∀ dev ∈ devices, ∀ id, (dev.queue id).cqHead.toNat < nvmeQueueSize) :
    ∃ devices', nvmeHandleInterrupt (nvmeQueueSize + 1) devices = .ok devices' ∧
      (∀ dev ∈ devices', ∀ id, (dev.queue id).cqHead.toNat < nvmeQueueSize) ∧
      (List.Forall₂ HandlerSafe devices devices' ↔
        ∀ dev ∈ devices, ∀ id, (dev.queue id).IdsInside) := by
  induction devices with
  | nil =>
    refine ⟨[], rfl, ?_, ?_⟩
    · intro dev hdev
      cases hdev
    · exact iff_of_true .nil fun dev hdev => absurd hdev List.not_mem_nil
  | cons dev devices ih =>
    obtain ⟨devices', hrun, hheads', hsafe⟩ :=
      ih fun dev hdev => hheads dev (List.mem_cons_of_mem _ hdev)
    obtain ⟨dev', hdev, hhead, hsafeDev⟩ :=
      NvmeQueues.handleDevice_total (hheads dev List.mem_cons_self)
    refine ⟨dev' :: devices', ?_, ?_, ?_⟩
    · rw [nvmeHandleInterrupt] at hrun ⊢
      rw [List.mapM_cons, hdev, ok_bind, hrun]
      rfl
    · exact List.forall_mem_cons.mpr ⟨hhead, hheads'⟩
    · rw [List.forall₂_cons, hsafeDev, hsafe, List.forall_mem_cons]

end Persistos
