import Persistos.Processes

/-! Runs of tasks that fork, exit, kill and wait. As long as no running waiter is
left behind by a free, every wait ends with the process it began with. -/

namespace Persistos

variable {r : KmemRun} {s s' : Processes} {x t pid : U64}

theorem KmemRun.allocPages_step {r' : KmemRun} {n p : U64} (hn : 1 ≤ n.toNat)
    (h : r.allocPages n = .ok (p, r')) : KmemStep r r' ∧ r'.live = ⟨p, n⟩ :: r.live := by
  obtain ⟨⟨q, k⟩, ha, he⟩ := bind_eq_ok h
  simp only [Except.ok.injEq, Prod.mk.injEq] at he
  obtain ⟨rfl, rfl⟩ := he
  exact ⟨.alloc hn ha, rfl⟩

namespace Processes

/-- What the tasks hold is allocated. -/
structure Holds (s : Processes) (live : List U64) : Prop where
  kmem : KmemInv s.kernel
  direct : DirectMap s.kernel.kmem
  slab : SlabInv s.tasks.allocator live
  blocks : s.blocks.Subperm s.kernel.live

theorem Holds.step (h : s.Holds s.taskStructLh) {kernel : KmemRun} (hs : KmemStep s.kernel kernel)
    (hb : s.blocks.Subperm kernel.live) : { s with kernel }.Holds s.taskStructLh :=
  ⟨hs.inv h.kmem, h.direct.step hs, h.slab, hb⟩

theorem Holds.freshPages (h : s.Holds s.taskStructLh) :
    SlabInv.FreshPages KmemRun.allocPage s.kernel s.tasks.allocator := by
  intro p k hp
  obtain ⟨halign, hfresh, -⟩ := KmemRun.allocPage_frame h.kmem h.direct hp
  refine ⟨halign, fun hmem => hfresh (h.blocks.subset ?_)⟩
  exact List.mem_append_left _ (List.mem_map_of_mem hmem)

theorem taskStructAlloc_spec (h : s.Holds s.taskStructLh) (ha : s.taskStructAlloc = .ok (x, s')) :
    ∃ kernel tasks, s' = { s with kernel, tasks } ∧ x ∉ s.taskStructLh ∧
      s'.Holds (x :: s.taskStructLh) ∧ ∀ y ∈ s.taskStructLh, s'.task y = s.task y := by
  obtain ⟨⟨y, k, a, new⟩, hs, he⟩ := bind_eq_ok ha
  simp only [Except.ok.injEq, Prod.mk.injEq] at he
  obtain ⟨rfl, rfl⟩ := he
  obtain ⟨hnew, hinv, -, -, hpages, -⟩ := h.slab.alloc h.freshPages hs
  have htask : ∀ z ∈ s.taskStructLh,
      Slab.clearNew .cleared new s.tasks.objects z = s.tasks.objects z := by
    intro z hz
    refine if_neg fun hmask => ?_
    have hmem := h.slab.mask_mem_pages hz
    rcases hpages with ⟨rfl, -, -⟩ | ⟨p, rfl, hp, -⟩
    · cases hmask
    · exact (h.freshPages _ _ hp).2 (Option.some.inj hmask ▸ hmem)
  have hblocks (kernel : KmemRun) : Processes.blocks { s with
      kernel, tasks := ⟨a, Slab.clearNew .cleared new s.tasks.objects⟩ } =
      a.pages.map (fun p => ⟨p, 1⟩) ++
        s.taskStructLh.flatMap fun z => [(s.task z).stackBlock, (s.task z).pml4Block] := by
    refine congrArg _ (List.flatMap_congr fun z hz => ?_)
    simp only [Processes.task, htask z hz]
  refine ⟨_, _, rfl, hnew, ?_, htask⟩
  rcases hpages with ⟨-, rfl, hp⟩ | ⟨p, -, hp, hq⟩
  · refine ⟨h.kmem, h.direct, hinv, ?_⟩
    rw [hblocks, hp]
    exact h.blocks
  · obtain ⟨hstep, hlive⟩ := KmemRun.allocPage_step hp
    refine ⟨hstep.inv h.kmem, h.direct.step hstep, hinv, ?_⟩
    rw [hblocks, hq, hlive]
    exact (List.subperm_cons _).mpr h.blocks

theorem blocks_erase (hx : x ∈ s.taskStructLh) :
    s.blocks.Perm ((s.task x).pml4Block :: (s.task x).stackBlock ::
      (s.tasks.allocator.pages.map (fun p => ⟨p, 1⟩) ++
        (s.taskStructLh.erase x).flatMap fun y => [(s.task y).stackBlock, (s.task y).pml4Block])) := by
  have hperm := (List.perm_cons_erase hx).flatMap_right
    fun y => [(s.task y).stackBlock, (s.task y).pml4Block]
  refine (hperm.append_left _).trans ?_
  refine List.perm_middle.trans ?_
  exact (List.perm_middle.cons _).trans (List.Perm.swap _ _ _)

theorem waitpidFind_some (h : s.waitpidFind pid = some x) :
    x ∈ s.taskStructLh ∧ (s.task x).pid.setWidth 64 = pid := by
  have hp := List.find?_some (p := fun x => decide ((s.task x).pid.setWidth 64 = pid)) h
  exact ⟨List.mem_of_find?_eq_some h, of_decide_eq_true hp⟩

end Processes

/-- Every running waiter still waits for the process that it found, and the history
is that of the tasks. -/
structure ProcessInv (s : Processes) : Prop where
  holds : s.Holds s.taskStructLh
  waits : ∀ u, s.Running u → ∀ x pid, s.waiting u = some (x, pid) →
    x ∈ s.taskStructLh ∧ (s.task x).pid.setWidth 64 = pid
  serials : (s.taskStructLh.map s.serial ++ s.reaps.map Reap.task).Nodup
  born : ∀ n ∈ s.taskStructLh.map s.serial ++ s.reaps.map Reap.task, n < s.forks
  exitCodes : ∀ x ∈ s.taskStructLh, (s.task x).taskState = tsZombie →
    (s.task x).exitCode = s.exitCodes (s.serial x)
  reaped : ReapedOnce s

namespace ProcessInv

theorem spawn {setup : TaskStruct → TaskStruct} {result : Option U64} (h : ProcessInv s)
    (hsetup : ∀ task, (setup task).taskState = tsRunning)
    (hs : s.spawn setup = .ok (s', result)) : ProcessInv s' := by
  obtain ⟨⟨x, s₁⟩, ha, hs⟩ := bind_eq_ok hs
  obtain ⟨⟨stack, k₂⟩, hstack, hs⟩ := bind_eq_ok hs
  obtain ⟨⟨pml4, k₃⟩, hpml4, hs⟩ := bind_eq_ok hs
  simp only [Except.ok.injEq, Prod.mk.injEq] at hs
  obtain ⟨rfl, -⟩ := hs
  obtain ⟨k₁, tasks, rfl, hfresh, hholds, htask⟩ := Processes.taskStructAlloc_spec h.holds ha
  obtain ⟨hstep₂, hlive₂⟩ := KmemRun.allocPages_step (by decide) hstack
  obtain ⟨hstep₃, hlive₃⟩ := KmemRun.allocPages_step (by decide) hpml4
  dsimp only at *
  have hkeep : ∀ y ∈ s.taskStructLh, ∀ f, (tasks.modify x f).objects y = s.task y := by
    intro y hy f
    exact (tasks.modify_objects_ne (ne_of_mem_of_not_mem hy hfresh) f).trans (htask y hy)
  have hserial : ∀ y ∈ s.taskStructLh, Function.update s.serial x s.forks y = s.serial y :=
    fun y hy => Function.update_of_ne (ne_of_mem_of_not_mem hy hfresh) _ _
  have hperm : ((s.taskStructLh ++ [x]).map (Function.update s.serial x s.forks) ++
      s.reaps.map Reap.task).Perm (s.forks :: (s.taskStructLh.map s.serial ++
        s.reaps.map Reap.task)) := by
    rw [List.map_append, List.map_congr_left hserial, List.map_singleton, Function.update_self,
      List.append_assoc]
    exact List.perm_middle
  constructor
  · refine ⟨hstep₃.inv (hstep₂.inv hholds.kmem), (hholds.direct.step hstep₂).step hstep₃,
      hholds.slab.perm (List.perm_append_singleton x _).symm, ?_⟩
    rw [hlive₃, hlive₂]
    have hb := hholds.blocks
    simp only [Processes.blocks, List.flatMap_append, ← List.append_assoc] at hb ⊢
    rw [List.flatMap_congr (g := fun y => [(s.task y).stackBlock, (s.task y).pml4Block])
      (fun y hy => by rw [htask y hy])] at hb
    rw [List.flatMap_congr (g := fun y => [(s.task y).stackBlock, (s.task y).pml4Block])
      (fun y hy => by rw [Processes.task, hkeep y hy])]
    refine (List.perm_append_comm.subperm_right).mpr ?_
    simp only [List.flatMap_singleton, Processes.task, Slab.modify_objects_self]
    refine ((List.Perm.swap _ _ _).subperm_right).mpr ?_
    exact (List.subperm_cons _).mpr ((List.subperm_cons _).mpr hb)
  · intro u hu y pid hw
    dsimp only [Processes.Running] at hu hw
    obtain ⟨hmem, hrun⟩ := hu
    rcases List.mem_append.mp hmem with hmem | hmem
    · rw [Function.update_of_ne (ne_of_mem_of_not_mem hmem hfresh)] at hw
      rw [Processes.task, hkeep u hmem] at hrun
      obtain ⟨hy, hpid⟩ := h.waits u ⟨hmem, hrun⟩ y pid hw
      refine ⟨List.mem_append_left _ hy, ?_⟩
      rw [Processes.task, hkeep y hy]
      exact hpid
    · obtain rfl := List.mem_singleton.mp hmem
      simp at hw
  · exact hperm.nodup_iff.mpr (List.nodup_cons.mpr ⟨fun hh => absurd (h.born _ hh) (by omega),
      h.serials⟩)
  · intro n hn
    rcases List.mem_cons.mp (hperm.mem_iff.mp hn) with rfl | hn
    · exact Nat.lt_succ_self _
    · exact Nat.lt_succ_of_lt (h.born n hn)
  · intro y hy hz
    dsimp only at hy hz ⊢
    rcases List.mem_append.mp hy with hy | hy
    · rw [Processes.task, hkeep y hy] at hz ⊢
      rw [hserial y hy]
      exact h.exitCodes y hy hz
    · obtain rfl := List.mem_singleton.mp hy
      simp only [Processes.task, Slab.modify_objects_self, hsetup] at hz
      exact absurd hz (by decide)
  · exact ⟨h.reaped.once, h.reaped.allocated, h.reaped.pid, h.reaped.status⟩

theorem serial_inj (h : ProcessInv s) {y : U64} (hx : x ∈ s.taskStructLh)
    (hy : y ∈ s.taskStructLh) (he : s.serial x = s.serial y) : x = y :=
  List.inj_on_of_nodup_map (List.nodup_append.mp h.serials).1 hx hy he

theorem serial_notMem_reaps (h : ProcessInv s) (hx : x ∈ s.taskStructLh) :
    s.serial x ∉ s.reaps.map Reap.task := fun hmem =>
  (List.nodup_append.mp h.serials).2.2 _ (List.mem_map_of_mem hx) _ hmem rfl

theorem zombify (h : ProcessInv s) (hx : x ∈ s.taskStructLh) (exitCode : U8) :
    ProcessInv (s.zombify x exitCode) := by
  have hself : (s.zombify x exitCode).task x =
      { s.task x with taskState := tsZombie, exitCode } := by
    simp only [Processes.zombify, Processes.task, Slab.modify_objects_self]
  have hother : ∀ y, y ≠ x → (s.zombify x exitCode).task y = s.task y := by
    intro y hy
    simp only [Processes.zombify, Processes.task, Slab.modify_objects_ne _ hy]
  have hpid : ∀ y, ((s.zombify x exitCode).task y).pid = (s.task y).pid := by
    intro y
    by_cases hy : y = x
    · rw [hy, hself]
    · rw [hother y hy]
  have hblocks : (s.zombify x exitCode).blocks = s.blocks := by
    refine congrArg (s.tasks.allocator.pages.map (fun p => (⟨p, 1⟩ : Block)) ++ ·)
      (List.flatMap_congr fun y _ => ?_)
    by_cases hy : y = x
    · rw [hy, hself]
      rfl
    · rw [hother y hy]
  constructor
  · exact ⟨h.holds.kmem, h.holds.direct, h.holds.slab, hblocks ▸ h.holds.blocks⟩
  · rintro u ⟨hmem, hrun⟩ y pid hw
    have hux : u ≠ x := by
      rintro rfl
      rw [hself] at hrun
      exact absurd hrun (show tsZombie ≠ tsRunning by decide)
    rw [hother u hux] at hrun
    rw [hpid]
    exact h.waits u ⟨hmem, hrun⟩ y pid hw
  · exact h.serials
  · exact h.born
  · intro y hy hz
    change _ = Function.update s.exitCodes (s.serial x) exitCode (s.serial y)
    by_cases hyx : y = x
    · rw [hyx, hself, Function.update_self]
    · rw [hother y hyx] at hz ⊢
      rw [Function.update_of_ne fun he => hyx (h.serial_inj hy hx he)]
      exact h.exitCodes y hy hz
  · refine ⟨h.reaped.once, h.reaped.allocated, h.reaped.pid, fun r hr => ?_⟩
    change _ = Function.update s.exitCodes (s.serial x) exitCode r.task
    have hne : r.task ≠ s.serial x :=
      ne_of_mem_of_not_mem (List.mem_map_of_mem hr) (h.serial_notMem_reaps hx)
    rw [Function.update_of_ne hne]
    exact h.reaped.status r hr

theorem reap {result : Option U64} (h : ProcessInv s) (hx : x ∈ s.taskStructLh)
    (hpid : (s.task x).pid.setWidth 64 = pid) (hz : (s.task x).taskState = tsZombie)
    (hsole : s.SoleWaiter t x) (hr : s.reap t x pid = .ok (s', result)) : ProcessInv s' := by
  obtain ⟨a, ha, -, -, hpages, hslab, -⟩ := h.holds.slab.free hx
  have hfree : s.tasks.free x = .ok { s.tasks with allocator := a } := by
    rw [Slab.free, ha]
    rfl
  rw [Processes.reap, hfree] at hr
  simp only [ok_bind, Except.ok.injEq, Prod.mk.injEq] at hr
  obtain ⟨rfl, -⟩ := hr
  have hblocks := (Processes.blocks_erase hx).subperm_right.mp h.holds.blocks
  have hpml4 : (s.task x).pml4Block ∈ s.kernel.live := hblocks.subset List.mem_cons_self
  have hrest := hblocks.erase (s.task x).pml4Block
  rw [List.erase_cons_head] at hrest
  have hstack : (s.task x).stackBlock ∈ (s.kernel.freePages (s.task x).pml4Block).live :=
    hrest.subset List.mem_cons_self
  have hrest' := hrest.erase (s.task x).stackBlock
  rw [List.erase_cons_head] at hrest'
  have hstep : KmemStep s.kernel (s.kernel.freePages (s.task x).pml4Block) := .free hpml4
  have hstep' : KmemStep _ ((s.kernel.freePages (s.task x).pml4Block).freePages
      (s.task x).stackBlock) := .free hstack
  have hperm : ((s.taskStructLh.erase x).map s.serial ++ s.serial x :: s.reaps.map Reap.task).Perm
      (s.taskStructLh.map s.serial ++ s.reaps.map Reap.task) :=
    List.perm_middle.trans (((List.perm_cons_erase hx).map s.serial).symm.append_right _)
  constructor
  · refine ⟨hstep'.inv (hstep.inv h.holds.kmem), (h.holds.direct.step hstep).step hstep',
      hslab, ?_⟩
    simp only [Processes.blocks, hpages]
    exact hrest'
  · rintro u ⟨hmem, hrun⟩ y pid hw
    dsimp only at hmem hrun hw ⊢
    have hu := List.mem_of_mem_erase hmem
    by_cases hut : u = t
    · rw [hut, Function.update_self] at hw
      cases hw
    · rw [Function.update_of_ne hut] at hw
      obtain ⟨hy, hpid⟩ := h.waits u ⟨hu, hrun⟩ y pid hw
      have hyx : y ≠ x := by
        rintro rfl
        exact hsole u hu hut hrun (by rw [hw]; rfl)
      exact ⟨(List.mem_erase_of_ne hyx).mpr hy, hpid⟩
  · exact hperm.nodup_iff.mpr h.serials
  · exact fun n hn => h.born n (hperm.mem_iff.mp hn)
  · exact fun y hy => h.exitCodes y (List.mem_of_mem_erase hy)
  · constructor
    · exact (List.nodup_append.mp (hperm.nodup_iff.mpr h.serials)).2.1
    · exact List.forall_mem_cons.mpr ⟨decide_eq_true ⟨hx, hpml4, hstack⟩, h.reaped.allocated⟩
    · exact List.forall_mem_cons.mpr ⟨hpid, h.reaped.pid⟩
    · exact List.forall_mem_cons.mpr ⟨h.exitCodes x hx hz, h.reaped.status⟩

theorem awaitZombie {result : Option U64} (h : ProcessInv s) (hx : x ∈ s.taskStructLh)
    (hpid : (s.task x).pid.setWidth 64 = pid)
    (hsole : ∀ r, s.frees t (some x) = some r → s.SoleWaiter r.1 r.2)
    (hr : s.awaitZombie t x pid = .ok (s', result)) : ProcessInv s' := by
  rw [Processes.awaitZombie] at hr
  split at hr
  · next hz =>
    simp only [Except.ok.injEq, Prod.mk.injEq] at hr
    obtain ⟨rfl, -⟩ := hr
    refine ⟨⟨h.holds.kmem, h.holds.direct, h.holds.slab, h.holds.blocks⟩, ?_, h.serials, h.born,
      h.exitCodes, ⟨h.reaped.once, h.reaped.allocated, h.reaped.pid, h.reaped.status⟩⟩
    intro u hu y q hw
    by_cases hut : u = t
    · subst hut
      obtain ⟨rfl, rfl⟩ : x = y ∧ pid = q := by simpa using hw
      exact ⟨hx, hpid⟩
    · exact h.waits u hu y q ((Function.update_of_ne hut _ _).symm.trans hw)
  · next hz =>
    refine h.reap hx hpid (not_not.mp hz) (hsole (t, x) ?_) hr
    rw [Processes.frees, Option.bind_some, if_neg hz]

theorem act {a : Action} {result : Option U64} (h : ProcessInv s) (he : s.Enabled a)
    (hc : s.Careful a) (ha : s.act a = .ok (s', result)) : ProcessInv s' := by
  cases a with
  | boot => exact h.spawn (fun _ => rfl) ha
  | fork t =>
    have hstate : ∀ task : TaskStruct,
        { task with taskState := (s.task t).taskState }.taskState = tsRunning := fun _ => he.1.2
    exact h.spawn hstate ha
  | exit t code =>
    simp only [Processes.act, Processes.sysExit, Except.ok.injEq, Prod.mk.injEq] at ha
    obtain ⟨rfl, -⟩ := ha
    exact h.zombify he.1.1 _
  | kill t pid =>
    simp only [Processes.act, Processes.sysKill, Except.ok.injEq] at ha
    split at ha
    · obtain ⟨rfl, -⟩ := Prod.mk.inj ha
      exact h
    · next x hx =>
      obtain ⟨rfl, -⟩ := Prod.mk.inj ha
      exact h.zombify (List.mem_of_find?_eq_some hx) _
  | waitpid t pid =>
    simp only [Processes.act, Processes.sysWaitpid] at ha
    split at ha
    · simp only [Except.ok.injEq, Prod.mk.injEq] at ha
      obtain ⟨rfl, -⟩ := ha
      exact h
    · next x hx =>
      obtain ⟨hmem, hpid⟩ := Processes.waitpidFind_some hx
      refine h.awaitZombie hmem hpid ?_ ha
      intro r hr
      refine hc r ?_
      rw [Processes.reaper, hx]
      exact hr
  | resume t =>
    simp only [Processes.act, Processes.resume] at ha
    split at ha
    · simp only [Except.ok.injEq, Prod.mk.injEq] at ha
      obtain ⟨rfl, -⟩ := ha
      exact h
    · next x pid hw =>
      obtain ⟨hx, hpid⟩ := h.waits t he.1 x pid hw
      refine h.awaitZombie hx hpid ?_ ha
      intro r hr
      refine hc r ?_
      rw [Processes.reaper, hw]
      exact hr

theorem step (h : ProcessInv s) (hs : ProcessStep Processes.Careful s s') : ProcessInv s' := by
  cases hs with
  | act he hc ha => exact h.act he hc ha
  | other hk hb =>
    exact ⟨h.holds.step hk hb, h.waits, h.serials, h.born, h.exitCodes,
      ⟨h.reaped.once, h.reaped.allocated, h.reaped.pid, h.reaped.status⟩⟩

theorem init {kernel : KmemRun} (hk : KmemInv kernel) (hd : DirectMap kernel.kmem)
    (objects : U64 → TaskStruct) : ProcessInv (Processes.init kernel objects) := by
  constructor
  · exact ⟨hk, hd, SlabInv.init (by decide) (by decide), List.nil_subperm⟩
  · rintro u ⟨hu, -⟩
    cases hu
  · exact List.nodup_nil
  · intro n hn
    cases hn
  · intro x hx
    cases hx
  · constructor <;> simp [Processes.init]

theorem run {s₀ : Processes} (h₀ : ProcessInv s₀)
    (h : Relation.ReflTransGen (ProcessStep Processes.Careful) s₀ s) : ProcessInv s := by
  induction h with
  | refl => exact h₀
  | tail _ hstep ih => exact ih.step hstep

end ProcessInv

end Persistos
