import Persistos.ProcessRuns

/-! When each process is reaped once, and by the right waiter: as long as the
waiter that frees a process is the only running one that waits for it. -/

namespace Persistos

variable {s s' : Processes} {x t u pid : U64}

theorem slabFree_again {a b : SlabAllocator} (h : slabFree a x = .ok b) :
    ∃ c, slabFree b x = .ok c := by
  simp only [slabFree] at h ⊢
  split at h
  · cases h
  · next hz =>
    obtain rfl := Except.ok.inj h
    exact ⟨_, if_neg hz⟩

theorem Slab.free_again {α : Type} {slab slab' : Slab α} (h : slab.free x = .ok slab') :
    slab'.objects = slab.objects ∧ ∃ again, slab'.free x = .ok again := by
  obtain ⟨a, ha, he⟩ := bind_eq_ok h
  obtain rfl := Except.ok.inj he
  obtain ⟨c, hc⟩ := slabFree_again ha
  exact ⟨rfl, ⟨c, slab.objects⟩, by rw [Slab.free, hc]; rfl⟩

namespace Processes

/-- The pid of the WAITPID that an action is part of. -/
def awaits (s : Processes) : Action → Option U64
  | .waitpid _ pid => some pid
  | .resume t => (s.waiting t).map Prod.snd
  | _ => none

/-- WAITPID for `pid` by `t` has freed the process at `x`. -/
structure Reaped (s s' : Processes) (t x pid : U64) : Prop where
  objects : s'.tasks.objects = s.tasks.objects
  again : ∃ tasks, s'.tasks.free x = .ok tasks
  list : s'.taskStructLh = s.taskStructLh.erase x
  waiting : s'.waiting = Function.update s.waiting t none
  serial : s'.serial = s.serial
  reaps : ∃ reap, s'.reaps = reap :: s.reaps ∧ reap.task = s.serial x ∧ reap.argument = pid

theorem reap_spec {result : Option U64} (h : s.reap t x pid = .ok (s', result)) :
    Reaped s s' t x pid ∧ result = some pid := by
  obtain ⟨tasks, hf, he⟩ := bind_eq_ok h
  simp only [Except.ok.injEq, Prod.mk.injEq] at he
  obtain ⟨rfl, rfl⟩ := he
  obtain ⟨hobj, hagain⟩ := Slab.free_again hf
  exact ⟨⟨hobj, hagain, rfl, rfl, rfl, _, rfl, rfl, rfl⟩, rfl⟩

theorem awaitZombie_spec {result : Option U64} (h : s.awaitZombie t x pid = .ok (s', result)) :
    (s.frees t (some x) = none ∧ result = none) ∨
      (s.frees t (some x) = some (t, x) ∧ (s.task x).taskState = tsZombie ∧
        Reaped s s' t x pid ∧ result = some pid) := by
  rw [awaitZombie] at h
  split at h
  · next hz =>
    refine Or.inl ⟨by rw [frees, Option.bind_some, if_pos hz], ?_⟩
    exact (Prod.mk.inj (Except.ok.inj h)).2.symm
  · next hz =>
    exact Or.inr ⟨by rw [frees, Option.bind_some, if_neg hz], not_not.mp hz, reap_spec h⟩

/-- What a step of a WAITPID does that frees a process or returns. -/
theorem act_waitpid {a : Action} {result : Option U64} (he : s.Enabled a)
    (h : s.act a = .ok (s', result)) (hp : s.awaits a = some pid) :
    (s.reaper a = none ∧ (result = none ∨ result = some (-1))) ∨
      ∃ t x, s.reaper a = some (t, x) ∧ (s.task x).taskState = tsZombie ∧
        Reaped s s' t x pid ∧ result = some pid := by
  cases a with
  | boot => cases hp
  | fork t => cases hp
  | exit t code => cases hp
  | kill t pid => cases hp
  | waitpid t q =>
    obtain rfl : q = pid := Option.some.inj hp
    simp only [act, sysWaitpid] at h
    split at h
    · next hx =>
      obtain ⟨-, rfl⟩ := Prod.mk.inj (Except.ok.inj h)
      exact Or.inl ⟨by rw [reaper, hx]; rfl, Or.inr rfl⟩
    · next x hx =>
      rw [reaper, hx]
      exact (awaitZombie_spec h).imp (fun hh => ⟨hh.1, Or.inl hh.2⟩) fun hh => ⟨t, x, hh⟩
  | resume t =>
    simp only [act, resume] at h
    split at h
    · next hw => exact absurd hw he.2
    · next x q hw =>
      obtain rfl : q = pid := by simpa [awaits, hw] using hp
      rw [reaper, hw]
      exact (awaitZombie_spec h).imp (fun hh => ⟨hh.1, Or.inl hh.2⟩) fun hh => ⟨t, x, hh⟩

theorem awaits_of_reaper {a : Action} {r : U64 × U64} (h : s.reaper a = some r) :
    ∃ pid, s.awaits a = some pid := by
  cases a with
  | boot => cases h
  | fork t => cases h
  | exit t code => cases h
  | kill t pid => cases h
  | waitpid t pid => exact ⟨pid, rfl⟩
  | resume t =>
    cases hw : s.waiting t with
    | none => simp [reaper, frees, hw] at h
    | some w => exact ⟨w.2, by simp [awaits, hw]⟩

/-- A running waiter that is left behind frees the same process again. -/
theorem Reaped.again_step (h : Reaped s s' t x pid) (hu : s.Running u) (hut : u ≠ t)
    (hz : (s.task x).taskState = tsZombie) (hw : (s.waiting u).map Prod.fst = some x) :
    ∃ s'', ProcessStep (fun _ _ => True) s' s'' ∧ ¬ReapedOnce s'' := by
  obtain ⟨⟨y, q⟩, hwait, rfl⟩ := Option.map_eq_some_iff.mp hw
  have htask : s'.task = s.task := h.objects
  have hux : u ≠ y := by
    rintro rfl
    exact absurd (hu.2.symm.trans hz) (by decide)
  have hwait' : s'.waiting u = some (y, q) := by
    rw [h.waiting, Function.update_of_ne hut, hwait]
  have hrun : s'.Running u := by
    refine ⟨?_, by rw [htask]; exact hu.2⟩
    rw [h.list]
    exact (List.mem_erase_of_ne hux).mpr hu.1
  obtain ⟨tasks, hfree⟩ := h.again
  have hact : s'.act (.resume u) = s'.reap u y q := by
    rw [act, resume, hwait']
    dsimp only
    rw [awaitZombie, htask, if_neg (not_not.mpr hz)]
  obtain ⟨s'', hreap⟩ : ∃ s'', s'.reap u y q = .ok (s'', some q) := by
    rw [reap, hfree]
    exact ⟨_, rfl⟩
  have he : s'.Enabled (.resume u) := ⟨hrun, by rw [hwait']; exact Option.some_ne_none _⟩
  refine ⟨s'', .act he trivial (hact.trans hreap), ?_⟩
  intro honce
  obtain ⟨r, hr, hrt, -⟩ := h.reaps
  obtain ⟨r', hr', hrt', -⟩ := (reap_spec hreap).1.reaps
  have hnd := honce.once
  rw [hr', hr, List.map_cons, List.map_cons, hrt, hrt', h.serial] at hnd
  exact (List.nodup_cons.mp hnd).1 List.mem_cons_self

end Processes

/-- In every run in which a process is only freed by the one running task that waits
for it, each is freed once and by a WAITPID for its pid, and a free that leaves a
running waiter behind can be followed by a second one. -/
theorem waitpid_reaps_once {hhdm : Option U64} {memmap : Option (List MemmapEntry)} {k : Kmem}
    (hk : kmemInit hhdm memmap = .ok k) (hd : DirectMap k) {kernel : KmemRun}
    (hkernel : KmemReachable k kernel) (objects : U64 → TaskStruct) {s : Processes}
    (hrun : Relation.ReflTransGen (ProcessStep Processes.Careful) (Processes.init kernel objects) s) :
    ReapedOnce s ∧
      ∀ a s' result, s.Enabled a → s.act a = .ok (s', result) →
        (s.Careful a → ReapedOnce s' ∧
          ∀ pid, s.awaits a = some pid → result = some pid → pid ≠ -1 →
            ∃ reap, s'.reaps = reap :: s.reaps ∧ reap.argument = pid) ∧
        (¬s.Careful a → ∃ s'', ProcessStep (fun _ _ => True) s' s'' ∧ ¬ReapedOnce s'') := by
  have hinv := (ProcessInv.init (hkernel.inv hk) (hkernel.directMap hd).1 objects).run hrun
  refine ⟨hinv.reaped, fun a s' result he ha => ⟨fun hc => ⟨(hinv.act he hc ha).reaped, ?_⟩, ?_⟩⟩
  · intro pid hp hresult hne
    rcases Processes.act_waitpid he ha hp with ⟨-, hh⟩ | ⟨t, x, -, -, hreaped, -⟩
    · rcases hh with hh | hh
      · rw [hresult] at hh
        cases hh
      · exact absurd (Option.some.inj (hresult.symm.trans hh)) hne
    · obtain ⟨reap, hr, -, harg⟩ := hreaped.reaps
      exact ⟨reap, hr, harg⟩
  · intro hc
    simp only [Processes.Careful, not_forall] at hc
    obtain ⟨r, hr, hsole⟩ := hc
    simp only [Processes.SoleWaiter, not_forall, not_not] at hsole
    obtain ⟨u, hu, hut, hrunning, hw⟩ := hsole
    obtain ⟨pid, hp⟩ := Processes.awaits_of_reaper hr
    rcases Processes.act_waitpid he ha hp with ⟨hnone, -⟩ | ⟨t, x, hsome, hz, hreaped, -⟩
    · rw [hr] at hnone
      cases hnone
    · obtain rfl := Option.some.inj (hr.symm.trans hsome)
      exact hreaped.again_step ⟨hu, hrunning⟩ hut hz hw

/-- The state after an action that the scheduler and `may` allow. -/
def Processes.perform (may : Processes → Action → Prop) [∀ s a, Decidable (may s a)]
    (s : Processes) (a : Action) : Option Processes :=
  if s.Enabled a ∧ may s a then (s.act a).toOption.map Prod.fst else none

theorem Processes.perform_act {may : Processes → Action → Prop} [∀ s a, Decidable (may s a)]
    {a : Action} (h : s.perform may a = some s') :
    s.Enabled a ∧ may s a ∧ ∃ r, s.act a = .ok (s', r) := by
  rw [perform] at h
  split at h
  · next he =>
    cases hact : s.act a with
    | error e => simp [hact, Except.toOption] at h
    | ok r =>
      obtain rfl : r.1 = s' := by simpa [hact, Except.toOption] using h
      exact ⟨he.1, he.2, r.2, rfl⟩
  · cases h

theorem Processes.perform_run {may : Processes → Action → Prop} [∀ s a, Decidable (may s a)]
    {actions : List Action} (h : actions.foldlM (Processes.perform may) s = some s') :
    Relation.ReflTransGen (ProcessStep may) s s' := by
  induction actions generalizing s with
  | nil =>
    obtain rfl := Option.some.inj h
    exact .refl
  | cons a actions ih =>
    obtain ⟨s₁, h₁, h₂⟩ := Option.bind_eq_some_iff.mp h
    obtain ⟨he, hm, r, ha⟩ := perform_act h₁
    exact .head (.act he hm ha) (ih h₂)

/-- Thirty-two pages of memory from the second megabyte on. -/
def smallKmem : Kmem where
  hhdmOffset := 0xffff800000000000
  kmemStart := 0xffff800000100000
  kmemLength := 0x20000
  kmemTotalPages := 0x20
  kmemPageArray i := if i < 1 then .pageArray else .free
  kmemUsedPages := 0

theorem smallKmem_init :
    kmemInit (some 0xffff800000000000) (some [⟨0x100000, 0x20000, 0⟩]) = .ok smallKmem := rfl

def smallProcesses : Processes := Processes.init ⟨smallKmem, []⟩ fun _ => .cleared

/-- `init`, the kernel thread, and two children of `init`, of which the second waits for
the first, as `init` itself does. -/
def twoWaiters : List Action :=
  [.boot, .boot, .fork 0xffff800000101030, .fork 0xffff800000101030,
   .waitpid 0xffff800000101438 3, .waitpid 0xffff800000101030 3,
   .exit 0xffff8000001012E0 7, .resume 0xffff800000101030, .resume 0xffff800000101438]

theorem waitpid_frees_twice : ∃ s, Relation.ReflTransGen (ProcessStep fun _ _ => True)
    smallProcesses s ∧ ¬ReapedOnce s := by
  have hreaps : (twoWaiters.foldlM (Processes.perform fun _ _ => True) smallProcesses).map
      (fun s => s.reaps.map Reap.task) = some [2, 2] := by decide +kernel
  obtain ⟨s, hrun, hs⟩ := Option.map_eq_some_iff.mp hreaps
  refine ⟨s, Processes.perform_run hrun, fun honce => ?_⟩
  have hnd := honce.once
  rw [hs] at hnd
  exact absurd hnd (by decide)

theorem ProcessStep.mono {may may' : Processes → Action → Prop} (h : ProcessStep may s s')
    (hm : ∀ s a, may s a → may' s a) : ProcessStep may' s s' := by
  cases h with
  | act he hmay ha => exact .act he (hm _ _ hmay) ha
  | other hk hb => exact .other hk hb

theorem Processes.careful_of_isNone {a : Action} (h : (s.reaper a).isNone) : s.Careful a := by
  intro r hr
  simp [hr] at h

theorem Processes.careful_resume
    (h : ∀ u ∈ s.taskStructLh, u ≠ t → s.waiting u = none) : s.Careful (.resume t) := by
  intro r hr u hu hut
  obtain ⟨x, -, hx⟩ := Option.bind_eq_some_iff.mp hr
  split at hx
  · cases hx
  · obtain rfl := Option.some.inj hx
    simp [h u hu hut]

/-- The same without the second waiter, up to the free. -/
def oneWaiter : List Action :=
  [.boot, .boot, .fork 0xffff800000101030, .waitpid 0xffff800000101030 3,
   .exit 0xffff8000001012E0 7]

theorem waitpid_reaps_once_oneWaiter : ∃ s, Relation.ReflTransGen
    (ProcessStep Processes.Careful) smallProcesses s ∧
      s.reaps.map (fun r => (r.task, r.argument, r.status)) = [(2, 3, 7)] ∧ ReapedOnce s := by
  have hreap : ((oneWaiter.foldlM (Processes.perform fun s a => (s.reaper a).isNone)
      smallProcesses).bind fun s => (s.perform (fun _ _ => True)
        (.resume 0xffff800000101030)).map fun s' =>
          (s.taskStructLh.map fun u => (u, s.waiting u),
            s'.reaps.map fun r => (r.task, r.argument, r.status))) =
      some ([(0xffff800000101030, some (0xffff8000001012E0, 3)), (0xffff800000101188, none),
        (0xffff8000001012E0, none)], [(2, 3, 7)]) := by
    decide +kernel
  obtain ⟨s, hrun, hs⟩ := Option.bind_eq_some_iff.mp hreap
  obtain ⟨s', hlast, hs'⟩ := Option.map_eq_some_iff.mp hs
  obtain ⟨hwaiting, hreaps⟩ := Prod.mk.inj hs'
  have hsole : s.Careful (.resume 0xffff800000101030) := by
    refine Processes.careful_resume fun u hu hut => ?_
    have hmem := List.mem_map_of_mem (f := fun u => (u, s.waiting u)) hu
    simp only [hwaiting, List.mem_cons, Prod.mk.injEq, List.not_mem_nil, or_false] at hmem
    rcases hmem with ⟨rfl, -⟩ | ⟨-, hnone⟩ | ⟨-, hnone⟩
    · exact absurd rfl hut
    · exact hnone
    · exact hnone
  have hcareful : Relation.ReflTransGen (ProcessStep Processes.Careful) smallProcesses s' := by
    obtain ⟨he, -, r, ha⟩ := Processes.perform_act hlast
    refine .tail ((Processes.perform_run hrun).lift id fun _ _ h => ?_) (.act he hsole ha)
    exact h.mono fun _ _ hm => Processes.careful_of_isNone hm
  exact ⟨s', hcareful, hreaps, (waitpid_reaps_once smallKmem_init
    ⟨by decide, by decide, by decide, by decide⟩ .refl _ hcareful).1⟩

end Persistos
