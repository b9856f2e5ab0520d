import Persistos.NvmeCommands
import Mathlib.Data.Finset.Card

/-! Which command ids stay taken. A task frees the id that it took, unless KILL ends it
before. -/

namespace Persistos

/-- The search of `start_command`. -/
def startCommand (status : U16 → U8) : Nat → U16 → Except Crash U16
  | 0, _ => .error .endless
  | passes + 1, commandId =>
    if status commandId ≠ nvmeCommandFree then startCommand status passes (nextCommandId commandId)
    else .ok commandId

/-- The step ends no task that has taken an id. -/
def SparesHolders (s s' : NvmeTasks) : Prop :=
  ∀ t, s'.killed t = true → s.killed t = true ∨ (s.pc t).holds = none

/-- An id that is not free belongs to a task that is still in its call. -/
def IdsConserved (s : NvmeTasks) : Prop :=
  ∀ c, s.status c ≠ nvmeCommandFree → ∃ t, s.killed t = false ∧ (s.pc t).holds = some c

/-- An id that is not free belongs to a task. -/
def IdsHeld (s : NvmeTasks) : Prop :=
  ∀ c, s.status c ≠ nvmeCommandFree → ∃ t, (s.pc t).holds = some c

theorem startCommand_finds {status : U16 → U8} {passes : Nat} {start c : U16}
    (hpasses : start.toNat + passes = nvmeMaxCommands) (hle : start.toNat ≤ c.toNat)
    (hlt : c.toNat < nvmeMaxCommands) (hfree : status c = nvmeCommandFree) :
    ∃ commandId, startCommand status passes start = .ok commandId ∧
      status commandId = nvmeCommandFree := by
  induction passes generalizing start with
  | zero => omega
  | succ passes ih =>
    rw [startCommand]
    by_cases hs : status start = nvmeCommandFree
    · exact ⟨start, if_neg (not_not_intro hs), hs⟩
    · rw [if_pos hs]
      have hne : start ≠ c := fun he => hs (he ▸ hfree)
      have hnat : start.toNat ≠ c.toNat := fun he => hne (BitVec.eq_of_toNat_eq he)
      have hnext : (nextCommandId start).toNat = start.toNat + 1 := by
        simp only [nvmeMaxCommands] at hlt
        have hsucc : (start + 1).toNat = start.toNat + 1 := by bv_omega
        have hwrap : start + 1 ≠ BitVec.ofNat 16 nvmeMaxCommands := by
          intro he
          have hh := congrArg BitVec.toNat he
          have hmax : (BitVec.ofNat 16 nvmeMaxCommands).toNat = 128 := rfl
          omega
        rw [nextCommandId, if_neg hwrap, hsucc]
      exact ih (by omega) (by omega)

namespace NvmeTasks.Inv

variable {s : NvmeTasks}

/-- The handler sets only the status of an id that is in use. -/
theorem interrupt_status (h : s.Inv) {run : NvmeRun} (hstep : NvmeStep s.run run)
    (hpost : run.posted = s.run.posted) {c : U16}
    (hc : run.dev.commandStatuses c.toNat ≠ nvmeCommandFree) : s.status c ≠ nvmeCommandFree := by
  cases hstep with
  | @post id entry room phase =>
    have hlen := congrArg (fun posted => (posted id).length) hpost
    simp [NvmeRun.post] at hlen
  | interrupt => exact hc
  | leave => exact hc
  | @pass id needed dev within taken =>
    obtain ⟨entry, hentry, -, hst, -, -⟩ := h.queues.completionPass taken
    by_cases hid : c = entry.commandIdentifier
    · obtain rfl : id = .io := by
        cases id with
        | admin => simp [h.admin] at hentry
        | io => rfl
      obtain ⟨command, hcommand, hsame⟩ : ∃ command,
          s.completed[(s.run.dev.finished .io).length]? = some command ∧
            command.commandId = entry.commandIdentifier := by
        have hh := congrArg (fun l => l[(s.run.dev.finished .io).length]?) h.ids
        simp only [List.getElem?_map, hentry, Option.map_some] at hh
        exact Option.map_eq_some_iff.mp hh
      have hout : command ∈ s.outstanding := by
        obtain ⟨hlt, rfl⟩ := List.getElem?_eq_some_iff.mp hcommand
        refine List.mem_append_right _ ?_
        rw [List.drop_eq_getElem_cons hlt]
        exact List.mem_cons_self
      have hflight := (h.waiting command hout).1
      rw [hid, ← hsame, hflight]
      decide
    · have hne : c.toNat ≠ entry.commandIdentifier.toNat := fun hn => hid (BitVec.eq_of_toNat_eq hn)
      have hold : dev.commandStatuses c.toNat = s.status c := by
        rw [hst, finishCommand, Function.update_of_ne hne]
        rfl
      exact hold ▸ hc

end NvmeTasks.Inv

namespace IdsHeld

variable {s s₁ : NvmeTasks} {pc : CommandPc}

/-- A task that goes on and keeps what it held. -/
theorem goto (h : IdsHeld s) (hpc : s₁.pc = s.pc) (hcur : s₁.current = s.current)
    (hstatus : ∀ c, s₁.status c ≠ nvmeCommandFree → s.status c ≠ nvmeCommandFree)
    (hkeep : ∀ c, (s.pc s.current).holds = some c → pc.holds = some c) :
    IdsHeld (s₁.goto pc) := by
  intro c hc
  obtain ⟨t, ht⟩ := h c (hstatus c hc)
  refine ⟨t, ?_⟩
  by_cases hcurrent : t = s₁.current
  · rw [hcurrent, NvmeTasks.goto_pc_current]
    rw [hcurrent, hcur] at ht
    exact hkeep c ht
  · rw [NvmeTasks.goto_pc_ne s₁ pc hcurrent, hpc]
    exact ht

theorem step {s' : NvmeTasks} (h : IdsHeld s) (hi : s.Inv) (hs : NvmeTaskStep s s') :
    IdsHeld s' := by
  cases hs with
  | call runs at_pc =>
    refine h.goto rfl rfl (fun _ hc => hc) fun c hc => ?_
    rw [at_pc] at hc
    cases hc
  | room runs at_pc =>
    refine h.goto rfl rfl (fun _ hc => hc) fun c hc => ?_
    rw [at_pc] at hc
    cases hc
  | skip runs at_pc =>
    refine h.goto rfl rfl (fun _ hc => hc) fun c hc => ?_
    rw [at_pc] at hc
    cases hc
  | find runs at_pc =>
    refine h.goto rfl rfl (fun _ hc => hc) fun c hc => ?_
    rw [at_pc] at hc
    cases hc
  | @take d runs at_pc =>
    intro c hc
    by_cases hcd : c = d
    · refine ⟨s.current, ?_⟩
      have hgoto := NvmeTasks.goto_pc_current (s.setStatus d nvmeCommandInFlight) (.submit d)
      exact (congrArg CommandPc.holds hgoto).trans (congrArg some hcd.symm)
    · rw [NvmeTasks.goto_status, NvmeTasks.setStatus_status, if_neg hcd] at hc
      obtain ⟨t, ht⟩ := h c hc
      have hne : t ≠ s.current := by
        rintro rfl
        rw [at_pc] at ht
        cases ht
      refine ⟨t, ?_⟩
      rw [NvmeTasks.goto_pc_ne (s.setStatus d nvmeCommandInFlight) _ hne]
      exact ht
  | submit runs at_pc =>
    refine h.goto rfl rfl (fun _ hc => hc) fun c hc => ?_
    rw [at_pc] at hc
    exact hc
  | pass runs at_pc =>
    refine h.goto rfl rfl (fun _ hc => hc) fun c hc => ?_
    rw [at_pc] at hc
    exact hc
  | @release d runs at_pc =>
    intro c hc
    have hcd : c ≠ d := by
      rintro rfl
      rw [NvmeTasks.goto_status, NvmeTasks.setStatus_status, if_pos rfl] at hc
      exact hc rfl
    rw [NvmeTasks.goto_status, NvmeTasks.setStatus_status, if_neg hcd] at hc
    obtain ⟨t, ht⟩ := h c hc
    have hne : t ≠ s.current := by
      rintro rfl
      rw [at_pc] at ht
      exact hcd (Option.some.inj ht).symm
    refine ⟨t, ?_⟩
    rw [NvmeTasks.goto_pc_ne (s.setStatus d nvmeCommandFree) _ hne]
    exact ht
  | yield => exact h
  | kill => exact h
  | interrupt hstep no_post =>
    intro c hc
    exact h c (hi.interrupt_status hstep no_post hc)
  | complete => exact h

end IdsHeld

/-- A task that has ended does not move. -/
theorem NvmeTaskStep.pc_killed {s s' : NvmeTasks} (h : NvmeTaskStep s s') {t : Nat}
    (ht : s'.killed t = true) : s'.pc t = s.pc t := by
  have hgoto : ∀ (s₁ : NvmeTasks) (pc : CommandPc), s₁.pc = s.pc → s₁.current = s.current →
      s.CanRun → s.killed t = true → (s₁.goto pc).pc t = s.pc t := by
    intro s₁ pc hpc hcur hruns hk
    have hne : t ≠ s₁.current := by
      rintro rfl
      rw [hcur, hruns.2] at hk
      cases hk
    rw [NvmeTasks.goto_pc_ne s₁ pc hne, hpc]
  cases h with
  | call runs => exact hgoto _ _ rfl rfl runs ht
  | room runs => exact hgoto _ _ rfl rfl runs ht
  | skip runs => exact hgoto _ _ rfl rfl runs ht
  | find runs => exact hgoto _ _ rfl rfl runs ht
  | take runs => exact hgoto _ _ rfl rfl runs ht
  | submit runs => exact hgoto _ _ rfl rfl runs ht
  | pass runs => exact hgoto _ _ rfl rfl runs ht
  | release runs => exact hgoto _ _ rfl rfl runs ht
  | yield => rfl
  | kill => rfl
  | interrupt => rfl
  | complete => rfl

theorem NvmeTasksReachable.held {s : NvmeTasks} (h : NvmeTasksReachable s) : IdsHeld s := by
  induction h with
  | refl => exact fun c hc => absurd rfl hc
  | tail hrun hstep ih => exact ih.step (NvmeTasksReachable.inv hrun) hstep

/-- With fewer tasks in their calls than there are ids, one is free. -/
theorem IdsConserved.free {s : NvmeTasks} (h : IdsConserved s) {live : Finset Nat}
    (hlive : ∀ t, s.killed t = false → s.pc t ≠ .idle → t ∈ live)
    (hcard : live.card < nvmeMaxCommands) :
    ∃ c : U16, c.toNat < nvmeMaxCommands ∧ s.status c = nvmeCommandFree := by
  by_contra hnone
  have hholder : ∀ n ∈ Finset.range nvmeMaxCommands,
      ∃ t ∈ live, (s.pc t).holds = some (BitVec.ofNat 16 n) := by
    intro n hn
    have hlt : n < 128 := Finset.mem_range.mp hn
    have htoNat : (BitVec.ofNat 16 n).toNat = n := by
      rw [BitVec.toNat_ofNat]
      omega
    have hused : s.status (BitVec.ofNat 16 n) ≠ nvmeCommandFree := fun hfree =>
      hnone ⟨_, htoNat.symm ▸ hlt, hfree⟩
    obtain ⟨t, halive, hholds⟩ := h _ hused
    refine ⟨t, hlive t halive fun hidle => ?_, hholds⟩
    rw [hidle] at hholds
    cases hholds
  choose! holder hmem hholds using hholder
  have hinj : Set.InjOn holder (Finset.range nvmeMaxCommands) := by
    intro m hm n hn he
    have hsame := (hholds m hm).symm.trans (he ▸ hholds n hn)
    have hnat := congrArg BitVec.toNat (Option.some.inj hsame)
    have hm' : m < 128 := Finset.mem_range.mp hm
    have hn' : n < 128 := Finset.mem_range.mp hn
    simp only [BitVec.toNat_ofNat] at hnat
    omega
  have hle := Finset.card_le_card_of_injOn holder hmem hinj
  rw [Finset.card_range] at hle
  omega

/-- A run in which KILL ends no task that has taken an id. -/
abbrev SparingRun : NvmeTasks → Prop :=
  Relation.ReflTransGen (fun s s' => NvmeTaskStep s s' ∧ SparesHolders s s') NvmeTasks.init

theorem SparingRun.reachable {s : NvmeTasks} (h : SparingRun s) : NvmeTasksReachable s :=
  Relation.ReflTransGen.mono (fun _ _ hs => And.left hs) _ _ h

theorem SparingRun.spared {s : NvmeTasks} (h : SparingRun s) :
    ∀ t, s.killed t = true → (s.pc t).holds = none := by
  induction h with
  | refl => exact fun t ht => absurd ht Bool.false_ne_true
  | tail _ hstep ih =>
    intro t ht
    rw [hstep.1.pc_killed ht]
    exact (hstep.2 t ht).elim (ih t) id

theorem SparingRun.conserved {s : NvmeTasks} (h : SparingRun s) : IdsConserved s := by
  intro c hc
  obtain ⟨t, ht⟩ := h.reachable.held c hc
  refine ⟨t, ?_, ht⟩
  cases hk : s.killed t with
  | false => rfl
  | true =>
    rw [h.spared t hk] at ht
    cases ht

/-- The ids are conserved as long as KILL hits no task that has taken one, and no longer.
While they are, and fewer tasks are in their calls than there are ids, the search of
`start_command` ends. -/
theorem command_ids_conserved {s : NvmeTasks} (h : SparingRun s) :
    IdsConserved s ∧
    (∀ live : Finset Nat, (∀ t, s.killed t = false → s.pc t ≠ .idle → t ∈ live) →
      live.card < nvmeMaxCommands → ∃ c, startCommand s.status nvmeMaxCommands 0 = .ok c ∧
        s.status c = nvmeCommandFree) ∧
    ∀ s', NvmeTaskStep s s' → (IdsConserved s' ↔ SparesHolders s s') := by
  refine ⟨h.conserved, ?_, ?_⟩
  · intro live hlive hcard
    obtain ⟨c, hlt, hfree⟩ := h.conserved.free hlive hcard
    exact startCommand_finds (Nat.zero_add _) (Nat.zero_le _) hlt hfree
  · intro s' hstep
    constructor
    · intro hconserved t ht
      cases hold : s.killed t with
      | true => exact .inl rfl
      | false =>
        refine .inr (Option.eq_none_iff_forall_ne_some.mpr fun c hc => ?_)
        have hinv := hstep.inv h.reachable.inv
        have hc' : (s'.pc t).holds = some c := by
          rw [hstep.pc_killed ht]
          exact hc
        obtain ⟨u, halive, hu⟩ := hconserved c (hinv.status_ne_free hc')
        obtain rfl := hinv.unique u t c hu hc'
        rw [ht] at halive
        cases halive
    · intro hspares
      exact SparingRun.conserved (h.tail ⟨hstep, hspares⟩)

/-- A task whose command is in flight, and one that ends it. -/
theorem kill_loses_command_id : ∃ s : NvmeTasks, NvmeTasksReachable s ∧ ¬IdsConserved s := by
  have h₁ : NvmeTasksReachable _ := .single (.call ⟨rfl, rfl⟩ rfl)
  have h₂ := h₁.tail (.room ⟨rfl, rfl⟩ rfl (by decide))
  have h₃ := h₂.tail (.find ⟨rfl, rfl⟩ rfl rfl)
  have h₄ := h₃.tail (.take ⟨rfl, rfl⟩ rfl)
  have h₅ := h₄.tail (.submit ⟨rfl, rfl⟩ rfl (.inl rfl))
  have h₆ := h₅.tail (.yield (t := 1) rfl (.inr (.inr (.inr ⟨0, 0, rfl, rfl⟩))) rfl)
  have h₇ := h₆.tail (.kill (t := 0) ⟨rfl, rfl⟩ rfl)
  refine ⟨_, h₇, fun hconserved => ?_⟩
  obtain ⟨t, halive, hholds⟩ := hconserved 0 (by decide)
  have h0 : t = 0 := (NvmeTasksReachable.inv h₇).unique t 0 0 hholds rfl
  rw [h0] at halive
  exact absurd halive (by decide)

/-- One task that has taken its first id. -/
theorem command_ids_conserved_one_task : ∃ s : NvmeTasks, SparingRun s ∧
    s.status 0 = nvmeCommandInFlight ∧ IdsConserved s := by
  have hspares : ∀ s s' : NvmeTasks, s'.killed = s.killed → SparesHolders s s' :=
    fun s s' hk t ht => .inl (hk ▸ ht)
  have h₁ : SparingRun _ := .single ⟨.call ⟨rfl, rfl⟩ rfl, hspares _ _ rfl⟩
  have h₂ := h₁.tail ⟨.room ⟨rfl, rfl⟩ rfl (by decide), hspares _ _ rfl⟩
  have h₃ := h₂.tail ⟨.find ⟨rfl, rfl⟩ rfl rfl, hspares _ _ rfl⟩
  have h₄ := h₃.tail ⟨.take ⟨rfl, rfl⟩ rfl, hspares _ _ rfl⟩
  exact ⟨_, h₄, rfl, (command_ids_conserved h₄).1⟩

end Persistos
