import Persistos.ExecPacking
import Persistos.ForkStack

/-! From the staging page to `main`. The page moves to the top of the user's
stack by one distance, and so do the pointers in it. -/

namespace Persistos

open Theory

variable {memory memory' : ByteMemory} {stackBuffer relocated sp delta interruptRsp : U64}
  {args : List (List U8)} {i fuel : Nat}

/-- What `_start` finds: the pointer to the array of arguments at `rsp`, the strings
apart from each other below the array, and all of it below the end of the stack. -/
structure UserArgs (memory : ByteMemory) (rsp : U64) (strings : List (U64 × List U8)) : Prop where
  aligned : rsp.toNat % 8 = 0
  vector : ArgVector memory (load64 memory rsp) strings
  array : rsp.toNat + 8 ≤ (load64 memory rsp).toNat ∧
    (load64 memory rsp).toNat + 8 * (strings.length + 1) = userEntryRsp.toNat
  inside : ∀ s ∈ strings, rsp.toNat + 8 ≤ s.1.toNat ∧
    s.1.toNat + s.2.length + 1 ≤ (load64 memory rsp).toNat
  apart : strings.Pairwise fun s t => t.1.toNat + t.2.length + 1 ≤ s.1.toNat

theorem UserArgs.congr {rsp : U64} {strings : List (U64 × List U8)}
    (h : UserArgs memory rsp strings)
    (hs : SameOn memory memory' rsp.toNat userEntryRsp.toNat) : UserArgs memory' rsp strings := by
  have htop : userEntryRsp.toNat = 0x800000000000 := by decide
  obtain ⟨hlo, hhi⟩ := h.array
  have hlead : load64 memory' rsp = load64 memory rsp :=
    load64_congr (hs.mono (Nat.le_refl _) (by omega)) (by omega)
  constructor
  · exact h.aligned
  · rw [hlead]
    constructor
    · have hlen : (strings.map Prod.fst ++ [0]).length = strings.length + 1 := by simp
      refine h.vector.array.congr (hs.mono (by omega) (by rw [hlen]; omega)) (by rw [hlen]; omega)
    · intro s hmem
      obtain ⟨hl, hr⟩ := h.inside s hmem
      have hsame : SameOn memory memory' s.1.toNat (s.1.toNat + (s.2.length + 1)) :=
        hs.mono (by omega) (by omega)
      exact ⟨(h.vector.strings s hmem).1,
        (h.vector.strings s hmem).2.copied (hsame.copied (by omega))⟩
  · rw [hlead]
    exact h.array
  · rw [hlead]
    exact h.inside
  · exact h.apart

theorem relocateArgs_spec (delta : U64) {ws : List U64}
    (h : WordsAt memory (relocated + BitVec.ofNat 64 (8 * i)) ws)
    (hb : relocated.toNat + 8 * (i + ws.length) < 2 ^ 64) :
    WordsAt (relocateArgs relocated delta ws.length i memory)
      (relocated + BitVec.ofNat 64 (8 * i)) (ws.map (· + delta)) ∧
    ∀ x : U64, x.toNat < relocated.toNat + 8 * i ∨
      relocated.toNat + 8 * (i + ws.length) ≤ x.toNat →
      relocateArgs relocated delta ws.length i memory x = memory x := by
  induction ws generalizing memory i with
  | nil => exact ⟨trivial, fun _ _ => rfl⟩
  | cons w ws ih =>
    simp only [List.length_cons] at hb ⊢
    have hslot := words_toNat (a := relocated) (i := i) (by omega)
    have hnext := words_toNat (a := relocated) (i := i + 1) (by omega)
    have hrest := h.2
    rw [words_succ] at hrest
    have hw : load64 memory (relocated + BitVec.ofNat 64 (8 * i)) = w := h.1
    have hsame : SameOn memory (store64 memory (relocated + BitVec.ofNat 64 (8 * i)) (w + delta))
        (relocated + BitVec.ofNat 64 (8 * (i + 1))).toNat
        ((relocated + BitVec.ofNat 64 (8 * (i + 1))).toNat + 8 * ws.length) :=
      store64_same (by omega) (by omega)
    obtain ⟨hwords, hout⟩ := ih (hrest.congr hsame (by omega)) (by omega)
    rw [relocateArgs, hw]
    refine ⟨⟨?_, by rw [words_succ]; exact hwords⟩, ?_⟩
    · have hkeep : SameOn (store64 memory (relocated + BitVec.ofNat 64 (8 * i)) (w + delta))
          (relocateArgs relocated delta ws.length (i + 1)
            (store64 memory (relocated + BitVec.ofNat 64 (8 * i)) (w + delta)))
          (relocated + BitVec.ofNat 64 (8 * i)).toNat
          ((relocated + BitVec.ofNat 64 (8 * i)).toNat + 8) :=
        fun x hx hx' => hout x (by omega)
      exact (load64_congr hkeep (by omega)).trans (load64_store64 (by omega))
    · intro x hx
      rw [hout x (by omega), store64_outside (by omega) (by omega)]

/-- The page once every pointer in it has moved by `delta`. -/
structure RelocatedPage (memory : ByteMemory) (relocated sp delta : U64)
    (args : List (List U8)) : Prop where
  array : WordsAt memory relocated
    ((placeArgs relocated args).map (fun s => s.1 + delta) ++ [0])
  strings : ∀ s ∈ placeArgs relocated args, StringAt memory s.1 s.2
  leading : load64 memory sp = relocated + delta

theorem PackedPage.relocate (h : PackedPage memory stackBuffer relocated sp args)
    (hb : stackBuffer.toNat + 4096 < 2 ^ 64) (delta : U64) :
    RelocatedPage (store64 (relocateArgs relocated delta args.length 0 memory) sp
      (load64 (relocateArgs relocated delta args.length 0 memory) sp + delta))
      relocated sp delta args := by
  have harray := h.array
  have hroom := h.room
  have hlen : ((placeArgs relocated args).map Prod.fst).length = args.length := by
    rw [List.length_map, placeArgs_length]
  obtain ⟨hptrs, hnull⟩ := wordsAt_append.mp h.vector.array
  have hfirst : WordsAt memory (relocated + BitVec.ofNat 64 (8 * 0))
      ((placeArgs relocated args).map Prod.fst) := by simpa using hptrs
  obtain ⟨hwords, hout⟩ := relocateArgs_spec delta hfirst (by omega)
  rw [hlen] at hwords hout
  have hsame : SameOn memory (relocateArgs relocated delta args.length 0 memory) sp.toNat
      relocated.toNat := fun x _ hx' => hout x (by omega)
  have hlead : load64 (relocateArgs relocated delta args.length 0 memory) sp = relocated :=
    (load64_congr (hsame.mono (Nat.le_refl _) (by omega)) (by omega)).trans h.leading
  have hnullN := words_toNat (a := relocated) (i := args.length) (by omega)
  rw [hlead]
  generalize relocateArgs relocated delta args.length 0 memory = moved at *
  have hstore (lo hi : Nat) (hlo : sp.toNat + 8 ≤ lo) :
      SameOn moved (store64 moved sp (relocated + delta)) lo hi :=
    store64_same (by omega) (by omega)
  constructor
  · have hall : WordsAt moved relocated
        ((placeArgs relocated args).map (fun s => s.1 + delta) ++ [0]) := by
      rw [hlen] at hnull
      have hkeep : SameOn memory moved (relocated + BitVec.ofNat 64 (8 * args.length)).toNat
          ((relocated + BitVec.ofNat 64 (8 * args.length)).toNat + 8) :=
        fun x hx _ => hout x (by omega)
      refine wordsAt_append.mpr ⟨by simpa [Function.comp_def] using hwords, ?_⟩
      rw [List.length_map, placeArgs_length]
      exact hnull.congr hkeep (by change _ + 8 ≤ _; omega)
    have hsize : ((placeArgs relocated args).map (fun s => s.1 + delta) ++ [(0 : U64)]).length =
        args.length + 1 := by simp [placeArgs_length]
    exact hall.congr (hstore _ _ (by omega)) (by rw [hsize]; omega)
  · intro s hmem
    obtain ⟨hlo, hhi⟩ := placeArgs_bounds (by omega) s hmem
    have hkeep : SameOn memory moved s.1.toNat (s.1.toNat + (s.2.length + 1)) :=
      fun x _ hx' => hout x (by omega)
    exact (h.vector.strings s hmem).2.copied
      ((hkeep.trans (hstore _ _ (by omega))).copied (by omega))
  · exact load64_store64 (by omega)

theorem startCount_eq {rdi rsi : U64} {ptrs : List U64} (h : WordsAt memory rsi (ptrs ++ [0]))
    (hn : 0 ∉ ptrs) (hf : ptrs.length < fuel) :
    startCount memory fuel rdi rsi = .ok (rdi + BitVec.ofNat 64 ptrs.length) := by
  induction ptrs generalizing rdi rsi fuel with
  | nil =>
    obtain ⟨fuel, rfl⟩ := Nat.exists_eq_add_of_lt hf
    simp [startCount, h.1]
  | cons p ptrs ih =>
    cases fuel with
    | zero => simp at hf
    | succ fuel =>
      simp only [List.mem_cons, not_or] at hn
      have hp : load64 memory rsi = p := h.1
      rw [startCount, hp, if_neg (Ne.symm hn.1), ih h.2 hn.2 (by simpa using hf),
        List.length_cons, add_ofNat_succ]

theorem userEntryRsp_toNat : userEntryRsp.toNat = 0x800000000000 := by decide

/-- A place in the page and where it is on the user's stack. -/
theorem moved_toNat {a : U64} (hlo : stackBuffer.toNat ≤ a.toNat)
    (hhi : a.toNat ≤ stackBuffer.toNat + 4096) (hb : stackBuffer.toNat + 4096 < 2 ^ 64) :
    (a + (userEntryRsp - (stackBuffer + 4096))).toNat + (stackBuffer.toNat + 4096) =
      a.toNat + userEntryRsp.toNat := by
  have hend : (stackBuffer + 4096).toNat = stackBuffer.toNat + 4096 := toNat_add_ofNat hb
  have hu := userEntryRsp_toNat
  have hlt := a.isLt
  rw [BitVec.toNat_add, BitVec.toNat_sub, hend]
  omega

/-- What is copied to the user's stack is the page from `sp` on. -/
theorem RelocatedPage.userArgs (hp : PackedPage memory' stackBuffer relocated sp args)
    (ha : stackBuffer.toNat % 8 = 0) (hb : stackBuffer.toNat + 4096 < 2 ^ 64)
    (h : RelocatedPage memory relocated sp (userEntryRsp - (stackBuffer + 4096)) args)
    {user : ByteMemory}
    (hc : Copied memory user sp (sp + (userEntryRsp - (stackBuffer + 4096)))
      (stackBuffer.toNat + 4096 - sp.toNat)) :
    UserArgs user (sp + (userEntryRsp - (stackBuffer + 4096)))
      ((placeArgs relocated args).map
        fun s => (s.1 + (userEntryRsp - (stackBuffer + 4096)), s.2)) := by
  have hu := userEntryRsp_toNat
  have harray := hp.array
  have hlower := hp.lower
  have hroom := hp.room
  have haligned := hp.aligned
  have hsp := moved_toNat (a := sp) hlower (by omega) hb
  have hrel : (relocated + (userEntryRsp - (stackBuffer + 4096))).toNat +
      (stackBuffer.toNat + 4096) = relocated.toNat + userEntryRsp.toNat :=
    moved_toNat (by omega) (by omega) hb
  generalize hdelta : userEntryRsp - (stackBuffer + 4096) = delta at *
  have hlead : load64 user (sp + delta) = relocated + delta :=
    (load64_copied (hc.mono (by omega))).trans h.leading
  have hplace : ∀ s ∈ placeArgs relocated args,
      sp.toNat + 8 ≤ s.1.toNat ∧ s.1.toNat + s.2.length + 1 ≤ relocated.toNat ∧
        (s.1 + delta).toNat + (stackBuffer.toNat + 4096) = s.1.toNat + userEntryRsp.toNat := by
    intro s hs
    obtain ⟨hlo, hhi⟩ := placeArgs_bounds (by omega) s hs
    refine ⟨by omega, hhi, ?_⟩
    rw [← hdelta]
    exact moved_toNat (by omega) (by omega) hb
  constructor
  · omega
  · rw [hlead]
    constructor
    · have hlen : ((placeArgs relocated args).map (fun s => s.1 + delta) ++ [(0 : U64)]).length =
          args.length + 1 := by simp [placeArgs_length]
      have hwords := h.array.copied (hc.within (e := relocated) (by omega) (by rw [hlen]; omega))
      simpa [Function.comp_def] using hwords
    · simp only [List.forall_mem_map]
      intro s hs
      obtain ⟨hlo, hhi, hmoved⟩ := hplace s hs
      constructor
      · intro hz
        rw [hz] at hmoved
        simp at hmoved
        omega
      · exact (h.strings s hs).copied (hc.within (by omega) (by omega))
  · rw [hlead, List.length_map, placeArgs_length]
    omega
  · rw [hlead]
    simp only [List.forall_mem_map]
    intro s hs
    obtain ⟨hlo, hhi, hmoved⟩ := hplace s hs
    omega
  · rw [List.pairwise_map]
    refine (placeArgs_pairwise (by omega)).imp_of_mem ?_
    intro s t hs ht hst
    obtain ⟨-, -, hmoved⟩ := hplace s hs
    obtain ⟨-, -, hmoved'⟩ := hplace t ht
    change (t.1 + delta).toNat + t.2.length + 1 ≤ (s.1 + delta).toNat
    omega

theorem UserArgs.start {rsp : U64} {strings : List (U64 × List U8)}
    (h : UserArgs memory rsp strings) (hf : strings.length < fuel) :
    start fuel memory rsp = .ok (BitVec.ofNat 64 strings.length, load64 memory rsp) := by
  have hcount := @startCount_eq _ _ 0 _ _ h.vector.array h.vector.nonnull
    (by rw [List.length_map]; exact hf)
  rw [Persistos.start, hcount]
  simp

theorem passStack_userArgs (hp : PackedPage memory stackBuffer relocated sp args)
    (ha : stackBuffer.toNat % 8 = 0) (hlow : userEntryRsp.toNat ≤ stackBuffer.toNat)
    (hb : stackBuffer.toNat + 4096 < 2 ^ 64) (hframe : userEntryRsp.toNat ≤ interruptRsp.toNat)
    (hframe' : interruptRsp.toNat + 152 ≤ 2 ^ 64) (entry : U64) {user : ByteMemory}
    (huser : user = passStack memory args.length stackBuffer relocated sp interruptRsp entry) :
    load64 user (entryRipSlot interruptRsp) = entry ∧
      ∃ strings : List (U64 × List U8), strings.map Prod.snd = args ∧
        UserArgs user (load64 user (entryRspSlot interruptRsp)) strings := by
  have hu := userEntryRsp_toNat
  have hend : (stackBuffer + 4096).toNat = stackBuffer.toNat + 4096 := toNat_add_ofNat hb
  have harray := hp.array
  have hlower := hp.lower
  have hroom := hp.room
  have hsp := moved_toNat (a := sp) hlower (by omega) hb
  have hlen : (stackBuffer + 4096 - sp).toNat = stackBuffer.toNat + 4096 - sp.toNat := by
    rw [BitVec.toNat_sub, hend]
    omega
  have hdest : userEntryRsp - (stackBuffer + 4096 - sp) =
      sp + (userEntryRsp - (stackBuffer + 4096)) := by bv_omega
  have hrip : (entryRipSlot interruptRsp).toNat = interruptRsp.toNat + 112 :=
    words_toNat (by omega)
  have hrsp : (entryRspSlot interruptRsp).toNat = interruptRsp.toNat + 136 :=
    words_toNat (by omega)
  have hrel := hp.relocate hb (userEntryRsp - (stackBuffer + 4096))
  rw [passStack] at huser
  simp only [hlen, hdest] at huser
  generalize store64 (relocateArgs relocated (userEntryRsp - (stackBuffer + 4096)) args.length 0
    memory) sp _ = moved at *
  have hcopied : Copied moved
      (copyBytes moved (sp + (userEntryRsp - (stackBuffer + 4096))) sp
        (stackBuffer.toNat + 4096 - sp.toNat)) sp (sp + (userEntryRsp - (stackBuffer + 4096)))
      (stackBuffer.toNat + 4096 - sp.toNat) :=
    copyBytes_copied (by omega) (by omega) (by omega)
  generalize copyBytes moved (sp + (userEntryRsp - (stackBuffer + 4096))) sp
    (stackBuffer.toNat + 4096 - sp.toNat) = copied at *
  subst huser
  have hsame : SameOn copied (store64 (store64 copied (entryRipSlot interruptRsp) entry)
      (entryRspSlot interruptRsp) (sp + (userEntryRsp - (stackBuffer + 4096))))
      (sp + (userEntryRsp - (stackBuffer + 4096))).toNat
      ((sp + (userEntryRsp - (stackBuffer + 4096))).toNat +
        (stackBuffer.toNat + 4096 - sp.toNat)) :=
    (store64_same (by omega) (by omega)).trans (store64_same (by omega) (by omega))
  constructor
  · have hkeep : SameOn (store64 copied (entryRipSlot interruptRsp) entry)
        (store64 (store64 copied (entryRipSlot interruptRsp) entry)
          (entryRspSlot interruptRsp) (sp + (userEntryRsp - (stackBuffer + 4096))))
        (entryRipSlot interruptRsp).toNat ((entryRipSlot interruptRsp).toNat + 8) :=
      store64_same (by omega) (by omega)
    exact (load64_congr hkeep (by omega)).trans (load64_store64 (by omega))
  · rw [load64_store64 (by omega)]
    refine ⟨_, ?_, hrel.userArgs hp ha hb (hcopied.trans (hsame.copied (by omega)))⟩
    rw [List.map_map]
    exact placeArgs_snd relocated args

theorem skipZeroRax_entry {calls : CFunction → Machine → Machine → Prop} {m m' : Machine}
    (h : Exec calls skipZeroRax m m') :
    m'.memory = m.memory ∧ m'.rip = load64 m.memory (entryRipSlot (m.reg .rsp)) ∧
      m'.reg .rsp = load64 m.memory (entryRspSlot (m.reg .rsp)) := by
  have hsplit : skipZeroRax = ([.r15, .r14, .r13, .r12, .r11, .r10, .r9, .r8, .rbp, .rdi, .rsi,
    .rbx, .rdx, .rcx] : List Reg).map .pop ++ [.iretq] := rfl
  rw [hsplit] at h
  obtain ⟨m₁, hpop, _, hiret, rfl⟩ := exec_append.mp h
  obtain rfl : m' = m₁.iretq := hiret
  obtain ⟨hmem, hrsp⟩ := exec_pop_memory (by decide) hpop
  have hslot : m₁.reg .rsp = entryRipSlot (m.reg .rsp) := hrsp
  have hslot' : m₁.reg .rsp + 24 = entryRspSlot (m.reg .rsp) := by
    rw [hslot, entryRipSlot, entryRspSlot, BitVec.add_assoc]
    rfl
  refine ⟨hmem, ?_, ?_⟩
  · rw [← hmem, ← hslot]
    rfl
  · rw [← hmem, ← hslot']
    simp [Machine.iretq]

/-- A successful EXEC passes its arguments. `user` is the machine at `_start`, and
`program` the memory once `libc_init`, which keeps the stack of its caller, has returned. -/
theorem exec_passes_arguments (fuel : Nat) (load : ByteMemory → Option (ByteMemory × U64))
    (memory : ByteMemory) (stackBuffer argv interruptRsp : U64) (strings : List (U64 × List U8))
    (hpage : PageAligned stackBuffer) (hlow : userEntryRsp.toNat ≤ stackBuffer.toNat)
    (hb : stackBuffer.toNat + 4096 < 2 ^ 64) (hframe : userEntryRsp.toNat ≤ interruptRsp.toNat)
    (hframe' : interruptRsp.toNat + 152 ≤ 2 ^ 64)
    (h : CallerArgs memory stackBuffer argv strings) (hf : 4096 ≤ fuel)
    (hload : ∀ m m' entry, load m = some (m', entry) →
      SameOn m m' stackBuffer.toNat (stackBuffer.toNat + 4096)) :
    ∃ memory' status, sysExec fuel load memory stackBuffer argv interruptRsp =
        .ok (memory', status) ∧
      (status = 0 → ∃ packed loaded entry, load packed = some (loaded, entry) ∧
        ∀ (calls : CFunction → Machine → Machine → Prop) (m user : Machine),
          m.memory = memory' → m.reg .rsp = interruptRsp → Exec calls skipZeroRax m user →
          user.rip = entry ∧ ∀ program : ByteMemory,
            SameOn user.memory program (user.reg .rsp).toNat userEntryRsp.toNat →
            start fuel program (user.reg .rsp) =
              .ok (BitVec.ofNat 64 strings.length, load64 program (user.reg .rsp)) ∧
            ∃ userStrings : List (U64 × List U8),
              userStrings.map Prod.snd = strings.map Prod.snd ∧
              UserArgs program (user.reg .rsp) userStrings) := by
  have hfits := h.fits
  have ha : stackBuffer.toNat % 8 = 0 := by
    simp only [PageAligned] at hpage
    omega
  obtain ⟨packed, relocated, sp, hpack, hpacked, -⟩ := packStack_spec h ha hb hf
  rw [sysExec, hpack, ok_bind]
  dsimp only
  cases hl : load packed with
  | none => exact ⟨packed, -1, rfl, fun hh => absurd hh (by decide)⟩
  | some r =>
    obtain ⟨loaded, entry⟩ := r
    refine ⟨_, 0, rfl, fun _ => ⟨packed, loaded, entry, hl, ?_⟩⟩
    intro calls m user hm hrsp hexec
    have hlen : (strings.map Prod.snd).length = strings.length := List.length_map ..
    have hpage' := hpacked.congr hb (hload _ _ _ hl)
    rw [← hlen] at hm
    obtain ⟨hrip, userStrings, hsnd, huser⟩ :=
      passStack_userArgs hpage' ha hlow hb hframe hframe' entry hm
    obtain ⟨hmem, hrip', hrsp'⟩ := skipZeroRax_entry hexec
    rw [hrsp] at hrip' hrsp'
    rw [← hrsp', ← hmem] at huser
    refine ⟨hrip'.trans hrip, ?_⟩
    intro program hprogram
    have hargs := huser.congr hprogram
    have hcount : userStrings.length = strings.length := by
      simpa using congrArg List.length hsnd
    refine ⟨?_, userStrings, hsnd, hargs⟩
    rw [hargs.start (by omega), hcount]

/-- The memory of a shell that calls EXEC for `ls a`. -/
def lsMemory : ByteMemory :=
  let words := store64 (store64 (fun _ => 0) 0x600000 0x601000) 0x600008 0x601010
  Function.update (Function.update (Function.update words 0x601000 0x6C) 0x601001 0x73) 0x601010
    0x61

def lsArgs : List (U64 × List U8) := [(0x601000, [0x6C, 0x73]), (0x601010, [0x61])]

theorem lsMemory_args : CallerArgs lsMemory 0xFFFF800000100000 0x600000 lsArgs := by
  have harray : WordsAt lsMemory 0x600000 (lsArgs.map Prod.fst ++ [0]) := by decide +kernel
  have hls : BytesAt lsMemory 0x601000 [0x6C, 0x73, 0] := by decide +kernel
  have ha : BytesAt lsMemory 0x601010 [0x61, 0] := by decide +kernel
  refine ⟨⟨harray, ?_⟩, ⟨by decide, by decide⟩, ?_, by decide⟩
  · simp only [lsArgs, List.forall_mem_cons]
    exact ⟨⟨by decide, hls, by decide⟩, ⟨by decide, ha, by decide⟩, by simp⟩
  · simp only [lsArgs, List.forall_mem_cons]
    exact ⟨⟨by decide, by decide⟩, ⟨by decide, by decide⟩, by simp⟩

theorem exec_passes_arguments_ls :
    ∃ memory', sysExec 4096 (fun m => some (m, 0x400000)) lsMemory 0xFFFF800000100000 0x600000
        0xFFFF800000200000 = .ok (memory', 0) ∧
      ∃ user : Machine, user.rip = 0x400000 ∧ user.memory = memory' ∧
        start 4096 user.memory (user.reg .rsp) = .ok (2, load64 user.memory (user.reg .rsp)) ∧
        ∃ userStrings : List (U64 × List U8),
          userStrings.map Prod.snd = [[0x6C, 0x73], [0x61]] ∧
          UserArgs user.memory (user.reg .rsp) userStrings := by
  obtain ⟨memory', status, hrun, hmain⟩ := exec_passes_arguments 4096
    (fun m => some (m, 0x400000)) lsMemory 0xFFFF800000100000 0x600000 0xFFFF800000200000 lsArgs
    (by decide) (by decide) (by decide) (by decide) (by decide) lsMemory_args (Nat.le_refl _)
    (by
      intro m m' entry hh
      obtain ⟨rfl, -⟩ := Prod.mk.inj (Option.some.inj hh)
      exact SameOn.refl _ _ _)
  obtain ⟨packed, relocated, sp, hpack, -, -⟩ :=
    packStack_spec lsMemory_args (by decide) (by decide) (Nat.le_refl _)
  have hstatus : status = 0 := by
    rw [sysExec, hpack, ok_bind] at hrun
    exact (Prod.mk.inj (Except.ok.inj hrun)).2.symm
  subst hstatus
  obtain ⟨_, loaded, entry, hload, huser⟩ := hmain rfl
  obtain ⟨-, rfl⟩ := Prod.mk.inj (Option.some.inj hload)
  have hexec : Exec (fun _ m m' => m' = m) skipZeroRax
      ((⟨fun _ => 0, 0, 0, 0, 0, memory', 0, 0, 0, 0⟩ : Machine).setReg .rsp 0xFFFF800000200000) _ :=
    exec_callFree skipZeroRax_noCall _
  obtain ⟨hrip, hstart⟩ := huser _ _ _ rfl (Machine.setReg_self _ _ _) hexec
  obtain ⟨hcount, hargs⟩ := hstart _ (SameOn.refl _ _ _)
  exact ⟨memory', hrun, _, hrip, (skipZeroRax_entry hexec).1, hcount, hargs⟩

end Persistos
