import Persistos.ShellExpand

/-! The array of redirects that `exec_shell_line` builds. Whatever it writes next to them, the
numbers in it are 0 and 1. -/

namespace Persistos

open Theory

/-- `struct redirect_info` -/
structure RedirectInfo where
  fd : U64
  targetPath : List U8

/-- The element number `i` of the array. -/
def redirectInfoAt (memory : ByteMemory) (redirectInfos : U64) (i : Nat) : RedirectInfo :=
  let redirectInfo := redirectInfos + redirectInfoSize * BitVec.ofNat 64 i
  ⟨load64 memory redirectInfo,
    (List.range 400).map fun j => memory (redirectInfo + 8 + BitVec.ofNat 64 j)⟩

def redirectInfosAt (memory : ByteMemory) (redirectInfos : U64) (numRedirects : Nat) :
    List RedirectInfo := (List.range numRedirects).map (redirectInfoAt memory redirectInfos)

/-- No node is so long that its length and a buffer exceed the address space. -/
def Pair.Short (p : Pair) : Prop := ∀ q, p.Node q → q.stop - q.start + 400 ≤ 2 ^ 64

theorem Pair.Short.child {p c : Pair} (h : p.Short) (hc : c ∈ p.children) : c.Short :=
  fun q hq => h q (.child hc hq)

theorem expandedPair_node {childPair pair : Pair} (h : expandedPair childPair = .ok pair) :
    childPair.Node pair := by
  rw [expandedPair] at h
  split at h
  · cases h
    exact .self _
  · split at h
    · split at h
      · cases h
      · next contentPair rest hchildren =>
        cases h
        refine .child ?_ (.self _)
        rw [hchildren]
        exact List.mem_cons_self
    · cases h

theorem expandOffsets_le {fragments : List Pair} {n : U64} (hn : n.toNat < 400)
    (hshort : ∀ f ∈ fragments, f.Short) : ∀ o ∈ expandOffsets fragments n, o.toNat ≤ 400 := by
  induction fragments generalizing n with
  | nil => exact fun _ ho => absurd ho List.not_mem_nil
  | cons f fragments ih =>
    intro o ho
    simp only [expandOffsets] at ho
    split at ho
    · cases ho
    · next childPair rest hchildren =>
      split at ho
      · cases ho
      · next pair hpair =>
        split at ho
        · cases ho
        · next hfits =>
          have hmem : childPair ∈ f.children := by
            rw [hchildren]
            exact List.mem_cons_self
          have hlength := (hshort f List.mem_cons_self).child hmem pair (expandedPair_node hpair)
          have hlt : (n + BitVec.ofNat 64 (pair.stop - pair.start)).toNat < 400 :=
            Nat.lt_of_not_le hfits
          have hsmall : (BitVec.ofNat 64 (pair.stop - pair.start)).toNat =
              pair.stop - pair.start := by
            rw [BitVec.toNat_ofNat]
            omega
          have hsum : (n + BitVec.ofNat 64 (pair.stop - pair.start)).toNat =
              n.toNat + (pair.stop - pair.start) := by
            rw [BitVec.toNat_add, hsmall]
            omega
          rw [hsum] at hlt
          rcases List.mem_append.mp ho with ho | ho
          · obtain ⟨i, hi, rfl⟩ := List.mem_map.mp ho
            rw [List.mem_range, hsmall] at hi
            rw [BitVec.toNat_add, BitVec.toNat_ofNat]
            omega
          · rcases List.mem_cons.mp ho with rfl | ho
            · rw [BitVec.toNat_add, hsum]
              change (n.toNat + (pair.stop - pair.start) + 1) % 2 ^ 64 ≤ 400
              omega
            · exact ih (by omega) (fun g hg => hshort g (List.mem_cons_of_mem _ hg)) o ho

/-- The word goes into its buffer and the byte behind it. -/
theorem expandWord_frame {p : Pair} {out : U64} {m m' : ByteMemory}
    (h : expandWord p out m = .ok m') (hshort : p.Short) (hout : out.toNat + 400 < 2 ^ 64) {x : U64}
    (hx : x.toNat < out.toNat ∨ out.toNat + 400 < x.toNat) : m' x = m x := by
  refine expandFragments_frame h fun o ho he => ?_
  have hle := expandOffsets_le (by decide) (fun f hf => hshort.child hf) o ho
  rw [he, BitVec.toNat_add] at hx
  omega

/-- The number of elements with a child of this type. -/
def countChildren (type : PairType) (elements : List Pair) : Nat :=
  elements.countP fun e => e.children.head?.map Pair.type = some type

theorem countElements_eq {elements : List Pair} {a b numWords numRedirects : U64}
    (h : countElements elements a b = .ok (numWords, numRedirects)) :
    numWords = a + BitVec.ofNat 64 (countChildren .word elements) ∧
      numRedirects = b + BitVec.ofNat 64 (countChildren .redirect elements) := by
  induction elements generalizing a b with
  | nil =>
    cases h
    exact ⟨(BitVec.add_zero _).symm, (BitVec.add_zero _).symm⟩
  | cons e elements ih =>
    rw [countElements] at h
    split at h
    · cases h
    · split at h
      · cases h
      · next child rest hchildren =>
        have hhead : e.children.head?.map Pair.type = some child.type := by
          rw [hchildren]
          rfl
        split at h
        · next hword =>
          obtain ⟨hw, hr⟩ := ih h
          have hcount : countChildren .word (e :: elements) = countChildren .word elements + 1 :=
            List.countP_cons_of_pos (by simp [hhead, hword])
          have hsame : countChildren .redirect (e :: elements) = countChildren .redirect elements :=
            List.countP_cons_of_neg (by simp [hhead, hword])
          rw [hcount, hsame, hw, add_ofNat_succ]
          exact ⟨rfl, hr⟩
        · next hword =>
          have hsame : countChildren .word (e :: elements) = countChildren .word elements :=
            List.countP_cons_of_neg (by simp [hhead, hword])
          split at h
          · next hredirect =>
            obtain ⟨hw, hr⟩ := ih h
            have hcount : countChildren .redirect (e :: elements) =
                countChildren .redirect elements + 1 :=
              List.countP_cons_of_pos (by simp [hhead, hredirect])
            rw [hcount, hsame, hr, add_ofNat_succ]
            exact ⟨hw, rfl⟩
          · next hredirect =>
            have hsame' : countChildren .redirect (e :: elements) =
                countChildren .redirect elements :=
              List.countP_cons_of_neg (by simp [hhead, hredirect])
            rw [hsame, hsame']
            exact ih h

theorem ofNat_succ (i : Nat) : BitVec.ofNat 64 (i + 1) = BitVec.ofNat 64 i + 1 :=
  BitVec.ofNat_add i 1

theorem redirectFd_ok {memory : ByteMemory} {operator fd : U64}
    (h : redirectFd memory operator = .ok fd) : fd = 0 ∨ fd = 1 := by
  rw [redirectFd] at h
  split at h
  · cases h
    exact .inl rfl
  · split at h
    · cases h
      exact .inr rfl
    · cases h

/-- The array of arguments, the array of redirects behind it and the buffers behind that. -/
structure ArgRegions (execArgv redirectInfos : U64) (n k : Nat) : Prop where
  arrays : redirectInfos.toNat = execArgv.toNat + 8 * (n + 1)
  room : redirectInfos.toNat + 408 * k + 400 * n < 2 ^ 64

section

variable {execArgv redirectInfos : U64} {n k : Nat} {elements : List Pair} {heap heap' : UserHeap}

theorem ArgRegions.redirectInfo (h : ArgRegions execArgv redirectInfos n k) {i : Nat} (hi : i < k) :
    (redirectInfos + redirectInfoSize * BitVec.ofNat 64 i).toNat = redirectInfos.toNat + 408 * i := by
  have hroom := h.room
  have hsize : redirectInfoSize.toNat = 408 := rfl
  rw [BitVec.toNat_add, BitVec.toNat_mul, BitVec.toNat_ofNat, hsize]
  omega

theorem ArgRegions.pointer (h : ArgRegions execArgv redirectInfos n k) {i : Nat} (hi : i ≤ n) :
    (execArgv + 8 * BitVec.ofNat 64 i).toNat = execArgv.toNat + 8 * i := by
  have hroom := h.room
  have harrays := h.arrays
  have hsize : (8 : U64).toNat = 8 := rfl
  rw [BitVec.toNat_add, BitVec.toNat_mul, BitVec.toNat_ofNat, hsize]
  omega

/-- The loop behind `w` words and `r` redirects. The redirects that are there stay, and the numbers
of those that it adds are 0 or 1. -/
theorem buildArgs_fds (h : ArgRegions execArgv redirectInfos n k) {w r : Nat}
    (hshort : ∀ e ∈ elements, e.Short) (hn : w + countChildren .word elements = n)
    (hk : r + countChildren .redirect elements = k)
    (htop : heap.heapTop.toNat = redirectInfos.toNat + 408 * k + 400 * w)
    (hbuild : buildArgs execArgv redirectInfos elements (BitVec.ofNat 64 w) (BitVec.ofNat 64 r) heap =
      .ok heap') :
    SameOn heap.memory heap'.memory redirectInfos.toNat (redirectInfos.toNat + 408 * r) ∧
      ∀ i, r ≤ i → i < k → (redirectInfoAt heap'.memory redirectInfos i).fd = 0 ∨
        (redirectInfoAt heap'.memory redirectInfos i).fd = 1 := by
  have hroom := h.room
  have harrays := h.arrays
  induction elements generalizing w r heap with
  | nil =>
    cases hbuild
    have hk : r = k := hk
    exact ⟨.refl _ _ _, fun i hi hlt => absurd hlt (by omega)⟩
  | cons e elements ih =>
    rw [buildArgs] at hbuild
    split at hbuild
    · cases hbuild
    · next child rest hchildren =>
      have hhead : e.children.head?.map Pair.type = some child.type := by
        rw [hchildren]
        rfl
      have hchild : child.Short := (hshort e List.mem_cons_self).child (by
        rw [hchildren]
        exact List.mem_cons_self)
      have htail : ∀ e ∈ elements, e.Short := fun e he => hshort e (List.mem_cons_of_mem _ he)
      split at hbuild
      · next hword =>
        have hcount : countChildren .word (e :: elements) = countChildren .word elements + 1 :=
          List.countP_cons_of_pos (by simp [hhead, hword])
        have hsame : countChildren .redirect (e :: elements) = countChildren .redirect elements :=
          List.countP_cons_of_neg (by simp [hhead, hword])
        rw [hcount] at hn
        rw [hsame] at hk
        dsimp only [UserHeap.malloc] at hbuild
        split at hbuild
        · cases hbuild
        · next memory hexpand =>
          have hpointer := h.pointer (i := w) (by omega)
          have hnext : (heap.heapTop + scriptBufferLength).toNat =
              redirectInfos.toNat + 408 * k + 400 * (w + 1) := by
            have hsize : scriptBufferLength.toNat = 400 := rfl
            rw [BitVec.toNat_add, hsize, htop]
            omega
          rw [← ofNat_succ] at hbuild
          obtain ⟨hkept, hfds⟩ := ih htail (by omega) hk hnext hbuild
          refine ⟨SameOn.trans (fun x hx hlt => ?_) hkept, hfds⟩
          dsimp only
          rw [store64_outside (by omega) (by omega)]
          exact expandWord_frame hexpand hchild (by omega) (.inl (by omega))
      · next hword =>
        have hsame : countChildren .word (e :: elements) = countChildren .word elements :=
          List.countP_cons_of_neg (by simp [hhead, hword])
        rw [hsame] at hn
        split at hbuild
        · next hredirect =>
          have hcount : countChildren .redirect (e :: elements) =
              countChildren .redirect elements + 1 :=
            List.countP_cons_of_pos (by simp [hhead, hredirect])
          rw [hcount] at hk
          split at hbuild
          · next redirectOperator redirectTargetWord more hparts =>
            split at hbuild
            · cases hbuild
            · next fd hfd =>
              dsimp only at hbuild
              split at hbuild
              · cases hbuild
              · next memory hexpand =>
                have htarget : redirectTargetWord.Short := hchild.child (by
                  rw [hparts]
                  exact List.mem_cons_of_mem _ List.mem_cons_self)
                have hinfo := h.redirectInfo (i := r) (by omega)
                have hout : (redirectInfos + redirectInfoSize * BitVec.ofNat 64 r + 8).toNat =
                    redirectInfos.toNat + 408 * r + 8 := by
                  rw [BitVec.toNat_add, hinfo]
                  change (_ + 8) % 2 ^ 64 = _
                  omega
                rw [← ofNat_succ] at hbuild
                have htop' : (UserHeap.mk memory heap.heapTop).heapTop.toNat =
                    redirectInfos.toNat + 408 * k + 400 * w := htop
                obtain ⟨hkept, hfds⟩ := ih (r := r + 1) htail hn (by omega) htop' hbuild
                refine ⟨fun x hx hlt => ?_, fun i hi hlt => ?_⟩
                · rw [hkept x hx (by omega)]
                  have hword : memory x = store64 heap.memory _ fd x :=
                    expandWord_frame hexpand htarget (by omega) (.inl (by omega))
                  exact hword.trans (store64_outside (by omega) (by omega))
                · by_cases hir : i = r
                  · subst hir
                    have hload : load64 heap'.memory
                        (redirectInfos + redirectInfoSize * BitVec.ofNat 64 i) = fd := by
                      have hword : SameOn (store64 heap.memory _ fd) memory
                          (redirectInfos + redirectInfoSize * BitVec.ofNat 64 i).toNat
                          ((redirectInfos + redirectInfoSize * BitVec.ofNat 64 i).toNat + 8) :=
                        fun x hx hlt =>
                          expandWord_frame hexpand htarget (by omega) (.inl (by omega))
                      rw [load64_congr (hword.trans (hkept.mono (by omega) (by omega))) (by omega),
                        load64_store64 (by omega)]
                    rw [redirectInfoAt]
                    dsimp only
                    rw [hload]
                    exact redirectFd_ok hfd
                  · exact hfds i (by omega) hlt
          · cases hbuild
        · cases hbuild

end

theorem countChildren_le (elements : List Pair) :
    countChildren .word elements + countChildren .redirect elements ≤ elements.length := by
  rw [List.length_eq_countP_add_countP fun e : Pair => e.children.head?.map Pair.type = some .word]
  refine Nat.add_le_add_left (List.countP_mono_left fun e _ he => ?_) _
  have he : e.children.head?.map Pair.type = some .redirect := of_decide_eq_true he
  rw [he]
  decide

theorem parseShellStmt_short (mem : Nat → U8) {start length : Nat} (h : length + 400 ≤ 2 ^ 64) :
    (parseShellStmt mem start length).Short := by
  have hle : start ≤ start + length := Nat.le_add_right start length
  obtain ⟨cur, hstmt⟩ := parseShellStmtFrom_node (@StmtSoFar.init mem start (start + length) hle)
  rw [← parseShellStmt] at hstmt
  intro q hq
  obtain ⟨hge, hrange, hend⟩ := hstmt.inside q hq
  have hstart := hstmt.at_start
  have hgap := hstmt.gap
  have hcur := hstmt.le
  omega

/-- The redirects of a command go to the numbers 0 and 1. -/
theorem execShellLine_redirects {start length execArgv numWords redirectInfos numRedirects : U64}
    {heap parsed heap' : UserHeap} (hlength : length.toNat + 400 ≤ 2 ^ 64)
    (hroom : parsed.heapTop.toNat + 408 * ((parseShellStmt (lineMemory heap.memory) start.toNat
      length.toNat).children.length + 1) ≤ 2 ^ 64)
    (h : execShellLine start length heap parsed =
      .ok (.command execArgv numWords redirectInfos numRedirects heap')) :
    ∀ ri ∈ redirectInfosAt heap'.memory redirectInfos numRedirects.toNat,
      ri.fd = 0 ∨ ri.fd = 1 := by
  rw [execShellLine, execShellStmt] at h
  have hshort : (parseShellStmt (lineMemory heap.memory) start.toNat length.toNat).Short :=
    parseShellStmt_short _ hlength
  generalize parseShellStmt (lineMemory heap.memory) start.toNat length.toNat = stmt at h hroom hshort
  have hcounts := countChildren_le stmt.children
  split at h
  · cases h
  · split at h
    · cases h
    · next words redirects hcount =>
      obtain ⟨hwords, hredirects⟩ := countElements_eq hcount
      have hzero : ∀ x : U64, 0 + x = x := BitVec.zero_add
      rw [hzero] at hwords hredirects
      split at h
      · cases h
      · dsimp only [UserHeap.malloc] at h
        split at h
        · cases h
        · next heap₁ hbuild =>
          cases h
          subst hwords hredirects
          have hn : countChildren .word stmt.children < 2 ^ 64 := by omega
          have hk : countChildren .redirect stmt.children < 2 ^ 64 := by omega
          have hshorts : ∀ e ∈ stmt.children, e.Short := fun e he => hshort.child he
          generalize hw : countChildren .word stmt.children = n at *
          generalize hr : countChildren .redirect stmt.children = k at *
          have hsize : redirectInfoSize.toNat = 408 := rfl
          have hargv : (parsed.heapTop + (BitVec.ofNat 64 n + 1) * 8).toNat =
              parsed.heapTop.toNat + 8 * (n + 1) := by
            rw [← ofNat_succ, BitVec.toNat_add, BitVec.toNat_mul, BitVec.toNat_ofNat]
            change (_ + (n + 1) % 2 ^ 64 * 8 % 2 ^ 64) % 2 ^ 64 = _
            omega
          have hregions : ArgRegions parsed.heapTop (parsed.heapTop + (BitVec.ofNat 64 n + 1) * 8)
              n k := ⟨hargv, by omega⟩
          have htop : (parsed.heapTop + (BitVec.ofNat 64 n + 1) * 8 +
              BitVec.ofNat 64 k * redirectInfoSize).toNat =
                (parsed.heapTop + (BitVec.ofNat 64 n + 1) * 8).toNat + 408 * k + 400 * 0 := by
            rw [BitVec.toNat_add, BitVec.toNat_mul, BitVec.toNat_ofNat, hsize]
            omega
          obtain ⟨-, hfds⟩ := buildArgs_fds (w := 0) (r := 0) hregions hshorts
            (by rw [hw, Nat.zero_add]) (by rw [hr, Nat.zero_add]) htop hbuild
          intro ri hri
          obtain ⟨i, hi, rfl⟩ := List.mem_map.mp hri
          rw [List.mem_range, BitVec.toNat_ofNat, Nat.mod_eq_of_lt hk] at hi
          have hinfo := hregions.redirectInfo hi
          have hpointer := hregions.pointer (Nat.le_refl n)
          have hkept : ∀ m : ByteMemory, SameOn m (store64 m (parsed.heapTop + 8 * BitVec.ofNat 64 n) 0)
              (parsed.heapTop + (BitVec.ofNat 64 n + 1) * 8 +
                redirectInfoSize * BitVec.ofNat 64 i).toNat
              ((parsed.heapTop + (BitVec.ofNat 64 n + 1) * 8 +
                redirectInfoSize * BitVec.ofNat 64 i).toNat + 8) :=
            fun m => store64_same (by omega) (.inr (by omega))
          have hfd := hfds i (Nat.zero_le i) hi
          rw [redirectInfoAt] at hfd ⊢
          dsimp only at hfd ⊢
          rw [load64_congr (hkept heap₁.memory) (by omega)]
          exact hfd

end Persistos
