import Persistos.Theory.ByteMemory

/-! Strings of bytes in memory, and what copying them from one place to another
keeps. -/

namespace Persistos.Theory

def copyBytes (m : ByteMemory) (dest src : BitVec 64) : Nat → ByteMemory
  | 0 => m
  | n + 1 => copyBytes (Function.update m dest (m src)) (dest + 1) (src + 1) n

def fillBytes (m : ByteMemory) (a : BitVec 64) (c : BitVec 8) : Nat → ByteMemory
  | 0 => m
  | n + 1 => fillBytes (Function.update m a c) (a + 1) c n

/-- The bytes from `a` on are `bs`. -/
def BytesAt (m : ByteMemory) (a : BitVec 64) : List (BitVec 8) → Prop
  | [] => True
  | b :: bs => m a = b ∧ BytesAt m (a + 1) bs

instance (m : ByteMemory) : ∀ (a : BitVec 64) (bs : List (BitVec 8)), Decidable (BytesAt m a bs)
  | _, [] => .isTrue trivial
  | a, _ :: bs => @instDecidableAnd _ _ _ (instDecidableBytesAt m (a + 1) bs)

/-- The `n` bytes from `b` on in `m'` are those from `a` on in `m`. -/
def Copied (m m' : ByteMemory) (a b : BitVec 64) (n : Nat) : Prop :=
  ∀ i < n, m' (b + BitVec.ofNat 64 i) = m (a + BitVec.ofNat 64 i)

variable {m m' : ByteMemory} {a b d dest src : BitVec 64} {n k : Nat}

theorem add_ofNat_succ (a : BitVec 64) (i : Nat) :
    a + BitVec.ofNat 64 (i + 1) = a + 1 + BitVec.ofNat 64 i := by
  rw [BitVec.add_assoc, Nat.add_comm, BitVec.ofNat_add]
  rfl

theorem toNat_add_ofNat {i : Nat} (h : a.toNat + i < 2 ^ 64) :
    (a + BitVec.ofNat 64 i).toNat = a.toNat + i := by
  rw [BitVec.toNat_add, BitVec.toNat_ofNat, Nat.mod_eq_of_lt (by omega : i < 2 ^ 64),
    Nat.mod_eq_of_lt h]

theorem Copied.mono (h : Copied m m' a b n) (hk : k ≤ n) : Copied m m' a b k :=
  fun i hi => h i (by omega)

theorem Copied.trans {m'' : ByteMemory} {c : BitVec 64} (h : Copied m m' a b n)
    (h' : Copied m' m'' b c n) : Copied m m'' a c n :=
  fun i hi => (h' i hi).trans (h i hi)

theorem Copied.tail (h : Copied m m' a b (n + 1)) : Copied m m' (a + 1) (b + 1) n := by
  intro i hi
  rw [← add_ofNat_succ, ← add_ofNat_succ]
  exact h (i + 1) (by omega)

theorem Copied.drop (h : Copied m m' a b n) (k : Nat) :
    Copied m m' (a + BitVec.ofNat 64 k) (b + BitVec.ofNat 64 k) (n - k) := by
  intro i hi
  have hadd (c : BitVec 64) : c + BitVec.ofNat 64 k + BitVec.ofNat 64 i =
      c + BitVec.ofNat 64 (k + i) := by
    rw [BitVec.add_assoc, BitVec.ofNat_add]
  rw [hadd, hadd]
  exact h (k + i) (by omega)

/-- A copy moves each part of what is copied by the same distance. -/
theorem Copied.within {e : BitVec 64} (h : Copied m m' a (a + d) n) (hl : a.toNat ≤ e.toNat)
    (hr : e.toNat + k ≤ a.toNat + n) : Copied m m' e (e + d) k := by
  have he : a + BitVec.ofNat 64 (e.toNat - a.toNat) = e := by
    apply BitVec.eq_of_toNat_eq
    have hlt := e.isLt
    rw [toNat_add_ofNat (by omega)]
    omega
  have hd : a + d + BitVec.ofNat 64 (e.toNat - a.toNat) = e + d := by
    rw [BitVec.add_assoc, BitVec.add_comm d, ← BitVec.add_assoc, he]
  have hh := h.drop (e.toNat - a.toNat)
  rw [he, hd] at hh
  exact hh.mono (by omega)

theorem SameOn.copied (h : SameOn m m' a.toNat (a.toNat + n)) (ha : a.toNat + n ≤ 2 ^ 64) :
    Copied m m' a a n := by
  intro i hi
  have ht := toNat_add_ofNat (a := a) (i := i) (by omega)
  exact h _ (by omega) (by omega)

theorem bytesAt_append {bs cs : List (BitVec 8)} :
    BytesAt m a (bs ++ cs) ↔ BytesAt m a bs ∧ BytesAt m (a + BitVec.ofNat 64 bs.length) cs := by
  induction bs generalizing a with
  | nil => simp [BytesAt]
  | cons b bs ih =>
    rw [List.cons_append, BytesAt, BytesAt, ih, List.length_cons, add_ofNat_succ, and_assoc]

theorem BytesAt.copied {bs : List (BitVec 8)} (h : BytesAt m a bs)
    (hc : Copied m m' a b bs.length) : BytesAt m' b bs := by
  induction bs generalizing a b with
  | nil => trivial
  | cons c bs ih =>
    have h0 : m' b = m a := by simpa using hc 0 (by simp)
    exact ⟨h0.trans h.1, ih h.2 hc.tail⟩

theorem BytesAt.congr {bs : List (BitVec 8)} (h : BytesAt m a bs)
    (hs : SameOn m m' a.toNat (a.toNat + bs.length)) (ha : a.toNat + bs.length ≤ 2 ^ 64) :
    BytesAt m' a bs :=
  h.copied (hs.copied ha)

theorem loadBytes_copied (h : Copied m m' a b n) : loadBytes m' b n = loadBytes m a n := by
  induction n generalizing a b with
  | zero => rfl
  | succ n ih =>
    have h0 : m' b = m a := by simpa using h 0 (by simp)
    rw [loadBytes, loadBytes, h0, ih h.tail]

theorem load64_copied (h : Copied m m' a b 8) : load64 m' b = load64 m a := by
  unfold load64
  rw [loadBytes_copied h]

theorem WordsAt.copied {ws : List (BitVec 64)} (h : WordsAt m a ws)
    (hc : Copied m m' a b (8 * ws.length)) : WordsAt m' b ws := by
  induction ws generalizing a b with
  | nil => trivial
  | cons w ws ih =>
    rw [List.length_cons] at hc
    refine ⟨(load64_copied (hc.mono (by omega))).trans h.1, ih h.2 ?_⟩
    exact (hc.drop 8).mono (by omega)

theorem fillBytes_outside {c : BitVec 8} {x : BitVec 64} (ha : a.toNat + n ≤ 2 ^ 64)
    (h : x.toNat < a.toNat ∨ a.toNat + n ≤ x.toNat) : fillBytes m a c n x = m x := by
  induction n generalizing m a with
  | zero => rfl
  | succ n ih =>
    have hne : x ≠ a := fun hh => by rw [hh] at h; omega
    cases n with
    | zero => simp [fillBytes, hne]
    | succ n =>
      have hadd := toNat_add_one (a := a) (by omega)
      rw [fillBytes, ih (by omega) (by omega), Function.update_of_ne hne]

theorem copyBytes_outside {x : BitVec 64} (hd : dest.toNat + n ≤ 2 ^ 64)
    (h : x.toNat < dest.toNat ∨ dest.toNat + n ≤ x.toNat) : copyBytes m dest src n x = m x := by
  induction n generalizing m dest src with
  | zero => rfl
  | succ n ih =>
    have hne : x ≠ dest := fun hh => by rw [hh] at h; omega
    cases n with
    | zero => simp [copyBytes, hne]
    | succ n =>
      have hadd := toNat_add_one (a := dest) (by omega)
      rw [copyBytes, ih (by omega) (by omega), Function.update_of_ne hne]

/-- Bytes that do not overlap their copy are there in the end. -/
theorem copyBytes_copied (hd : dest.toNat + n ≤ 2 ^ 64) (hs : src.toNat + n ≤ 2 ^ 64)
    (hap : src.toNat + n ≤ dest.toNat ∨ dest.toNat + n ≤ src.toNat) :
    Copied m (copyBytes m dest src n) src dest n := by
  induction n generalizing m dest src with
  | zero => exact fun i hi => absurd hi (Nat.not_lt_zero i)
  | succ n ih =>
    intro i hi
    cases n with
    | zero =>
      obtain rfl : i = 0 := by omega
      simp [copyBytes]
    | succ n =>
      have hadd := toNat_add_one (a := dest) (by omega)
      have hadd' := toNat_add_one (a := src) (by omega)
      rw [copyBytes]
      cases i with
      | zero =>
        rw [copyBytes_outside (by omega) (by simp; omega)]
        simp
      | succ i =>
        have hi' := toNat_add_ofNat (a := src + 1) (i := i) (by omega)
        have hne : src + 1 + BitVec.ofNat 64 i ≠ dest := fun hh => by
          rw [hh] at hi'
          omega
        have hcopied : Copied (Function.update m dest (m src)) _ (src + 1) (dest + 1) (n + 1) :=
          ih (by omega) (by omega) (by omega)
        rw [add_ofNat_succ, add_ofNat_succ, hcopied i (by omega), Function.update_of_ne hne]

/-- The characters `w` and a zero byte behind them. -/
structure StringAt (m : ByteMemory) (a : BitVec 64) (w : List (BitVec 8)) : Prop where
  bytes : BytesAt m a (w ++ [0])
  nonzero : 0 ∉ w

theorem StringAt.copied {w : List (BitVec 8)} (h : StringAt m a w)
    (hc : Copied m m' a b (w.length + 1)) : StringAt m' b w :=
  ⟨h.bytes.copied (by simpa using hc), h.nonzero⟩

/-- `n` bytes from `a` on, none of them from `lo` up to `hi`. -/
structure Apart (a : BitVec 64) (n lo hi : Nat) : Prop where
  bound : a.toNat + n ≤ 2 ^ 64
  outside : a.toNat + n ≤ lo ∨ hi ≤ a.toNat

variable {lo hi : Nat}

theorem Apart.same (ha : Apart a n lo hi)
    (hs : ∀ x : BitVec 64, x.toNat < lo ∨ hi ≤ x.toNat → m' x = m x) :
    SameOn m m' a.toNat (a.toNat + n) := by
  have ho := ha.outside
  exact fun x hx hx' => hs x (by omega)

theorem StringAt.apart {w : List (BitVec 8)} (h : StringAt m a w)
    (ha : Apart a (w.length + 1) lo hi)
    (hs : ∀ x : BitVec 64, x.toNat < lo ∨ hi ≤ x.toNat → m' x = m x) : StringAt m' a w :=
  h.copied ((ha.same hs).copied ha.bound)

theorem WordsAt.apart {ws : List (BitVec 64)} (h : WordsAt m a ws)
    (ha : Apart a (8 * ws.length) lo hi)
    (hs : ∀ x : BitVec 64, x.toNat < lo ∨ hi ≤ x.toNat → m' x = m x) : WordsAt m' a ws :=
  h.congr (ha.same hs) ha.bound

end Persistos.Theory
