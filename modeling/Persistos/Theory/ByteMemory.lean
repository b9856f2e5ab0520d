import Mathlib.Logic.Function.Basic
import Mathlib.Algebra.GroupWithZero.Nat

/-! A memory of bytes with little-endian words of eight bytes, and the words
that lie one above the other on a stack. -/

namespace Persistos.Theory

abbrev ByteMemory := BitVec 64 → BitVec 8

def loadBytes (m : ByteMemory) (a : BitVec 64) : Nat → Nat
  | 0 => 0
  | n + 1 => (m a).toNat + 256 * loadBytes m (a + 1) n

def storeBytes (m : ByteMemory) (a : BitVec 64) : Nat → Nat → ByteMemory
  | 0, _ => m
  | n + 1, v => storeBytes (Function.update m a (BitVec.ofNat 8 v)) (a + 1) n (v / 256)

def load64 (m : ByteMemory) (a : BitVec 64) : BitVec 64 := BitVec.ofNat 64 (loadBytes m a 8)

def store64 (m : ByteMemory) (a v : BitVec 64) : ByteMemory := storeBytes m a 8 v.toNat

/-- The memories agree from `lo` up to `hi`. -/
def SameOn (m m' : ByteMemory) (lo hi : Nat) : Prop :=
  ∀ x : BitVec 64, lo ≤ x.toNat → x.toNat < hi → m' x = m x

variable {m m' m'' : ByteMemory} {a b v : BitVec 64} {lo hi lo' hi' n : Nat}

theorem SameOn.refl (m : ByteMemory) (lo hi : Nat) : SameOn m m lo hi := fun _ _ _ => rfl

theorem SameOn.trans (h : SameOn m m' lo hi) (h' : SameOn m' m'' lo hi) : SameOn m m'' lo hi :=
  fun x hl hr => (h' x hl hr).trans (h x hl hr)

theorem SameOn.mono (h : SameOn m m' lo hi) (hl : lo ≤ lo') (hh : hi' ≤ hi) :
    SameOn m m' lo' hi' :=
  fun x hx hx' => h x (by omega) (by omega)

theorem toNat_add_one (h : a.toNat + 1 < 2 ^ 64) : (a + 1).toNat = a.toNat + 1 := by
  rw [BitVec.toNat_add]
  exact Nat.mod_eq_of_lt h

theorem storeBytes_outside {x : BitVec 64} {v : Nat} (hn : a.toNat + n ≤ 2 ^ 64)
    (h : x.toNat < a.toNat ∨ a.toNat + n ≤ x.toNat) : storeBytes m a n v x = m x := by
  induction n generalizing m a v with
  | zero => rfl
  | succ n ih =>
    have hne : x ≠ a := fun hh => by rw [hh] at h; omega
    cases n with
    | zero => simp [storeBytes, hne]
    | succ n =>
      have ha := toNat_add_one (a := a) (by omega)
      rw [storeBytes, ih (by omega) (by omega), Function.update_of_ne hne]

theorem loadBytes_congr (h : SameOn m m' a.toNat (a.toNat + n)) (hn : a.toNat + n ≤ 2 ^ 64) :
    loadBytes m' a n = loadBytes m a n := by
  induction n generalizing a with
  | zero => rfl
  | succ n ih =>
    rw [loadBytes, loadBytes, h a (Nat.le_refl _) (by omega)]
    cases n with
    | zero => rfl
    | succ n =>
      have ha := toNat_add_one (a := a) (by omega)
      rw [ih (h.mono (by omega) (by omega)) (by omega)]

theorem loadBytes_storeBytes {v : Nat} (hn : a.toNat + n ≤ 2 ^ 64) :
    loadBytes (storeBytes m a n v) a n = v % 256 ^ n := by
  induction n generalizing m a v with
  | zero => simp [loadBytes, Nat.mod_one]
  | succ n ih =>
    have hrest : loadBytes (storeBytes m a (n + 1) v) (a + 1) n = v / 256 % 256 ^ n := by
      cases n with
      | zero => simp [loadBytes, Nat.mod_one]
      | succ n =>
        have ha := toNat_add_one (a := a) (by omega)
        exact ih (by omega)
    have hfirst : storeBytes m a (n + 1) v a = BitVec.ofNat 8 v := by
      cases n with
      | zero => simp [storeBytes]
      | succ n =>
        have ha := toNat_add_one (a := a) (by omega)
        rw [storeBytes, storeBytes_outside (by omega) (by omega), Function.update_self]
    rw [loadBytes, hrest, hfirst, BitVec.toNat_ofNat]
    change v % 256 + 256 * (v / 256 % 256 ^ n) = v % 256 ^ (n + 1)
    rw [Nat.pow_succ, Nat.mul_comm (256 ^ n), Nat.mod_mul]

theorem load64_store64 (h : a.toNat + 8 ≤ 2 ^ 64) : load64 (store64 m a v) a = v := by
  rw [load64, store64, loadBytes_storeBytes h]
  apply BitVec.eq_of_toNat_eq
  rw [BitVec.toNat_ofNat]
  have hv := v.isLt
  omega

theorem load64_congr (h : SameOn m m' a.toNat (a.toNat + 8)) (ha : a.toNat + 8 ≤ 2 ^ 64) :
    load64 m' a = load64 m a := by
  rw [load64, load64, loadBytes_congr h ha]

theorem store64_outside {x : BitVec 64} (ha : a.toNat + 8 ≤ 2 ^ 64)
    (h : x.toNat < a.toNat ∨ a.toNat + 8 ≤ x.toNat) : store64 m a v x = m x :=
  storeBytes_outside ha h

theorem store64_same (ha : a.toNat + 8 ≤ 2 ^ 64) (h : hi ≤ a.toNat ∨ a.toNat + 8 ≤ lo) :
    SameOn m (store64 m a v) lo hi :=
  fun x hl hr => store64_outside ha (by omega)

attribute [irreducible] load64 store64

/-- The words from `a` on are `ws`. -/
def WordsAt (m : ByteMemory) (a : BitVec 64) : List (BitVec 64) → Prop
  | [] => True
  | w :: ws => load64 m a = w ∧ WordsAt m (a + 8) ws

instance (m : ByteMemory) : ∀ (a : BitVec 64) (ws : List (BitVec 64)), Decidable (WordsAt m a ws)
  | _, [] => .isTrue trivial
  | a, _ :: ws => @instDecidableAnd _ _ _ (instDecidableWordsAt m (a + 8) ws)

theorem toNat_add_eight (h : a.toNat + 8 < 2 ^ 64) : (a + 8).toNat = a.toNat + 8 := by
  rw [BitVec.toNat_add]
  exact Nat.mod_eq_of_lt h

theorem toNat_sub_eight (h : 8 ≤ a.toNat) : (a - 8).toNat = a.toNat - 8 := by
  have ha := a.isLt
  rw [BitVec.toNat_sub]
  change (2 ^ 64 - 8 + a.toNat) % 2 ^ 64 = _
  omega

theorem WordsAt.congr {ws : List (BitVec 64)} (h : WordsAt m a ws)
    (hs : SameOn m m' a.toNat (a.toNat + 8 * ws.length))
    (ha : a.toNat + 8 * ws.length ≤ 2 ^ 64) : WordsAt m' a ws := by
  induction ws generalizing a with
  | nil => trivial
  | cons w ws ih =>
    rw [List.length_cons] at hs ha
    refine ⟨(load64_congr (hs.mono (Nat.le_refl _) (by omega)) (by omega)).trans h.1, ?_⟩
    cases ws with
    | nil => trivial
    | cons w' ws =>
      rw [List.length_cons] at hs ha
      have hadd := toNat_add_eight (a := a) (by omega)
      refine ih h.2 (hs.mono (by omega) ?_) ?_
      · rw [hadd, List.length_cons]
        omega
      · rw [hadd, List.length_cons]
        omega

theorem WordsAt.push {ws : List (BitVec 64)} (h : WordsAt m a ws) (hlo : 8 ≤ a.toNat)
    (ha : a.toNat + 8 * ws.length ≤ 2 ^ 64) :
    WordsAt (store64 m (a - 8) v) (a - 8) (v :: ws) := by
  have hsub := toNat_sub_eight hlo
  refine ⟨load64_store64 (by omega), ?_⟩
  rw [BitVec.sub_add_cancel]
  exact h.congr (store64_same (by omega) (by omega)) ha

theorem WordsAt.get {ws : List (BitVec 64)} {i : Nat} {w : BitVec 64} (h : WordsAt m a ws)
    (hi : ws[i]? = some w) : load64 m (a + BitVec.ofNat 64 (8 * i)) = w := by
  induction ws generalizing a i with
  | nil => simp at hi
  | cons v ws ih =>
    cases i with
    | zero =>
      have hv : v = w := by simpa using hi
      simpa [hv] using h.1
    | succ i =>
      have hadd : a + BitVec.ofNat 64 (8 * (i + 1)) = a + 8 + BitVec.ofNat 64 (8 * i) := by
        bv_omega
      rw [hadd]
      exact ih h.2 (by simpa using hi)

theorem wordsAt_append {ws vs : List (BitVec 64)} :
    WordsAt m a (ws ++ vs) ↔
      WordsAt m a ws ∧ WordsAt m (a + BitVec.ofNat 64 (8 * ws.length)) vs := by
  induction ws generalizing a with
  | nil => simp [WordsAt]
  | cons w ws ih =>
    have hadd : a + 8 + BitVec.ofNat 64 (8 * ws.length) =
        a + BitVec.ofNat 64 (8 * (w :: ws).length) := by
      rw [BitVec.add_assoc, List.length_cons, Nat.mul_add, BitVec.add_comm 8]
      simp [BitVec.ofNat_add]
    rw [List.cons_append, WordsAt, WordsAt, ih, hadd, and_assoc]

end Persistos.Theory
