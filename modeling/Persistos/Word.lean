import Mathlib.Logic.Relation
import Mathlib.Data.List.Nodup
import Mathlib.Algebra.GroupWithZero.Nat

/-! Machine words and the ways in which a kernel function fails to return. An
integer of the C code is a bit vector of its width, so that its arithmetic
wraps as the C arithmetic does. -/

namespace Persistos

abbrev U8 := BitVec 8
abbrev U16 := BitVec 16
abbrev U32 := BitVec 32
abbrev U64 := BitVec 64

/-- A call either returns or ends in `panic` with its message, in an access
outside the object it was meant for, or in a loop whose counter never reaches
its bound. -/
inductive Crash where
  | panic (message : String)
  | outOfBounds
  | endless
  deriving DecidableEq, Repr

@[simp] theorem ok_bind {α β : Type} (a : α) (f : α → Except Crash β) :
    (Except.ok a >>= f) = f a := rfl

@[simp] theorem error_bind {α β : Type} (e : Crash) (f : α → Except Crash β) :
    (Except.error e >>= f) = .error e := rfl

theorem bind_eq_ok {α β : Type} {x : Except Crash α} {f : α → Except Crash β} {b : β}
    (h : (x >>= f) = .ok b) : ∃ a, x = .ok a ∧ f a = .ok b := by
  cases x with
  | error e => cases h
  | ok a => exact ⟨a, rfl, h⟩

theorem bind_eq_error {α β : Type} {x : Except Crash α} {f : α → Except Crash β} {e : Crash}
    (h : (x >>= f) = .error e) : x = .error e ∨ ∃ a, x = .ok a ∧ f a = .error e := by
  cases x with
  | error e' =>
    rw [error_bind, Except.error.injEq] at h
    exact .inl (congrArg _ h)
  | ok a => exact .inr ⟨a, rfl, h⟩

def pageAddressMask : U64 := 0xFFFFFFFFFFFFF000

def PageAligned (a : U64) : Prop := a.toNat % 4096 = 0

instance (a : U64) : Decidable (PageAligned a) := inferInstanceAs (Decidable (_ = _))

theorem and_allOnes_shiftLeft (a : U64) (n : Nat) :
    a &&& (BitVec.allOnes 64 <<< n) = (a >>> n) <<< n := by
  ext i hi
  simp only [BitVec.getElem_and, BitVec.getElem_shiftLeft, BitVec.getElem_ushiftRight,
    BitVec.getElem_allOnes]
  by_cases h : i < n
  · simp [h]
  · have hi' : n + (i - n) = i := by omega
    simp [h, hi', BitVec.getLsbD_eq_getElem hi]

theorem pageAddressMask_and (a : U64) : a &&& pageAddressMask = (a >>> 12) <<< 12 := by
  have hm : pageAddressMask = BitVec.allOnes 64 <<< 12 := by decide
  rw [hm, and_allOnes_shiftLeft]

theorem shiftRight_toNat (a : U64) (n : Nat) : (a >>> n).toNat = a.toNat / 2 ^ n := by
  rw [BitVec.toNat_ushiftRight, Nat.shiftRight_eq_div_pow]

theorem shiftLeft_toNat (a : U64) (n : Nat) : (a <<< n).toNat = a.toNat * 2 ^ n % 2 ^ 64 := by
  rw [BitVec.toNat_shiftLeft, Nat.shiftLeft_eq]

theorem mask_toNat (a : U64) : (a &&& pageAddressMask).toNat = a.toNat / 4096 * 4096 := by
  have hh := a.isLt
  rw [pageAddressMask_and, shiftLeft_toNat, shiftRight_toNat]
  omega

theorem mask_of_aligned {a : U64} (h : PageAligned a) : a &&& pageAddressMask = a := by
  apply BitVec.eq_of_toNat_eq
  rw [mask_toNat]
  simp only [PageAligned] at h
  omega

theorem mask_of_mem_page {p a : U64} (hp : PageAligned p) (hlo : p.toNat ≤ a.toNat)
    (hhi : a.toNat < p.toNat + 4096) : a &&& pageAddressMask = p := by
  apply BitVec.eq_of_toNat_eq
  rw [mask_toNat]
  simp only [PageAligned] at hp
  omega

theorem PageAligned.add_toNat {p : U64} (hp : PageAligned p) {n : Nat} (hn : n < 4096) :
    (p + BitVec.ofNat 64 n).toNat = p.toNat + n := by
  have hh := p.isLt
  simp only [PageAligned] at hp
  rw [BitVec.toNat_add, BitVec.toNat_ofNat]
  omega

end Persistos
