import Persistos.Theory.ByteStrings

/-! Records of different lengths, one behind the other in a buffer. A writer stops at the
first one that does not fit, and a reader goes from each to the next. -/

namespace Persistos.Theory

variable {α β ε : Type} {size : α → Nat} {room : Nat}

/-- The items from the first on whose sizes fit into the room together. -/
def fitting (size : α → Nat) : Nat → List α → List α
  | _, [] => []
  | room, a :: l => if size a ≤ room then a :: fitting size (room - size a) l else []

structure LongestFitting (size : α → Nat) (room : Nat) (items p : List α) : Prop where
  front : p <+: items
  fits : (p.map size).sum ≤ room
  longest : ∀ q, q <+: items → (q.map size).sum ≤ room → q <+: p

theorem fitting_longest (size : α → Nat) (room : Nat) (items : List α) :
    LongestFitting size room items (fitting size room items) := by
  induction items generalizing room with
  | nil => exact ⟨List.nil_prefix, Nat.zero_le _, fun q hq _ => hq⟩
  | cons a l ih =>
    rw [fitting]
    by_cases hfit : size a ≤ room
    · have htail := ih (room - size a)
      have hsum := htail.fits
      rw [if_pos hfit]
      refine ⟨(List.prefix_cons_inj a).mpr htail.front, ?_, fun q hq hroom => ?_⟩
      · rw [List.map_cons, List.sum_cons]
        omega
      · cases q with
        | nil => exact List.nil_prefix
        | cons b q =>
          obtain ⟨rfl, hrest⟩ := List.cons_prefix_cons.mp hq
          rw [List.map_cons, List.sum_cons] at hroom
          exact (List.prefix_cons_inj b).mpr (htail.longest q hrest (by omega))
    · rw [if_neg hfit]
      refine ⟨List.nil_prefix, Nat.zero_le _, fun q hq hroom => ?_⟩
      cases q with
      | nil => exact List.nil_prefix
      | cons b q =>
        obtain ⟨rfl, -⟩ := List.cons_prefix_cons.mp hq
        rw [List.map_cons, List.sum_cons] at hroom
        omega

/-- `n` bytes of a number, the lowest first. -/
def leBytes : Nat → Nat → List (BitVec 8)
  | 0, _ => []
  | n + 1, v => BitVec.ofNat 8 v :: leBytes n (v / 256)

@[simp] theorem length_leBytes (n v : Nat) : (leBytes n v).length = n := by
  induction n generalizing v with
  | zero => rfl
  | succ n ih => rw [leBytes, List.length_cons, ih]

variable {m m' m'' : ByteMemory} {a b c : BitVec 64} {bs cs : List (BitVec 8)}

theorem loadBytes_leBytes {n v : Nat} (h : BytesAt m a (leBytes n v)) :
    loadBytes m a n = v % 256 ^ n := by
  induction n generalizing a v with
  | zero => simp [loadBytes, Nat.mod_one]
  | succ n ih =>
    obtain ⟨hfirst, hrest⟩ := h
    rw [loadBytes, ih hrest, hfirst, BitVec.toNat_ofNat]
    change v % 256 + 256 * (v / 256 % 256 ^ n) = v % 256 ^ (n + 1)
    rw [Nat.pow_succ, Nat.mul_comm (256 ^ n), Nat.mod_mul]

/-- The bytes are written from `a` up to `b`, and no others. -/
structure Wrote (m m' : ByteMemory) (a b : BitVec 64) (bs : List (BitVec 8)) : Prop where
  bytes : BytesAt m' a bs
  outside : ∀ x : BitVec 64, x.toNat < a.toNat ∨ a.toNat + bs.length ≤ x.toNat → m' x = m x
  stop : b.toNat = a.toNat + bs.length

namespace Wrote

theorem nil (m : ByteMemory) (a : BitVec 64) : Wrote m m a a [] := ⟨trivial, fun _ _ => rfl, rfl⟩

theorem stop_eq (h : Wrote m m' a b bs) : b = a + BitVec.ofNat 64 bs.length := by
  have hlt := b.isLt
  have hstop := h.stop
  apply BitVec.eq_of_toNat_eq
  rw [toNat_add_ofNat (by omega), hstop]

theorem append (h : Wrote m m' a b bs) (h' : Wrote m' m'' b c cs) :
    Wrote m m'' a c (bs ++ cs) := by
  have hstop := h.stop
  have hstop' := h'.stop
  have hlt := b.isLt
  refine ⟨bytesAt_append.mpr ⟨?_, ?_⟩, ?_, ?_⟩
  · exact h.bytes.congr (fun x _ hx => h'.outside x (by omega)) (by omega)
  · rw [← h.stop_eq]
    exact h'.bytes
  · intro x hx
    rw [List.length_append] at hx
    exact (h'.outside x (by omega)).trans (h.outside x (by omega))
  · rw [List.length_append]
    omega

theorem storeBytes {n : Nat} (v : Nat) (ha : a.toNat + n < 2 ^ 64) :
    Wrote m (storeBytes m a n v) a (a + BitVec.ofNat 64 n) (leBytes n v) := by
  refine ⟨?_, ?_, ?_⟩
  · induction n generalizing m a v with
    | zero => trivial
    | succ n ih =>
      have hadd := toNat_add_one (a := a) (by omega)
      rw [Theory.storeBytes]
      refine ⟨?_, ih _ (by omega)⟩
      rw [storeBytes_outside (by omega) (by omega)]
      exact Function.update_self _ _ _
  · intro x hx
    rw [length_leBytes] at hx
    exact storeBytes_outside (by omega) hx
  · rw [toNat_add_ofNat ha, length_leBytes]

/-- A copy of bytes that are elsewhere. -/
theorem copyBytes (h : BytesAt m b bs) (hb : b.toNat + bs.length ≤ 2 ^ 64)
    (ha : a.toNat + bs.length < 2 ^ 64)
    (hap : b.toNat + bs.length ≤ a.toNat ∨ a.toNat + bs.length ≤ b.toNat) :
    Wrote m (copyBytes m a b bs.length) a (a + BitVec.ofNat 64 bs.length) bs := by
  refine ⟨h.copied (copyBytes_copied (by omega) hb hap), ?_, toNat_add_ofNat ha⟩
  intro x hx
  exact copyBytes_outside (by omega) hx

end Wrote

/-- The body of the loop gives `none` where it leaves it. -/
def packRecords (body : ByteMemory → BitVec 64 → α → Except ε (Option (BitVec 64 × ByteMemory))) :
    List α → ByteMemory → BitVec 64 → Except ε (BitVec 64 × ByteMemory)
  | [], m, buf => .ok (buf, m)
  | e :: items, m, buf => do
    match ← body m buf e with
    | some (buf, m) => packRecords body items m buf
    | none => .ok (buf, m)

/-- While the memory is as in `m` outside of the buffer, which ends at `stop`, the body writes
the item where there is room for it and leaves the loop where there is none. -/
structure Packs (m : ByteMemory) (encode : α → List (BitVec 8)) (start stop : Nat)
    (body : ByteMemory → BitVec 64 → α → Except ε (Option (BitVec 64 × ByteMemory))) (e : α) :
    Prop where
  some : ∀ m' buf, (∀ x : BitVec 64, x.toNat < start ∨ stop ≤ x.toNat → m' x = m x) →
    start ≤ buf.toNat → buf.toNat + (encode e).length ≤ stop →
    ∃ buf' m'', body m' buf e = .ok (some (buf', m'')) ∧ Wrote m' m'' buf buf' (encode e)
  none : ∀ m' buf, (∀ x : BitVec 64, x.toNat < start ∨ stop ≤ x.toNat → m' x = m x) →
    buf.toNat ≤ stop → stop < buf.toNat + (encode e).length → body m' buf e = .ok none

theorem packRecords_fitting {encode : α → List (BitVec 8)} {start stop : Nat} {items : List α}
    {body : ByteMemory → BitVec 64 → α → Except ε (Option (BitVec 64 × ByteMemory))}
    (hbody : ∀ e ∈ items, Packs m encode start stop body e)
    (hm : ∀ x : BitVec 64, x.toNat < start ∨ stop ≤ x.toNat → m' x = m x)
    (hstart : start ≤ a.toNat) (hstop : a.toNat ≤ stop) :
    ∃ b m'', packRecords body items m' a = .ok (b, m'') ∧
      Wrote m' m'' a b
        ((fitting (fun e => (encode e).length) (stop - a.toNat) items).flatMap encode) := by
  induction items generalizing m' a with
  | nil => exact ⟨a, m', rfl, .nil m' a⟩
  | cons e items ih =>
    have he := hbody e List.mem_cons_self
    rw [packRecords, fitting]
    by_cases hfit : (encode e).length ≤ stop - a.toNat
    · obtain ⟨b, m₁, hok, hwrote⟩ := he.some m' a hm hstart (by omega)
      have hb := hwrote.stop
      have hm₁ : ∀ x : BitVec 64, x.toNat < start ∨ stop ≤ x.toNat → m₁ x = m x :=
        fun x hx => (hwrote.outside x (by omega)).trans (hm x hx)
      obtain ⟨c, m₂, hrest, hwrote'⟩ := ih (a := b)
        (fun e' he' => hbody e' (List.mem_cons_of_mem e he')) hm₁ (by omega) (by omega)
      have hroom : stop - b.toNat = stop - a.toNat - (encode e).length := by omega
      rw [hroom] at hwrote'
      rw [if_pos hfit, List.flatMap_cons, hok]
      exact ⟨c, m₂, hrest, hwrote.append hwrote'⟩
    · rw [if_neg hfit, he.none m' a hm hstop (by omega)]
      exact ⟨a, m', rfl, .nil m' a⟩

/-- The loop of a program over the records of a buffer. -/
def readRecords (next : BitVec 64 → Except ε (β × BitVec 64)) (stop : BitVec 64) (endless : ε) :
    Nat → BitVec 64 → Except ε (List β)
  | 0, _ => .error endless
  | fuel + 1, x =>
    if x < stop then do
      let (value, x) ← next x
      let rest ← readRecords next stop endless fuel x
      .ok (value :: rest)
    else .ok []

theorem readRecords_encoded {encode : α → List (BitVec 8)} {value : α → β} {items : List α}
    {next : BitVec 64 → Except ε (β × BitVec 64)} {endless : ε} {fuel : Nat}
    (hnext : ∀ e ∈ items, ∀ x, BytesAt m x (encode e) → x.toNat + (encode e).length < 2 ^ 64 →
      next x = .ok (value e, x + BitVec.ofNat 64 (encode e).length))
    (hpos : ∀ e, encode e ≠ []) (h : BytesAt m a (items.flatMap encode))
    (hb : b.toNat = a.toNat + (items.flatMap encode).length) (hfuel : items.length < fuel) :
    readRecords next b endless fuel a = .ok (items.map value) := by
  have hlt := b.isLt
  induction items generalizing a fuel with
  | nil =>
    obtain ⟨fuel, rfl⟩ := Nat.exists_eq_succ_of_ne_zero (Nat.ne_of_gt hfuel)
    have hnot : ¬a < b := by
      rw [BitVec.lt_def, hb]
      exact Nat.lt_irrefl _
    rw [readRecords, if_neg hnot]
    rfl
  | cons e items ih =>
    obtain ⟨fuel, rfl⟩ := Nat.exists_eq_succ_of_ne_zero (Nat.ne_of_gt (Nat.zero_lt_of_lt hfuel))
    rw [List.flatMap_cons] at h hb
    rw [List.length_append] at hb
    obtain ⟨hfirst, hrest⟩ := bytesAt_append.mp h
    have hlength := List.length_pos_iff.mpr (hpos e)
    have hstep := toNat_add_ofNat (a := a) (i := (encode e).length) (by omega)
    have htail := ih (fun e' he' => hnext e' (List.mem_cons_of_mem e he')) hrest (by omega)
      (Nat.lt_of_succ_lt_succ hfuel)
    have hlt' : a < b := by
      rw [BitVec.lt_def]
      omega
    rw [readRecords, if_pos hlt', hnext e List.mem_cons_self a hfirst (by omega)]
    change (do
      let rest ← readRecords next b endless fuel (a + BitVec.ofNat 64 (encode e).length)
      Except.ok (value e :: rest)) = _
    rw [htail]
    rfl

end Persistos.Theory
