import Persistos.Tar

/-! What an archive says: directories, and files with their contents, one after the other.
The fields of a header that nothing reads may hold anything. -/

namespace Persistos

open Theory

section Memory

variable {memory : U64 → U8} {a : U64}

/-- The bytes are in the memory from `a` on. -/
def HoldsAt (memory : U64 → U8) (a : U64) (bytes : List U8) : Prop :=
  slice (bytesFrom memory a) 0 bytes.length = bytes

theorem bytesFrom_add (memory : U64 → U8) (a : U64) (n : Nat) :
    bytesFrom memory (a + BitVec.ofNat 64 n) = fun i => bytesFrom memory a (n + i) := by
  funext i
  rw [bytesFrom, bytesFrom, BitVec.ofNat_add, BitVec.add_assoc]

theorem holdsAt_append {xs ys : List U8} : HoldsAt memory a (xs ++ ys) ↔
    HoldsAt memory a xs ∧ HoldsAt memory (a + BitVec.ofNat 64 xs.length) ys := by
  rw [HoldsAt, HoldsAt, HoldsAt, List.length_append, slice_add, Nat.zero_add, bytesFrom_add,
    slice_shift]
  refine ⟨fun h => List.append_inj h (by simp), fun h => by rw [h.1, h.2]⟩

theorem HoldsAt.slice_eq {bytes : List U8} (h : HoldsAt memory a bytes) {o n : Nat}
    (hn : o + n ≤ bytes.length) : slice (bytesFrom memory a) o n = (bytes.drop o).take n := by
  have hdrop := slice_drop (bytesFrom memory a) 0 o bytes.length
  rw [h, Nat.zero_add] at hdrop
  rw [hdrop, slice_take _ _ (Nat.le_sub_of_add_le' hn)]

/-- A memory that begins with the bytes. -/
theorem holdsAt_getD {bytes : List U8} (h : bytes.length ≤ 2 ^ 64) :
    HoldsAt (fun x => bytes.getD x.toNat 0) 0 bytes := by
  refine List.ext_getElem (slice_length _ _ _) fun i hs hi => ?_
  have hzero : (0 : U64).toNat = 0 := rfl
  have hindex : ((0 : U64) + BitVec.ofNat 64 (0 + i)).toNat = i := by
    rw [BitVec.toNat_add, hzero, BitVec.toNat_ofNat]
    omega
  rw [List.getElem_eq_getD (0 : U8), List.getElem_eq_getD (0 : U8), slice_getD _ _ _ hi, bytesFrom,
    hindex]

end Memory

/-- The number that octal digits behind `v` make of it. -/
def octalFrom (v : Nat) (digits : List U8) : Nat :=
  digits.foldl (fun v c => 8 * v + (c.toNat - 0x30)) v

def IsOctal (c : U8) : Prop := 0x30 ≤ c ∧ c ≤ 0x37

theorem IsOctal.toNat {c : U8} (h : IsOctal c) : 0x30 ≤ c.toNat ∧ c.toNat ≤ 0x37 := h

theorem octalFrom_lt {digits : List U8} (h : ∀ c ∈ digits, IsOctal c) (v : Nat) :
    octalFrom v digits < 8 ^ digits.length * (v + 1) := by
  induction digits generalizing v with
  | nil =>
    rw [List.length_nil, Nat.pow_zero, Nat.one_mul]
    exact Nat.lt_succ_self v
  | cons c digits ih =>
    have hc := (h c List.mem_cons_self).toNat
    have hstep := ih (fun d hd => h d (List.mem_cons_of_mem c hd)) (8 * v + (c.toNat - 0x30))
    have hle : 8 ^ digits.length * (8 * v + (c.toNat - 0x30) + 1) ≤
        8 ^ digits.length * (8 * (v + 1)) := Nat.mul_le_mul_left _ (by omega)
    calc octalFrom v (c :: digits) < 8 ^ digits.length * (8 * v + (c.toNat - 0x30) + 1) := hstep
      _ ≤ 8 ^ digits.length * (8 * (v + 1)) := hle
      _ = 8 ^ (c :: digits).length * (v + 1) := by
        rw [List.length_cons, Nat.pow_succ, Nat.mul_assoc]

/-- What one pass of `parse_oct` makes of the number so far. -/
theorem octal_step {c : U8} (h : IsOctal c) (v : Nat) :
    (BitVec.ofNat 64 v <<< 3) + (c - 0x30).setWidth 64 =
      BitVec.ofNat 64 (8 * v + (c.toNat - 0x30)) := by
  have hc := h.toNat
  have hdigit : (c - 0x30).toNat = c.toNat - 0x30 := by bv_omega
  apply BitVec.eq_of_toNat_eq
  rw [BitVec.toNat_add, BitVec.toNat_shiftLeft, BitVec.toNat_setWidth, hdigit,
    BitVec.toNat_ofNat, BitVec.toNat_ofNat, Nat.shiftLeft_eq]
  omega

theorem parseOctFrom_eq {str : Nat → U8} {digits : List U8} {passes c : Nat} (v : Nat)
    (hdigits : slice str c digits.length = digits) (hoctal : ∀ d ∈ digits, IsOctal d)
    (hstop : ¬IsOctal (str (c + digits.length))) (hpasses : digits.length < passes) :
    parseOctFrom str passes c (BitVec.ofNat 64 v) =
      .ok (BitVec.ofNat 8 (c + digits.length), BitVec.ofNat 64 (octalFrom v digits)) := by
  induction digits generalizing passes c v with
  | nil =>
    obtain ⟨passes, rfl⟩ := Nat.exists_eq_succ_of_ne_zero (Nat.ne_of_gt hpasses)
    have hstop : ¬(0x30 ≤ str c ∧ str c ≤ 0x37) := hstop
    rw [parseOctFrom, if_neg hstop]
    rfl
  | cons d digits ih =>
    obtain ⟨passes, rfl⟩ := Nat.exists_eq_succ_of_ne_zero (Nat.ne_of_gt (Nat.zero_lt_of_lt hpasses))
    rw [List.length_cons] at hdigits hstop hpasses
    have hshift : c + 1 + digits.length = c + (digits.length + 1) := by omega
    rw [Nat.add_comm digits.length 1, slice_add] at hdigits
    obtain ⟨hd, hrest⟩ := List.cons.inj hdigits
    have hd : str c = d := hd
    have hoct : 0x30 ≤ d ∧ d ≤ 0x37 := hoctal d List.mem_cons_self
    rw [parseOctFrom, hd, if_pos hoct, octal_step hoct,
      ih _ hrest (fun c hc => hoctal c (List.mem_cons_of_mem d hc)) (hshift ▸ hstop)
        (Nat.lt_of_succ_lt_succ hpasses), List.length_cons, hshift]
    rfl

/-- The bytes that the loop steps over. -/
theorem incrementBlocks_eq {n : Nat} (h : n < 2 ^ 33) :
    FsKernel.incrementBlocks (BitVec.ofNat 64 n) <<< 9 =
      BitVec.ofNat 64 (512 * (1 + (n + 511) / 512)) := by
  have hn : (BitVec.ofNat 64 n).toNat = n := by
    rw [BitVec.toNat_ofNat]
    exact Nat.mod_eq_of_lt (Nat.lt_trans h (by decide))
  have hlow : BitVec.ofNat 64 n &&& 0x1FF ≠ 0 ↔ n % 512 ≠ 0 := by
    have hmask : (BitVec.ofNat 64 n &&& 0x1FF).toNat = n % 512 := by
      rw [BitVec.toNat_and, hn]
      exact Nat.and_two_pow_sub_one_eq_mod n 9
    rw [← hmask, ← BitVec.toNat_inj.ne]
    rfl
  have hhigh : (BitVec.ofNat 64 n >>> 9).toNat = n / 512 := by
    rw [BitVec.toNat_ushiftRight, hn]
    exact Nat.shiftRight_eq_div_pow n 9
  apply BitVec.eq_of_toNat_eq
  rw [FsKernel.incrementBlocks, BitVec.toNat_shiftLeft, BitVec.toNat_add, BitVec.toNat_add, hhigh,
    BitVec.toNat_ofNat, Nat.shiftLeft_eq]
  have hone : (1 : U64).toNat = 1 := rfl
  have hzero : (0 : U64).toNat = 0 := rfl
  by_cases hz : n % 512 = 0
  · rw [if_neg (fun hh => hlow.mp hh hz), hone, hzero]
    omega
  · rw [if_pos (hlow.mpr hz), hone]
    omega

/-- A path without its trailing slash. -/
def trimSlash (filepath : List U8) : List U8 :=
  if filepath.getLast? = some slash then filepath.dropLast else filepath

theorem components_trimSlash (filepath : List U8) :
    components slash (trimSlash filepath) = components slash filepath := by
  rw [trimSlash]
  split
  · next hlast =>
    obtain ⟨stem, rfl⟩ := List.getLast?_eq_some_iff.mp hlast
    rw [List.dropLast_concat, components_append_sep]
  · rfl

theorem stripSlash_eq {filepath : List U8} (h : filepath ≠ []) :
    stripSlash filepath = .ok (trimSlash filepath) := by
  rw [stripSlash, if_neg h, trimSlash]
  split <;> rfl

/-- An entry, with all the bytes of its header. The name of a directory ends in a slash. -/
structure TarEntry where
  name : List U8
  nameRest : List U8
  owner : List U8
  size : List U8
  times : List U8
  typeflag : U8
  rest : List U8
  content : List U8
  name_length : name.length + 1 + nameRest.length = 100
  name_nonzero : 0 ∉ name
  name_slash : typeflag = 0x35 → endsIn slash name = true
  name_ne_root : components slash name ≠ []
  owner_length : owner.length = 24
  size_length : size.length = 11
  size_octal : ∀ c ∈ size, IsOctal c
  size_value : octalFrom 0 size = content.length
  times_length : times.length = 20
  rest_length : rest.length = 355
  empty : typeflag = 0x35 → content = []

namespace TarEntry

def IsDirectory (e : TarEntry) : Prop := e.typeflag = 0x35

def path (e : TarEntry) : List (List U8) := components slash e.name

/-- The 512 bytes before the content. -/
def header (e : TarEntry) : List U8 :=
  e.name ++ 0 :: e.nameRest ++ e.owner ++ (e.size ++ 0 :: (e.times ++ e.typeflag :: e.rest))

/-- What fills the last block of the content. -/
def padding (e : TarEntry) : List U8 :=
  List.replicate (512 * ((e.content.length + 511) / 512) - e.content.length) 0

def bytes (e : TarEntry) : List U8 := e.header ++ (e.content ++ e.padding)

theorem header_length (e : TarEntry) : e.header.length = 512 := by
  have hname := e.name_length
  simp only [header, List.length_append, List.length_cons, e.owner_length, e.size_length,
    e.times_length, e.rest_length]
  omega

theorem bytes_length (e : TarEntry) :
    e.bytes.length = 512 * (1 + (e.content.length + 511) / 512) := by
  rw [bytes, List.length_append, header_length, List.length_append, padding,
    List.length_replicate]
  omega

variable {memory : U64 → U8} {a : U64}

theorem slice_size (e : TarEntry) (h : HoldsAt memory a e.header) :
    slice (bytesFrom memory a) 124 12 = e.size ++ [0] := by
  have hbefore : (e.name ++ 0 :: e.nameRest ++ e.owner).length = 124 := by
    have hname := e.name_length
    simp only [List.length_append, List.length_cons, e.owner_length]
    omega
  have hfield : (e.size ++ [0]).length = 12 := by
    rw [List.length_append, e.size_length, List.length_singleton]
  rw [h.slice_eq (by rw [header_length]; decide), header, List.drop_left' hbefore,
    List.append_cons, List.take_left' hfield]

theorem typeflag_byte (e : TarEntry) (h : HoldsAt memory a e.header) :
    bytesFrom memory a 156 = e.typeflag := by
  have hbefore : (e.name ++ 0 :: e.nameRest ++ e.owner ++ (e.size ++ 0 :: e.times)).length =
      156 := by
    have hname := e.name_length
    simp only [List.length_append, List.length_cons, e.owner_length, e.size_length,
      e.times_length]
    omega
  have hheader : e.header = e.name ++ 0 :: e.nameRest ++ e.owner ++ (e.size ++ 0 :: e.times) ++
      e.typeflag :: e.rest := by
    simp only [header, List.append_assoc, List.cons_append]
  have hslice := h.slice_eq (o := 156) (n := 1) (by rw [header_length]; decide)
  rw [hheader, List.drop_left' hbefore, List.take_one] at hslice
  exact (List.cons.inj hslice).1

theorem name_string (e : TarEntry) (h : HoldsAt memory a e.header) :
    cString (slice (bytesFrom memory a) 0 (filepathMaxLength + 1)) = e.name := by
  have hname := e.name_length
  have hlength : filepathMaxLength + 1 = (e.name.length + 1) + (400 - e.name.length) := by
    rw [filepathMaxLength]
    omega
  have hstart : slice (bytesFrom memory a) 0 (e.name.length + 1) = e.name ++ [0] := by
    have hfield : (e.name ++ [0]).length = e.name.length + 1 := List.length_append
    rw [h.slice_eq (by rw [header_length]; omega), header, List.drop_zero, List.append_cons,
      List.append_assoc, List.append_assoc, List.take_left' hfield]
  rw [hlength, slice_add, hstart, List.append_assoc, cString_append e.name_nonzero,
    List.singleton_append, cString_zero, List.append_nil]

/-- The number in the header. -/
theorem parseOct_size (e : TarEntry) (hm : HoldsAt memory a e.header)
    {passes : Nat}
    (hpasses : 12 ≤ passes) :
    slice (bytesFrom memory a) 124 12 ≠ List.replicate 12 0 ∧ ∃ n,
      parseOct passes (fun i => bytesFrom memory a (124 + i)) =
        .ok (n, BitVec.ofNat 64 e.content.length) := by
  have hfield := e.slice_size hm
  constructor
  · rw [hfield]
    intro hzero
    have hpos : 0 < e.size.length := e.size_length.symm ▸ Nat.succ_pos 10
    obtain ⟨c, hc⟩ := List.exists_mem_of_length_pos hpos
    have hnull : c = 0 := List.eq_of_mem_replicate (hzero ▸ List.mem_append_left _ hc)
    have hoctal := (e.size_octal c hc).toNat
    rw [hnull] at hoctal
    exact absurd hoctal.1 (by decide)
  · have hsplit := slice_add (bytesFrom memory a) 124 11 1
    rw [hfield] at hsplit
    obtain ⟨hdigits, hzero⟩ := List.append_inj hsplit (by rw [e.size_length, slice_length])
    have hdigits : slice (fun i => bytesFrom memory a (124 + i)) 0 e.size.length = e.size := by
      rw [e.size_length, slice_shift]
      exact hdigits.symm
    have hstop : bytesFrom memory a (124 + (0 + e.size.length)) = 0 := by
      rw [e.size_length]
      exact (List.cons.inj hzero).1.symm
    have hparse := parseOctFrom_eq 0 hdigits e.size_octal
      (by rw [hstop]; exact fun hh => absurd hh.1 (by decide))
      (Nat.lt_of_lt_of_le (e.size_length ▸ Nat.lt_succ_self 11) hpasses)
    rw [e.size_value] at hparse
    exact ⟨_, hparse⟩

end TarEntry

def tarArchive (entries : List TarEntry) : List U8 :=
  entries.flatMap TarEntry.bytes ++ List.replicate 512 0

theorem holdsAt_tarArchive {memory : U64 → U8} {a : U64} {e : TarEntry} 
    {entries : List TarEntry} : HoldsAt memory a (tarArchive (e :: entries)) ↔ HoldsAt memory a e.bytes ∧
      HoldsAt memory (a + BitVec.ofNat 64 e.bytes.length) (tarArchive entries) := by
  rw [← holdsAt_append, tarArchive, List.flatMap_cons, List.append_assoc, tarArchive]

end Persistos
