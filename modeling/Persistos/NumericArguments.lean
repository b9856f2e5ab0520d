import Persistos.Hd
import Persistos.Numerals

/-! The numbers in the arguments of `kill`, `sleep`, `truncate` and `hd`, from the argument to the
system call. -/

namespace Persistos

/-- The number of an argument, where `parse_n_dec` has read as many characters as it has. -/
def numericArgument (m : UserTask) (s : Process) (parseError arg : List U8) :
    Except UserStop U64 :=
  let (parseResult, number) := parseNDec arg 100
  if parseResult.setWidth 64 ≠ BitVec.ofNat 64 (strlen arg) then s.fail m [parseError]
  else .ok number

/-- The program with one number as its argument, up to the system call. -/
def onlyNumber (m : UserTask) (noArguments parseError : List U8) (argv : List (List U8))
    (s : Process) : Except UserStop U64 :=
  if argv.length < 2 then s.fail m [noArguments]
  else numericArgument m s parseError (argv.getD 1 [])

/-- The first argument of KILL. -/
def Kill.pid (m : UserTask) : List (List U8) → Process → Except UserStop U64 :=
  onlyNumber m (ascii "kill: expected some arguments\n") (ascii "kill: parse error\n")

/-- The argument of SLEEP. -/
def Sleep.millis (m : UserTask) : List (List U8) → Process → Except UserStop U64 :=
  onlyNumber m (ascii "sleep: expected some arguments\n") (ascii "sleep: parse error\n")

namespace Truncate

variable (m : UserTask)

/-- `truncate_size` and `processed_argc` after the options. -/
def options (argv : List (List U8)) (s : Process) : Except UserStop (U64 × Nat) :=
  if strcmp (argv.getD 1 []) (ascii "-s") = 0 then
    if argv.length ≤ 2 then s.fail m [ascii "truncate: expected size argument\n"]
    else do
      let truncateSize ← numericArgument m s (ascii "truncate: parse error") (argv.getD 2 [])
      .ok (truncateSize, 3)
  else .ok (0, 1)

/-- The second argument of FTRUNCATE, and the path of the file. -/
def sizeAndPath (argv : List (List U8)) (s : Process) : Except UserStop (U64 × List U8) :=
  if argv.length ≤ 1 then s.fail m [ascii "truncate: expected some arguments\n"]
  else do
    let (truncateSize, processedArgc) ← options m argv s
    if argv.length ≤ processedArgc then
      s.fail m [ascii "truncate: expected filepath argument\n"]
    else .ok (truncateSize, argv.getD processedArgc [])

end Truncate

/-- The length that is parsed is that of the argument. -/
def Accepted (arg : List U8) : Prop :=
  (parseNDec arg 100).1.setWidth 64 = BitVec.ofNat 64 (strlen arg)

instance : DecidablePred Accepted := fun _ => inferInstanceAs (Decidable (_ = _))

/-- One of the programs uses the number as what the argument says. -/
inductive Uses (m : UserTask) (s : Process) (arg : List U8) (number : U64) : Prop
  | kill {argv : List (List U8)} (place : argv.getD 1 [] = arg)
      (run : Kill.pid m argv s = .ok number)
  | sleep {argv : List (List U8)} (place : argv.getD 1 [] = arg)
      (run : Sleep.millis m argv s = .ok number)
  | truncate {argv : List (List U8)} {path : List U8}
      (option : strcmp (argv.getD 1 []) (ascii "-s") = 0) (place : argv.getD 2 [] = arg)
      (run : Truncate.sizeAndPath m argv s = .ok (number, path))
  | hd {argv : List (List U8)} (option : 2 < argv.length) (place : argv.getD 3 [] = arg)
      (run : Hd.lengthLimit m argv s = .ok number)

/-- The argument is accepted for the number that it says, and only for that one. -/
structure MeansWhatItSays (arg : List U8) : Prop where
  accepted : Accepted arg ↔ Numeral arg ∧ decimalValue arg < 2 ^ 64
  value : Accepted arg → (parseNDec arg 100).2.toNat = decimalValue arg
  used : ∀ m s number, Uses m s arg number → Numeral arg ∧ number.toNat = decimalValue arg

variable {m : UserTask} {s : Process} {arg parseError : List U8} {number : U64}

theorem numericArgument_ok (h : numericArgument m s parseError arg = .ok number) :
    Accepted arg ∧ number = (parseNDec arg 100).2 := by
  rw [numericArgument] at h
  dsimp only at h
  split at h
  · exact absurd h Process.fail_ne_ok
  · next hlength =>
    cases h
    exact ⟨not_not.mp hlength, rfl⟩

theorem onlyNumber_ok {noArguments : List U8} {argv : List (List U8)}
    (h : onlyNumber m noArguments parseError argv s = .ok number) :
    Accepted (argv.getD 1 []) ∧ number = (parseNDec (argv.getD 1 []) 100).2 := by
  rw [onlyNumber] at h
  split at h
  · exact absurd h Process.fail_ne_ok
  · exact numericArgument_ok h

theorem Uses.accepted (h : Uses m s arg number) :
    Accepted arg ∧ number = (parseNDec arg 100).2 := by
  cases h with
  | kill place run => exact place ▸ onlyNumber_ok run
  | sleep place run => exact place ▸ onlyNumber_ok run
  | truncate option place run =>
    rw [Truncate.sizeAndPath] at run
    split at run
    · exact absurd run Process.fail_ne_ok
    · obtain ⟨⟨truncateSize, processedArgc⟩, hoptions, run⟩ := bind_user_eq_ok run
      rw [Truncate.options, if_pos option] at hoptions
      split at hoptions
      · exact absurd hoptions Process.fail_ne_ok
      · obtain ⟨size, hsize, hoptions⟩ := bind_user_eq_ok hoptions
        cases hoptions
        dsimp only at run
        split at run
        · exact absurd run Process.fail_ne_ok
        · cases run
          exact place ▸ numericArgument_ok hsize
  | hd option place run =>
    rw [Hd.lengthLimit, if_pos option] at run
    split at run
    · split at run
      · exact absurd run Process.fail_ne_ok
      · exact place ▸ numericArgument_ok run
    · exact absurd run Process.fail_ne_ok

/-- The test is whether all of the argument is digits. -/
theorem accepted_iff (hzero : 0 ∉ arg) (hlength : arg.length ≤ 100) :
    Accepted arg ↔ ∀ c ∈ arg, DigitChar c := by
  have hstrlen : strlen arg = arg.length := by rw [strlen_eq, cString_of_notMem hzero]
  have hle := leadingDigits_length_le arg 100
  have hprefix : leadingDigits arg 100 <+: arg := by
    rw [leadingDigits, List.take_of_length_le hlength]
    exact List.takeWhile_prefix _
  have hlengths : Accepted arg ↔ (leadingDigits arg 100).length = arg.length := by
    rw [Accepted, parseNDec_eq, hstrlen, ← BitVec.toNat_inj]
    simp only [BitVec.toNat_setWidth, BitVec.toNat_ofNat]
    omega
  rw [hlengths]
  constructor
  · intro hall c hc
    rw [← hprefix.eq_of_length hall] at hc
    exact of_decide_eq_true (List.mem_takeWhile_imp (p := fun c => decide (DigitChar c)) hc)
  · intro hall
    rw [leadingDigits, List.take_of_length_le hlength, List.takeWhile_eq_self_iff.mpr]
    exact fun c hc => decide_eq_true (hall c hc)

/-- What is read from an argument that is accepted. -/
theorem Accepted.value (h : Accepted arg) (hzero : 0 ∉ arg) (hlength : arg.length ≤ 100) :
    (parseNDec arg 100).2.toNat = decimalValue arg % 2 ^ 64 := by
  have hall := (accepted_iff hzero hlength).mp h
  rw [parseNDec_eq, leadingDigits, List.take_of_length_le hlength,
    List.takeWhile_eq_self_iff.mpr fun c hc => decide_eq_true (hall c hc), BitVec.toNat_ofNat]

/-- An argument means what it says unless it is empty, or a numeral that is too large. -/
theorem meansWhatItSays_iff (hzero : 0 ∉ arg) (hlength : arg.length ≤ 100) :
    MeansWhatItSays arg ↔ arg ≠ [] ∧ (Numeral arg → decimalValue arg < 2 ^ 64) := by
  have hiff := accepted_iff hzero hlength
  constructor
  · intro h
    refine ⟨?_, fun hnumeral => (h.accepted.mp (hiff.mpr hnumeral.2)).2⟩
    rintro rfl
    exact (h.accepted.mp (hiff.mpr fun _ hc => absurd hc List.not_mem_nil)).1.1 rfl
  · rintro ⟨hne, hvalue⟩
    have hnumeral : Accepted arg → Numeral arg := fun h => ⟨hne, hiff.mp h⟩
    have hexact : Accepted arg → (parseNDec arg 100).2.toNat = decimalValue arg := fun h =>
      (h.value hzero hlength).trans (Nat.mod_eq_of_lt (hvalue (hnumeral h)))
    refine ⟨⟨fun h => ⟨hnumeral h, hvalue (hnumeral h)⟩, fun h => hiff.mpr h.1.2⟩, hexact, ?_⟩
    intro m s number h
    obtain ⟨haccepted, rfl⟩ := h.accepted
    exact ⟨hnumeral haccepted, hexact haccepted⟩

theorem meansWhatItSays_42 : MeansWhatItSays (ascii "42") :=
  (meansWhatItSays_iff (by decide) (by decide)).mpr ⟨by decide, fun _ => by decide⟩

/-- The empty argument passes for 0, and a number past 2^64 passes for 1. -/
theorem empty_and_large_arguments : ¬MeansWhatItSays [] ∧
    ¬MeansWhatItSays (ascii "18446744073709551617") := by
  constructor
  · intro h
    exact (h.accepted.mp (by decide)).1.1 rfl
  · intro h
    have hvalue := h.value (by decide)
    revert hvalue
    decide

end Persistos
