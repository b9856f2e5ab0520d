import Persistos.Sprintf
import Persistos.Tty
import Persistos.TtyEvents

/-! The keyboard driver. The scancodes of an interrupt become characters of the terminal that is
shown, and Ctrl with a digit shows another one. -/

namespace Persistos

def asciiKeys (s : String) : List KeyboardEvent := (ascii s).map fun symbol => ⟨kbdAscii, symbol⟩

def nonasciiKeys (symbols : List U8) : List KeyboardEvent :=
  symbols.map fun symbol => ⟨kbdNonascii, symbol⟩

/-- The entries from 0x3A on. Both keymaps have the same ones but for the key 0x56. -/
def keypad (s : String) : List KeyboardEvent :=
  nonasciiKeys (List.replicate 14 0 ++ [kbdArrowUp, 0]) ++ asciiKeys "-" ++
    nonasciiKeys [kbdArrowLeft, 0, kbdArrowRight] ++ asciiKeys "+" ++
      nonasciiKeys ([0, kbdArrowDown] ++ List.replicate 5 0) ++ asciiKeys s ++ nonasciiKeys [0, 0]

def keymapNoModifiers : List KeyboardEvent :=
  nonasciiKeys [0, kbdEsc] ++ asciiKeys "1234567890-=" ++ nonasciiKeys [kbdBackspace] ++
    asciiKeys "\tqwertyuiop[]\n" ++ nonasciiKeys [0] ++ asciiKeys "asdfghjkl;'`" ++
      nonasciiKeys [0] ++ asciiKeys "#zxcvbnm,./" ++ nonasciiKeys [0] ++ asciiKeys "*" ++
        nonasciiKeys [0] ++ asciiKeys " " ++ keypad "\\"

def keymapShift : List KeyboardEvent :=
  nonasciiKeys [0, kbdEsc] ++ asciiKeys "!\"#$%^&*()_+" ++ nonasciiKeys [kbdBackspace] ++
    asciiKeys "\tQWERTYUIOP\x7b\x7d\n" ++ nonasciiKeys [0] ++ asciiKeys "ASDFGHJKL:@" ++
      nonasciiKeys [0, 0] ++ asciiKeys "~ZXCVBNM<>?" ++ nonasciiKeys [0] ++ asciiKeys "*" ++
        nonasciiKeys [0] ++ asciiKeys " " ++ keypad "|"

def keymapLength : Nat := 128

/-- The entries that the source does not give are zero. -/
def keymapEntry (keymap : List KeyboardEvent) (scancode : U8) : Except Crash KeyboardEvent :=
  if scancode.toNat < keymapLength then .ok (keymap.getD scancode.toNat ⟨0, 0⟩)
  else .error .outOfBounds

def modCtrl : U8 := 1 <<< 0
def modShift : U8 := 1 <<< 1
def modAlt : U8 := 1 <<< 2

structure Keyboard where
  depressedModKeys : U8
  activeVtDevice : Terminal

namespace Keyboard

def init : Keyboard := ⟨0, .tty1⟩

/-- One turn of the loop of `keyboard_rb_fill`, with the event that it gives to `vt_update_input`
of the active terminal. -/
def turn (k : Keyboard) (scancode : U8) : Except Crash (Keyboard × Option KeyboardEvent) :=
  if scancode = 0x2A then
    .ok ({ k with depressedModKeys := k.depressedModKeys ||| modShift }, none)
  else if scancode = 0xAA then
    .ok ({ k with depressedModKeys := k.depressedModKeys &&& ~~~modShift }, none)
  else if scancode = 0x1D then
    .ok ({ k with depressedModKeys := k.depressedModKeys ||| modCtrl }, none)
  else if scancode = 0x9D then
    .ok ({ k with depressedModKeys := k.depressedModKeys &&& ~~~modCtrl }, none)
  else if scancode = 0x38 then
    .ok ({ k with depressedModKeys := k.depressedModKeys ||| modAlt }, none)
  else if scancode = 0xB8 then
    .ok ({ k with depressedModKeys := k.depressedModKeys &&& ~~~modAlt }, none)
  else if scancode > 0x80 then .ok (k, none)
  else if scancode = 0x02 ∧ k.depressedModKeys &&& modCtrl ≠ 0 then
    .ok ({ k with activeVtDevice := .tty1 }, none)
  else if scancode = 0x03 ∧ k.depressedModKeys &&& modCtrl ≠ 0 then
    .ok ({ k with activeVtDevice := .tty2 }, none)
  else if scancode = 0x04 ∧ k.depressedModKeys &&& modCtrl ≠ 0 then
    .ok ({ k with activeVtDevice := .tty3 }, none)
  else do
    let event ← keymapEntry
      (if k.depressedModKeys &&& modShift ≠ 0 then keymapShift else keymapNoModifiers) scancode
    .ok (k, if event.symbol = 0 then none else some event)

/-- One turn with the keyboard buffers of the terminals. -/
def fill (s : Keyboard × (Terminal → VtInput)) (scancode : U8) :
    Except Crash (Keyboard × (Terminal → VtInput)) := do
  let (k, event) ← s.1.turn scancode
  .ok (k, match event with
    | none => s.2
    | some event =>
      Function.update s.2 k.activeVtDevice ((s.2 k.activeVtDevice).vtUpdateInput event))

/-- The scancodes that the controller has when the interrupt comes. -/
def keyboardRbFill (s : Keyboard × (Terminal → VtInput)) (scancodes : List U8) :
    Except Crash (Keyboard × (Terminal → VtInput)) := scancodes.foldlM fill s

end Keyboard

end Persistos
