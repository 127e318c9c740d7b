import OsLab.Dev.Input

/-! # The keyboard (`ioe.c`, `dev_input.c`)

A byte of the keyboard controller stands for a key that goes down or up. `input_keydown`
keeps a flag for every modifier key and pushes an event for every other key that goes
down and has a character. The memory of these flags is not cleared, so they may start
with any values.

`keyEvents` says what the events should be, from the history alone: a modifier is down
when its last key event was a press, and CapsLock works on letters only.
-/

namespace OsLab

/-- The codes `AM_KEY_*`. -/
inductive Key
  | NONE | ESCAPE | F1 | F2 | F3 | F4 | F5 | F6 | F7 | F8 | F9 | F10 | F11 | F12 | GRAVE | N1
  | N2 | N3 | N4 | N5 | N6 | N7 | N8 | N9 | N0 | MINUS | EQUALS | BACKSPACE | TAB | Q | W | E
  | R | T | Y | U | I | O | P | LEFTBRACKET | RIGHTBRACKET | BACKSLASH | CAPSLOCK | A | S | D
  | F | G | H | J | K | L | SEMICOLON | APOSTROPHE | RETURN | LSHIFT | Z | X | C | V | B | N
  | M | COMMA | PERIOD | SLASH | RSHIFT | LCTRL | APPLICATION | LALT | SPACE | RALT | RCTRL
  | UP | DOWN | LEFT | RIGHT | INSERT | DELETE | HOME | END | PAGEUP | PAGEDOWN
deriving DecidableEq

/-- `keylut` of `ioe.c`. The left Alt key gets the code of the right one, which its table has in
the same place. -/
def keylut : ℕ → Key
  | 0x01 => .ESCAPE
  | 0x02 => .N1
  | 0x03 => .N2
  | 0x04 => .N3
  | 0x05 => .N4
  | 0x06 => .N5
  | 0x07 => .N6
  | 0x08 => .N7
  | 0x09 => .N8
  | 0x0a => .N9
  | 0x0b => .N0
  | 0x0c => .MINUS
  | 0x0d => .EQUALS
  | 0x0e => .BACKSPACE
  | 0x0f => .TAB
  | 0x10 => .Q
  | 0x11 => .W
  | 0x12 => .E
  | 0x13 => .R
  | 0x14 => .T
  | 0x15 => .Y
  | 0x16 => .U
  | 0x17 => .I
  | 0x18 => .O
  | 0x19 => .P
  | 0x1a => .LEFTBRACKET
  | 0x1b => .RIGHTBRACKET
  | 0x1c => .RETURN
  | 0x1d => .LCTRL
  | 0x1e => .A
  | 0x1f => .S
  | 0x20 => .D
  | 0x21 => .F
  | 0x22 => .G
  | 0x23 => .H
  | 0x24 => .J
  | 0x25 => .K
  | 0x26 => .L
  | 0x27 => .SEMICOLON
  | 0x28 => .APOSTROPHE
  | 0x29 => .GRAVE
  | 0x2a => .LSHIFT
  | 0x2b => .BACKSLASH
  | 0x2c => .Z
  | 0x2d => .X
  | 0x2e => .C
  | 0x2f => .V
  | 0x30 => .B
  | 0x31 => .N
  | 0x32 => .M
  | 0x33 => .COMMA
  | 0x34 => .PERIOD
  | 0x35 => .SLASH
  | 0x36 => .RSHIFT
  | 0x38 => .RALT
  | 0x39 => .SPACE
  | 0x3a => .CAPSLOCK
  | 0x3b => .F1
  | 0x3c => .F2
  | 0x3d => .F3
  | 0x3e => .F4
  | 0x3f => .F5
  | 0x40 => .F6
  | 0x41 => .F7
  | 0x42 => .F8
  | 0x43 => .F9
  | 0x44 => .F10
  | 0x48 => .INSERT
  | 0x4b => .HOME
  | 0x4d => .END
  | 0x50 => .DELETE
  | 0x57 => .F11
  | 0x58 => .F12
  | 0x5b => .APPLICATION
  | _ => .NONE

/-- `AM_INPUT_KEYBRD_T`. -/
structure KeyEvent where
  keydown : Bool
  keycode : Key

/-- `input_keybrd` of `ioe.c`, when the controller has the byte `code`. -/
def inputKeybrd (code : UInt8) : KeyEvent := ⟨code < 128, keylut (code.toNat % 128)⟩

/-- A row of `keymap`. -/
def chars (ch shifted : Char) : UInt8 × UInt8 := (ch.toUInt8, shifted.toUInt8)

/-- `keymap`: the character of a key, without and with shift. -/
def keymap : Key → UInt8 × UInt8
  | .N0 => chars '0' ')'
  | .N1 => chars '1' '!'
  | .N2 => chars '2' '@'
  | .N3 => chars '3' '#'
  | .N4 => chars '4' '$'
  | .N5 => chars '5' '%'
  | .N6 => chars '6' '^'
  | .N7 => chars '7' '&'
  | .N8 => chars '8' '*'
  | .N9 => chars '9' '('
  | .A => chars 'a' 'A'
  | .B => chars 'b' 'B'
  | .C => chars 'c' 'C'
  | .D => chars 'd' 'D'
  | .E => chars 'e' 'E'
  | .F => chars 'f' 'F'
  | .G => chars 'g' 'G'
  | .H => chars 'h' 'H'
  | .I => chars 'i' 'I'
  | .J => chars 'j' 'J'
  | .K => chars 'k' 'K'
  | .L => chars 'l' 'L'
  | .M => chars 'm' 'M'
  | .N => chars 'n' 'N'
  | .O => chars 'o' 'O'
  | .P => chars 'p' 'P'
  | .Q => chars 'q' 'Q'
  | .R => chars 'r' 'R'
  | .S => chars 's' 'S'
  | .T => chars 't' 'T'
  | .U => chars 'u' 'U'
  | .V => chars 'v' 'V'
  | .W => chars 'w' 'W'
  | .X => chars 'x' 'X'
  | .Y => chars 'y' 'Y'
  | .Z => chars 'z' 'Z'
  | .GRAVE => chars '\x60' '~'
  | .MINUS => chars '-' '_'
  | .EQUALS => chars '=' '+'
  | .LEFTBRACKET => chars '[' '\x7b'
  | .RIGHTBRACKET => chars ']' '\x7d'
  | .BACKSLASH => chars '\x5c' '|'
  | .SEMICOLON => chars ';' ':'
  | .APOSTROPHE => chars '\x27' '\x22'
  | .RETURN => chars '\n' '\n'
  | .COMMA => chars ',' '<'
  | .PERIOD => chars '.' '>'
  | .SLASH => chars '/' '?'
  | .SPACE => chars ' ' ' '
  | .BACKSPACE => chars '\x08' '\x08'
  | _ => (0, 0)

/-- The flags of `input_t`; `shift_down[0]` is the left one. -/
structure Keyboard where
  capslock : BitVec 32
  shiftDown : BitVec 32 × BitVec 32
  ctrlDown : BitVec 32 × BitVec 32
  altDown : BitVec 32 × BitVec 32

/-- `event`. -/
def event (ctrl alt data : ℕ) : InputEvent :=
  ⟨BitVec.ofNat 1 ctrl, BitVec.ofNat 1 alt, BitVec.ofNat 16 data⟩

/-- `v[0] || v[1]`. -/
def either (v : BitVec 32 × BitVec 32) : BitVec 32 := if v.1 ≠ 0 ∨ v.2 ≠ 0 then 1 else 0

/-- `input_keydown`: the flags afterwards, and the event it pushes. -/
def inputKeydown (key : KeyEvent) (kb : Keyboard) : Keyboard × Option InputEvent :=
  if key.keydown then
    match key.keycode with
    | .CAPSLOCK => ({ kb with capslock := kb.capslock ^^^ 1 }, none)
    | .LCTRL => ({ kb with ctrlDown := (1, kb.ctrlDown.2) }, none)
    | .RCTRL => ({ kb with ctrlDown := (kb.ctrlDown.1, 1) }, none)
    | .LALT => ({ kb with altDown := (1, kb.altDown.2) }, none)
    | .RALT => ({ kb with altDown := (kb.altDown.1, 1) }, none)
    | .LSHIFT => ({ kb with shiftDown := (1, kb.shiftDown.2) }, none)
    | .RSHIFT => ({ kb with shiftDown := (kb.shiftDown.1, 1) }, none)
    | _ =>
        let ch := (keymap key.keycode).1
        if ch ≠ 0 then
          let shift := either kb.shiftDown
          let ctrl := either kb.ctrlDown
          let alt := either kb.altDown
          if ctrl ≠ 0 ∨ alt ≠ 0 then (kb, some (event ctrl.toNat alt.toNat ch.toNat))
          else
            let shift :=
              if 'a'.toUInt8 ≤ ch ∧ ch ≤ 'z'.toUInt8 then shift ^^^ kb.capslock else shift
            if shift ≠ 0 then (kb, some (event 0 0 (keymap key.keycode).2.toNat))
            else (kb, some (event 0 0 ch.toNat))
        else (kb, none)
  else
    match key.keycode with
    | .LCTRL => ({ kb with ctrlDown := (0, kb.ctrlDown.2) }, none)
    | .RCTRL => ({ kb with ctrlDown := (kb.ctrlDown.1, 0) }, none)
    | .LALT => ({ kb with altDown := (0, kb.altDown.2) }, none)
    | .RALT => ({ kb with altDown := (kb.altDown.1, 0) }, none)
    | .LSHIFT => ({ kb with shiftDown := (0, kb.shiftDown.2) }, none)
    | .RSHIFT => ({ kb with shiftDown := (kb.shiftDown.1, 0) }, none)
    | _ => (kb, none)

/-- The keys `keys` one after the other: the flags and all events. -/
def inputKeydowns (kb : Keyboard) (keys : List KeyEvent) : Keyboard × List InputEvent :=
  keys.foldl (fun s key =>
    ((inputKeydown key s.1).1, s.2 ++ (inputKeydown key s.1).2.toList)) (kb, [])

/-- One round of the inner loop of `dev_input_task`: a byte whose key has no code ends it. -/
def inputCode (code : UInt8) (kb : Keyboard) : Keyboard × Option InputEvent :=
  let key := inputKeybrd code
  if key.keycode ≠ .NONE then inputKeydown key kb else (kb, none)

/-- The event `dev_input_task` pushes from time to time while the queue is empty. -/
def idleEvent : InputEvent := event 0 0 0

/-! ## What the keys mean -/

/-- The flag of the key `k` after the events `keys`: as its last event left it. -/
def flagAfter (v : BitVec 32) (k : Key) (keys : List KeyEvent) : BitVec 32 :=
  match (keys.filter fun e => e.keycode = k).getLast? with
  | some e => if e.keydown then 1 else 0
  | none => v

/-- CapsLock changes with every press. -/
def capslockAfter (v : BitVec 32) (keys : List KeyEvent) : BitVec 32 :=
  if (keys.countP fun e => e.keydown ∧ e.keycode = .CAPSLOCK) % 2 = 0 then v else v ^^^ 1

def keyboardAfter (kb : Keyboard) (keys : List KeyEvent) : Keyboard where
  capslock := capslockAfter kb.capslock keys
  shiftDown := (flagAfter kb.shiftDown.1 .LSHIFT keys, flagAfter kb.shiftDown.2 .RSHIFT keys)
  ctrlDown := (flagAfter kb.ctrlDown.1 .LCTRL keys, flagAfter kb.ctrlDown.2 .RCTRL keys)
  altDown := (flagAfter kb.altDown.1 .LALT keys, flagAfter kb.altDown.2 .RALT keys)

/-- One of the two keys is down. -/
def Held (v : BitVec 32 × BitVec 32) : Prop := v.1 ≠ 0 ∨ v.2 ≠ 0

instance (v : BitVec 32 × BitVec 32) : Decidable (Held v) := inferInstanceAs (Decidable (_ ∨ _))

def IsLetter (ch : UInt8) : Prop := 'a'.toUInt8 ≤ ch ∧ ch ≤ 'z'.toUInt8

instance (ch : UInt8) : Decidable (IsLetter ch) := inferInstanceAs (Decidable (_ ∧ _))

/-- A key without Ctrl and Alt gives its second character: with shift, or with CapsLock instead if
it is a letter. -/
def Shifted (kb : Keyboard) (ch : UInt8) : Prop :=
  if IsLetter ch then (if Held kb.shiftDown then 1 else 0) ≠ kb.capslock else Held kb.shiftDown

instance (kb : Keyboard) (ch : UInt8) : Decidable (Shifted kb ch) :=
  inferInstanceAs (Decidable (if IsLetter ch then _ else _))

/-- The event a key stands for while the flags are `kb`. -/
def keyEvent (kb : Keyboard) (e : KeyEvent) : Option InputEvent :=
  if e.keydown = false ∨ (keymap e.keycode).1 = 0 then none
  else if Held kb.ctrlDown ∨ Held kb.altDown then
    some (event (if Held kb.ctrlDown then 1 else 0) (if Held kb.altDown then 1 else 0)
      (keymap e.keycode).1.toNat)
  else if Shifted kb (keymap e.keycode).1 then some (event 0 0 (keymap e.keycode).2.toNat)
  else some (event 0 0 (keymap e.keycode).1.toNat)

/-- The events of the keys `keys`, each with the flags that those before it left. -/
def keyEvents (kb : Keyboard) (keys : List KeyEvent) : List InputEvent :=
  (List.range keys.length).filterMap fun i =>
    keys[i]?.bind (keyEvent (keyboardAfter kb (keys.take i)))

section History

variable {kb : Keyboard} {keys : List KeyEvent} {e : KeyEvent} {v : BitVec 32} {k : Key}

theorem flagAfter_snoc : flagAfter v k (keys ++ [e]) =
    if e.keycode = k then (if e.keydown then 1 else 0) else flagAfter v k keys := by
  unfold flagAfter
  rw [List.filter_append]
  by_cases hk : e.keycode = k
  · simp [hk]
  · simp [hk]

theorem capslockAfter_snoc : capslockAfter v (keys ++ [e]) =
    if e.keydown ∧ e.keycode = .CAPSLOCK then capslockAfter v keys ^^^ 1
    else capslockAfter v keys := by
  unfold capslockAfter
  rw [List.countP_append, List.countP_singleton]
  simp only [decide_eq_true_eq]
  by_cases he : e.keydown ∧ e.keycode = .CAPSLOCK
  · rw [if_pos he, if_pos he]
    by_cases hp : (keys.countP fun e => e.keydown ∧ e.keycode = .CAPSLOCK) % 2 = 0
    · rw [if_pos hp, if_neg (by omega)]
    · rw [if_neg hp, if_pos (by omega), BitVec.xor_assoc, BitVec.xor_self, BitVec.xor_zero]
  · rw [if_neg he, if_neg he, Nat.add_zero]

theorem keyEvents_snoc : keyEvents kb (keys ++ [e]) =
    keyEvents kb keys ++ (keyEvent (keyboardAfter kb keys) e).toList := by
  unfold keyEvents
  rw [List.length_append, List.length_singleton, List.range_succ, List.filterMap_append]
  congr 1
  · apply List.filterMap_congr
    intro i hi
    have hlt := List.mem_range.1 hi
    rw [List.getElem?_append_left hlt, List.take_append_of_le_length (Nat.le_of_lt hlt)]
  · rw [List.filterMap_cons, List.filterMap_nil, List.getElem?_concat_length, List.take_left' rfl,
      Option.bind_some]
    cases keyEvent (keyboardAfter kb keys) e <;> rfl

end History

/-! ## What the code does -/

section Code

variable {kb : Keyboard} {keys : List KeyEvent} {e : KeyEvent}

theorem either_eq (v : BitVec 32 × BitVec 32) : either v = if Held v then 1 else 0 := rfl

theorem either_ne_zero (v : BitVec 32 × BitVec 32) : either v ≠ 0 ↔ Held v := by
  rw [either_eq]
  by_cases hv : Held v
  · simp [hv]
  · simp [hv]

theorem either_toNat (v : BitVec 32 × BitVec 32) :
    (either v).toNat = if Held v then 1 else 0 := by
  rw [either_eq]
  split <;> rfl

/-- Shift and CapsLock together. -/
theorem shift_ne_zero (ch : UInt8) : (if 'a'.toUInt8 ≤ ch ∧ ch ≤ 'z'.toUInt8 then
    either kb.shiftDown ^^^ kb.capslock else either kb.shiftDown) ≠ 0 ↔ Shifted kb ch := by
  unfold Shifted
  by_cases hl : 'a'.toUInt8 ≤ ch ∧ ch ≤ 'z'.toUInt8
  · rw [if_pos hl, if_pos (show IsLetter ch from hl), ← either_eq]
    exact BitVec.xor_eq_zero_iff.not
  · rw [if_neg hl, if_neg (show ¬ IsLetter ch from hl)]
    exact either_ne_zero _

/-- The keys with a flag. -/
def modifiers : List Key := [.CAPSLOCK, .LCTRL, .RCTRL, .LALT, .RALT, .LSHIFT, .RSHIFT]

/-- A key that is no modifier. -/
theorem inputKeydown_char (hd : e.keydown = true) (hk : e.keycode ∉ modifiers) :
    inputKeydown e kb = (kb, keyEvent kb e) := by
  simp only [modifiers, List.mem_cons, List.not_mem_nil, or_false, not_or] at hk
  unfold inputKeydown keyEvent
  rw [if_pos hd]
  split
  case h_8 =>
    simp only [either_ne_zero, shift_ne_zero, either_toNat, hd, Bool.true_eq_false, false_or]
    by_cases hch : (keymap e.keycode).1 = 0
    · rw [if_neg (not_not.2 hch), if_pos hch]
    · rw [if_pos hch, if_neg hch]
      split
      · rfl
      · split <;> rfl
  all_goals simp_all

theorem keyEvent_modifier (hk : e.keycode ∈ modifiers) : keyEvent kb e = none := by
  refine if_pos (Or.inr ?_)
  simp only [modifiers, List.mem_cons, List.not_mem_nil, or_false] at hk
  rcases hk with hk | hk | hk | hk | hk | hk | hk <;> rw [hk] <;> rfl

theorem keyEvent_up (hd : e.keydown = false) : keyEvent kb e = none := if_pos (Or.inl hd)

/-- One key: it changes no flag but its own, and gives its event. -/
theorem inputKeydown_eq (kb : Keyboard) (keys : List KeyEvent) (e : KeyEvent) :
    inputKeydown e (keyboardAfter kb keys) =
      (keyboardAfter kb (keys ++ [e]), keyEvent (keyboardAfter kb keys) e) := by
  cases hd : e.keydown with
  | true =>
      by_cases hk : e.keycode ∈ modifiers
      · rw [keyEvent_modifier hk]
        simp only [modifiers, List.mem_cons, List.not_mem_nil, or_false] at hk
        rcases hk with hk | hk | hk | hk | hk | hk | hk <;>
          simp [inputKeydown, keyboardAfter, flagAfter_snoc, capslockAfter_snoc, hd, hk]
      · rw [inputKeydown_char hd hk]
        simp only [modifiers, List.mem_cons, List.not_mem_nil, or_false, not_or] at hk
        simp [keyboardAfter, flagAfter_snoc, capslockAfter_snoc, hk]
  | false =>
      rw [keyEvent_up hd]
      unfold inputKeydown
      rw [if_neg (by simp [hd])]
      split <;> simp_all [keyboardAfter, flagAfter_snoc, capslockAfter_snoc]

/-- After any keys the flags are those of the last events, and every key gave the event it stands
for. -/
theorem inputKeydowns_eq (kb : Keyboard) (keys : List KeyEvent) :
    inputKeydowns kb keys = (keyboardAfter kb keys, keyEvents kb keys) := by
  unfold inputKeydowns
  induction keys using List.reverseRecOn with
  | nil => rfl
  | append_singleton keys e ih =>
      rw [List.foldl_append, List.foldl_cons, List.foldl_nil, ih, inputKeydown_eq, keyEvents_snoc]

/-- The table has characters of ASCII only, and with shift just where it has one without. -/
theorem keymap_ascii (k : Key) : (keymap k).1 < 128 ∧ (keymap k).2 < 128 ∧
    ((keymap k).1 ≠ 0 → (keymap k).2 ≠ 0) := by
  cases k <;> decide

/-- A key event carries a character. -/
theorem keyEvent_data {ev : InputEvent} (h : keyEvent kb e = some ev) :
    0 < ev.data.toNat ∧ ev.data.toNat < 128 := by
  have hdata : ∀ (ctrl alt : ℕ) (ch : UInt8), ch < 128 → ch ≠ 0 →
      0 < (event ctrl alt ch.toNat).data.toNat ∧ (event ctrl alt ch.toNat).data.toNat < 128 := by
    intro ctrl alt ch hlt hne
    have hlt' : ch.toNat < 128 := UInt8.lt_iff_toNat_lt.1 hlt
    have hpos : ch.toNat ≠ 0 := fun h0 => hne (UInt8.toNat_inj.1 h0)
    rw [event, BitVec.toNat_ofNat, Nat.mod_eq_of_lt (by omega)]
    omega
  rcases keymap_ascii e.keycode with ⟨hch, hsh, hne⟩
  unfold keyEvent at h
  split at h
  · cases h
  · rename_i hno
    rw [not_or] at hno
    split at h
    · rw [← Option.some.inj h]
      exact hdata _ _ _ hch hno.2
    · split at h
      · rw [← Option.some.inj h]
        exact hdata _ _ _ hsh (hne hno.2)
      · rw [← Option.some.inj h]
        exact hdata _ _ _ hch hno.2

end Code

end OsLab
