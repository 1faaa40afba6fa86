/-
The keyboard.

The interrupt handler turns a scancode into a character and puts it into a ring of 128 slots;
`get_key` takes it out.  When the ring is full the handler moves the reader's index as well, so the
oldest character is lost.  What the handler asks of the terminal is a list of calls beside it.
-/
import Eke.Kernel.Scrollback
import Eke.Lib.Bytes
import Eke.Lib.Queue
import Eke.Lib.Throughout

namespace Eke

/-- The static variables of `keyboard.cpp`. -/
structure Keyboard where
  key_buffer : Nat → Byte
  write_idx : Nat
  read_idx : Nat
  key_state : Nat → Bool
  scancode : Byte

namespace Keyboard

def KEY_UP : Byte := 0x80
def KEY_DOWN : Byte := 0x81
def KEY_LEFT : Byte := 0x82
def KEY_RIGHT : Byte := 0x83

/-- The first entries of a map of 128; the others are 0. -/
def scancodes (cs : List Char) (scancode : Byte) : Byte :=
  BitVec.ofNat 8 (cs.getD scancode.toNat '\x00').toNat

def scancode_map : Byte → Byte := scancodes
  ['\x00', '\x1b', '1', '2', '3', '4', '5', '6', '7', '8', '9', '0', '-', '=', '\x08',
    '\t', 'q', 'w', 'e', 'r', 't', 'y', 'u', 'i', 'o', 'p', '[', ']', '\n',
    '\x00', 'a', 's', 'd', 'f', 'g', 'h', 'j', 'k', 'l', ';', '\'', '\x60', '\x00',
    '\\', 'z', 'x', 'c', 'v', 'b', 'n', 'm', ',', '.', '/', '\x00', '*', '\x00', ' ']

def scancode_map_shift : Byte → Byte := scancodes
  ['\x00', '\x1b', '!', '@', '#', '$', '%', '^', '&', '*', '(', ')', '_', '+', '\x08',
    '\t', 'Q', 'W', 'E', 'R', 'T', 'Y', 'U', 'I', 'O', 'P', '\x7b', '\x7d', '\n',
    '\x00', 'A', 'S', 'D', 'F', 'G', 'H', 'J', 'K', 'L', ':', '"', '~', '\x00',
    '|', 'Z', 'X', 'C', 'V', 'B', 'N', 'M', '<', '>', '?', '\x00', '*', '\x00', ' ']

def is_ctrl_down (k : Keyboard) : Bool := k.key_state 0x1D || k.key_state 0x3A

def is_shift_down (k : Keyboard) : Bool := k.key_state 0x2A || k.key_state 0x36

/-- The character of a pressed key, or 0. -/
def decode (k : Keyboard) (scancode : Byte) : Byte :=
  if k.is_ctrl_down then
    let base := scancode_map scancode
    if 0x61 ≤ base ∧ base ≤ 0x7A then base - 0x61 + 1 else 0
  else if k.is_shift_down then scancode_map_shift scancode
  else
    let c := scancode_map scancode
    if c = 0 then
      if scancode = 0x48 then KEY_UP else if scancode = 0x50 then KEY_DOWN
      else if scancode = 0x4B then KEY_LEFT else if scancode = 0x4D then KEY_RIGHT else c
    else c

/-- A character goes into the buffer, over the oldest one if the buffer is full. -/
def enter (k : Keyboard) (c : Byte) : Keyboard :=
  let read_idx := if (k.write_idx + 1) % 128 = k.read_idx then (k.read_idx + 1) % 128 else k.read_idx
  { k with
    read_idx := read_idx
    key_buffer := Function.update k.key_buffer k.write_idx c
    write_idx := (k.write_idx + 1) % 128 }

/-- A key goes down: the scrolling keys move the view, the others are characters. -/
def key_down (k : Keyboard) (scancode : Byte) : Keyboard × List TtyCall :=
  if scancode = 0x49 then (k, [.scroll_up 5])
  else if scancode = 0x51 then (k, [.scroll_down 5])
  else if k.is_shift_down ∧ scancode = 0x48 then (k, [.scroll_up 1])
  else if k.is_shift_down ∧ scancode = 0x50 then (k, [.scroll_down 1])
  else if k.decode scancode ≠ 0 then (k.enter (k.decode scancode), [.scroll_reset])
  else (k, [])

def set_key (k : Keyboard) (i : Nat) (down : Bool) : Keyboard :=
  { k with key_state := Function.update k.key_state i down }

/-- The handler of the interrupt `int_no`, when `inb(0x60)` gives `port`. -/
def keyboard_handler (k : Keyboard) (int_no : Nat) (port : Byte) : Keyboard × List TtyCall :=
  if int_no = 33 then
    let k := { k with scancode := port }
    if 0x80 ≤ port then (k.set_key (port - 0x80).toNat false, [])
    else (k.set_key port.toNat true).key_down port
  else (k, [])

/-- What comes over the serial port; an escape sequence is an arrow key. -/
def serial_key : List Byte → Byte × List Byte
  | [] => (0, [])
  | 27 :: 91 :: c3 :: rest =>
      (if c3 = 65 then KEY_UP else if c3 = 66 then KEY_DOWN else if c3 = 67 then KEY_RIGHT
        else if c3 = 68 then KEY_LEFT else 27, rest)
  | 27 :: _ :: rest => (27, rest)
  | c :: rest => (if c = 13 then 10 else c, rest)

/-- `get_key`, with the bytes that are ready at the serial port. -/
def get_key (k : Keyboard) (serial : List Byte) : Byte × Keyboard × List Byte :=
  if k.read_idx ≠ k.write_idx then
    (k.key_buffer k.read_idx, { k with read_idx := (k.read_idx + 1) % 128 }, serial)
  else
    let (c, rest) := serial_key serial
    (c, k, rest)

/-! ### One step -/

/-- An interrupt, with what is at the keyboard's port then, or a call of `get_key`. -/
inductive Event where
  | interrupt (int_no : Nat) (port : Byte)
  | get_key

/-- The static variables at the start. -/
def start : Keyboard := ⟨fun _ => 0, 0, 0, fun _ => false, 0⟩

/-- Nothing comes over the serial port. -/
def next (k : Keyboard) : Event → Keyboard
  | .interrupt int_no port => (k.keyboard_handler int_no port).1
  | .get_key => (k.get_key []).2.1

/-- The keys that move the view. -/
def Scrolls (k : Keyboard) (scancode : Byte) : Prop :=
  scancode = 0x49 ∨ scancode = 0x51 ∨ k.is_shift_down ∧ (scancode = 0x48 ∨ scancode = 0x50)

instance (k : Keyboard) (scancode : Byte) : Decidable (k.Scrolls scancode) :=
  inferInstanceAs (Decidable (_ ∨ _ ∨ _))

/-- The state in which a pressed key is looked at. -/
def holding (k : Keyboard) (port : Byte) : Keyboard := { k with scancode := port }.set_key port.toNat true

/-- The character an interrupt gives, or 0. -/
def typed (k : Keyboard) (int_no : Nat) (port : Byte) : Byte :=
  if int_no = 33 ∧ port < 0x80 ∧ ¬ (k.holding port).Scrolls port then (k.holding port).decode port else 0

/-- The characters of an event that are pressed, and those that are returned. -/
def presses (k : Keyboard) : Event → List Byte
  | .interrupt int_no port => [k.typed int_no port].filter (· ≠ 0)
  | .get_key => []

def returns (k : Keyboard) : Event → List Byte
  | .interrupt _ _ => []
  | .get_key => [(k.get_key []).1].filter (· ≠ 0)

/-- The characters in the buffer. -/
def buffered (k : Keyboard) : List Byte := Queue.contents 128 k.key_buffer k.read_idx k.write_idx

/-- What holds between the events. -/
structure Valid (k : Keyboard) : Prop where
  read : k.read_idx < 128
  write : k.write_idx < 128
  nonzero : ∀ c ∈ k.buffered, c ≠ 0

variable {k : Keyboard} {c : Byte} {int_no : Nat} {port : Byte}

/-- The rest of the handler does not look at the buffer. -/
structure SameBuffer (k k' : Keyboard) : Prop where
  key_buffer : k'.key_buffer = k.key_buffer
  read_idx : k'.read_idx = k.read_idx
  write_idx : k'.write_idx = k.write_idx

theorem SameBuffer.buffered {k' : Keyboard} (h : SameBuffer k k') : k'.buffered = k.buffered := by
  unfold Keyboard.buffered
  rw [h.key_buffer, h.read_idx, h.write_idx]

theorem key_down_eq (k : Keyboard) (scancode : Byte) : (k.key_down scancode).1 =
    if k.Scrolls scancode ∨ k.decode scancode = 0 then k else k.enter (k.decode scancode) := by
  unfold key_down Scrolls
  split_ifs <;> first | rfl | grind

/-- The handler enters the character it decodes, if it decodes one. -/
theorem handler_cases (k : Keyboard) (int_no : Nat) (port : Byte) : ∃ k', SameBuffer k k' ∧
    (k.keyboard_handler int_no port).1 =
      if k.typed int_no port = 0 then k' else k'.enter (k.typed int_no port) := by
  unfold keyboard_handler
  by_cases hint : int_no = 33
  · rw [if_pos hint]
    rcases Nat.lt_or_ge port.toNat 128 with hlt | hge
    · have hup : ¬ (0x80 : Byte) ≤ port := fun h => Nat.not_lt.mpr (BitVec.le_def.mp h) hlt
      refine ⟨k.holding port, ⟨rfl, rfl, rfl⟩, (congrArg Prod.fst (if_neg hup)).trans ?_⟩
      show ((k.holding port).key_down port).1 = _
      rw [key_down_eq]
      by_cases hscroll : (k.holding port).Scrolls port
      · have hnone : k.typed int_no port = 0 := if_neg fun h => h.2.2 hscroll
        rw [hnone, if_pos (.inl hscroll), if_pos rfl]
      · have hsome : k.typed int_no port = (k.holding port).decode port :=
          if_pos ⟨hint, BitVec.lt_def.mpr hlt, hscroll⟩
        rw [hsome]
        exact if_congr (or_iff_right hscroll) rfl rfl
    · have hup : (0x80 : Byte) ≤ port := BitVec.le_def.mpr hge
      have hnone : k.typed int_no port = 0 := if_neg fun h => Nat.not_lt.mpr hge (BitVec.lt_def.mp h.2.1)
      refine ⟨{ k with scancode := port }.set_key (port - 0x80).toNat false, ⟨rfl, rfl, rfl⟩, ?_⟩
      rw [if_pos hnone]
      exact congrArg Prod.fst (if_pos hup)
  · have hnone : k.typed int_no port = 0 := if_neg fun h => hint h.1
    refine ⟨k, ⟨rfl, rfl, rfl⟩, ?_⟩
    rw [if_neg hint, if_pos hnone]

/-- A character that is entered is the last one in the buffer; the first is lost if there are 127. -/
theorem Valid.enter (h : k.Valid) (hc : c ≠ 0) : (k.enter c).Valid ∧
    (k.buffered.length < 127 ∧ (k.enter c).buffered = k.buffered ++ [c] ∨
      k.buffered.length = 127 ∧ (k.enter c).buffered = k.buffered.tail ++ [c]) := by
  have hwrite : (k.enter c).write_idx < 128 := Nat.mod_lt _ (by decide)
  have hnew : ∀ cs : List Byte, (∀ d ∈ cs, d ∈ k.buffered) → ∀ d ∈ cs ++ [c], d ≠ 0 := by
    intro cs hcs d hd
    rcases List.mem_append.mp hd with hd | hd
    · exact h.nonzero d (hcs d hd)
    · rwa [List.mem_singleton.mp hd]
  by_cases hfull : (k.write_idx + 1) % 128 = k.read_idx
  · have hread : (k.enter c).read_idx = (k.read_idx + 1) % 128 := if_pos hfull
    have hne : k.read_idx ≠ k.write_idx := by
      have hsucc := Queue.succ_mod h.write
      omega
    have hpop := @Queue.contents_pop Byte 128 _ _ k.key_buffer h.read h.write hne
    have hfree : (k.write_idx + 1) % 128 ≠ (k.read_idx + 1) % 128 := by
      rw [hfull, Queue.succ_mod h.read]
      split <;> omega
    have hbuffered : (k.enter c).buffered = k.buffered.tail ++ [c] := by
      unfold Keyboard.buffered
      rw [hread, hpop]
      exact Queue.contents_push (Nat.mod_lt _ (by decide)) h.write hfree
    refine ⟨⟨by rw [hread]; exact Nat.mod_lt _ (by decide), hwrite, ?_⟩, .inr ⟨?_, hbuffered⟩⟩
    · rw [hbuffered]
      exact hnew _ fun d hd => List.mem_of_mem_tail hd
    · exact Queue.contents_full h.read h.write hfull
  · have hread : (k.enter c).read_idx = k.read_idx := if_neg hfull
    have hbuffered : (k.enter c).buffered = k.buffered ++ [c] := by
      unfold Keyboard.buffered
      rw [hread]
      exact Queue.contents_push h.read h.write hfull
    refine ⟨⟨by rw [hread]; exact h.read, hwrite, ?_⟩, .inl ⟨?_, hbuffered⟩⟩
    · rw [hbuffered]
      exact hnew _ fun d hd => hd
    · exact Queue.contents_room h.read h.write hfull

/-- `get_key` takes the first character of the buffer. -/
theorem Valid.get_key (h : k.Valid) : (k.get_key []).2.1.Valid ∧
    (k.buffered = [] ∧ (k.get_key []).1 = 0 ∧ (k.get_key []).2.1.buffered = [] ∨
      (k.get_key []).1 ≠ 0 ∧ k.buffered = (k.get_key []).1 :: (k.get_key []).2.1.buffered) := by
  unfold Keyboard.get_key
  by_cases hne : k.read_idx ≠ k.write_idx
  · have hpop := @Queue.contents_pop Byte 128 _ _ k.key_buffer h.read h.write hne
    rw [if_pos hne]
    refine ⟨⟨Nat.mod_lt _ (by decide), h.write, fun c hc => h.nonzero c ?_⟩, .inr ⟨h.nonzero _ ?_, hpop⟩⟩
    · rw [Keyboard.buffered, hpop]
      exact List.mem_cons_of_mem _ hc
    · rw [Keyboard.buffered, hpop]
      exact List.mem_cons_self
  · have hempty := (@Queue.contents_nil Byte 128 _ _ k.key_buffer h.read h.write).mpr (not_not.mp hne)
    rw [if_neg hne]
    exact ⟨h, .inl ⟨hempty, rfl, hempty⟩⟩

/-! ### All steps -/

/-- What an event does to the buffer: a character pressed is the newest one, and the oldest is
dropped if there are 127 newer ones with it; `get_key` returns the oldest one, or 0 if there is none. -/
def Fifo (k : Keyboard) : Event → Prop
  | .interrupt int_no port =>
      let c := k.typed int_no port
      let k' := k.next (.interrupt int_no port)
      if c = 0 then k'.buffered = k.buffered
      else k.buffered.length < 127 ∧ k'.buffered = k.buffered ++ [c] ∨
        ∃ dropped newer, k.buffered = dropped :: newer ∧ (newer ++ [c]).length = 127 ∧
          k'.buffered = newer ++ [c]
  | .get_key =>
      let c := (k.get_key []).1
      let k' := k.next .get_key
      (c = 0 ↔ k.buffered = []) ∧ k.buffered = [c].filter (· ≠ 0) ++ k'.buffered

/-- The characters pressed in a run, and those returned. -/
def pressed : Keyboard → List Event → List Byte
  | _, [] => []
  | k, e :: es => k.presses e ++ pressed (k.next e) es

def returned : Keyboard → List Event → List Byte
  | _, [] => []
  | k, e :: es => k.returns e ++ returned (k.next e) es

theorem one_nonzero (hc : c ≠ 0) : [c].filter (· ≠ 0) = [c] :=
  List.filter_cons_of_pos (p := fun d : Byte => decide (d ≠ 0)) (decide_eq_true hc)

theorem SameBuffer.valid {k' : Keyboard} (hsame : SameBuffer k k') (h : k.Valid) : k'.Valid := by
  refine ⟨?_, ?_, ?_⟩
  · rw [hsame.read_idx]
    exact h.read
  · rw [hsame.write_idx]
    exact h.write
  · rw [hsame.buffered]
    exact h.nonzero

theorem Valid.step (h : k.Valid) (e : Event) : (k.next e).Valid ∧ k.Fifo e := by
  cases e with
  | interrupt int_no port =>
      obtain ⟨k', hsame, hrun⟩ := handler_cases k int_no port
      have hvalid := hsame.valid h
      unfold Fifo
      simp only [next]
      by_cases hzero : k.typed int_no port = 0
      · rw [if_pos hzero] at hrun
        rw [hrun, if_pos hzero]
        exact ⟨hvalid, hsame.buffered⟩
      · rw [if_neg hzero] at hrun
        obtain ⟨hnext, hpush⟩ := hvalid.enter hzero
        rw [hsame.buffered] at hpush
        rw [hrun, if_neg hzero]
        refine ⟨hnext, hpush.imp_right fun ⟨hfull, hlast⟩ => ?_⟩
        cases hbuffered : k.buffered with
        | nil =>
            rw [hbuffered] at hfull
            cases hfull
        | cons dropped newer =>
            rw [hbuffered] at hfull hlast
            refine ⟨dropped, newer, rfl, ?_, hlast⟩
            rw [List.length_append]
            exact hfull
  | get_key =>
      obtain ⟨hnext, hcases⟩ := h.get_key
      refine ⟨hnext, ?_⟩
      unfold Fifo
      simp only [next]
      rcases hcases with ⟨hempty, hzero, hrest⟩ | ⟨hne, hcons⟩
      · rw [hempty, hzero, hrest]
        exact ⟨iff_of_true rfl rfl, rfl⟩
      · rw [one_nonzero hne, hcons]
        exact ⟨iff_of_false hne (List.cons_ne_nil _ _), rfl⟩

/-- What was returned and what is in the buffer was pressed, in this order. -/
theorem Valid.sublist : ∀ {es : List Event} {k : Keyboard}, k.Valid → Throughout next Fifo k es ∧
    (returned k es ++ (es.foldl next k).buffered).Sublist (k.buffered ++ pressed k es) := by
  intro es
  induction es with
  | nil =>
      intro k _
      refine ⟨trivial, ?_⟩
      rw [pressed, List.append_nil]
      exact List.Sublist.refl _
  | cons e es ih =>
      intro k h
      obtain ⟨hnext, hstep⟩ := h.step e
      obtain ⟨hrun, hsub⟩ := ih hnext
      refine ⟨⟨hstep, hrun⟩, ?_⟩
      rw [returned, pressed, List.append_assoc, List.foldl_cons]
      cases e with
      | interrupt int_no port =>
          have hpush : (k.next (.interrupt int_no port)).buffered.Sublist
              (k.buffered ++ k.presses (.interrupt int_no port)) := by
            unfold Fifo at hstep
            simp only at hstep
            by_cases hzero : k.typed int_no port = 0
            · rw [if_pos hzero] at hstep
              rw [hstep]
              exact List.sublist_append_left _ _
            · have hone : k.presses (.interrupt int_no port) = [k.typed int_no port] :=
                one_nonzero hzero
              rw [if_neg hzero] at hstep
              rw [hone]
              rcases hstep with ⟨-, hlast⟩ | ⟨dropped, newer, hcons, -, hlast⟩
              · rw [hlast]
              · rw [hlast, hcons]
                exact List.sublist_cons_self _ _
          have hboth := hsub.trans (hpush.append_right _)
          rwa [List.append_assoc] at hboth
      | get_key =>
          have hpop : k.buffered = k.returns .get_key ++ (k.next .get_key).buffered := hstep.2
          rw [hpop, List.append_assoc]
          exact hsub.append_left _

/-- **The keyboard buffer.**  In every run each event does to the buffer what it does to a queue of the
127 newest characters, and what has been returned, with what is left, was pressed in this order. -/
theorem keyboard_fifo (es : List Event) : Throughout next Fifo start es ∧
    (returned start es ++ (es.foldl next start).buffered).Sublist (pressed start es) :=
  Valid.sublist ⟨by decide, by decide, nofun⟩

end Keyboard

end Eke
