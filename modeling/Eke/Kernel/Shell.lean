/-
The command line.

`shell_task` keeps the line that is typed, the last commands and, while the user walks through them,
the line that was typed before; all of them are C strings in arrays of 128 bytes.  The loops that
copy them read up to the zero, so a step has a value only where there is one: that is part of what
`Stands` says, which relates the arrays to a `Prompt` of lists.  What the commands themselves do to
the terminal is a parameter.
-/
import Eke.Kernel.Keyboard
import Eke.Lib.CStrings
import Eke.Lib.Prog

namespace Eke

open CString Prog

/-- `terminal_writestring` -/
def Tty.puts (s : Tty) (cs : List Byte) : Tty := cs.foldl Tty.terminal_putchar s

def LINE_SIZE : Nat := 128

def SHELL_HIST_MAX : Nat := 16

/-- The local variables of `shell_task` and the static ones beside it. -/
structure Shell where
  line : Nat → Byte
  pos : Nat
  shell_history : Nat → Nat → Byte
  shell_hist_count : Nat
  shell_hist_browse : Int
  shell_draft : Nat → Byte
  tty : Tty

/-- What the commands of the table, an unknown one among them, and `cmd_run` do to the terminal. -/
structure Commands where
  handler : (cmd_name args : List Byte) → Tty → Tty
  cmd_run : (args : List Byte) → Tty → Tty

namespace Shell

/-- What reads behind an array is not defined. -/
def ofOption {α : Type} : Option α → Prog Shell α
  | some a => pure a
  | none => undefined

def terminal_putchar (c : Byte) : Prog Shell Unit :=
  update fun s => { s with tty := s.tty.terminal_putchar c }

/-- `kprintf` of a text without conversions. -/
def kprintf (cs : List Byte) : Prog Shell Unit := update fun s => { s with tty := s.tty.puts cs }

/-- `line[i] = c` -/
def setLine (i : Nat) (c : Byte) : Prog Shell Unit :=
  if i < LINE_SIZE then update fun s => { s with line := Function.update s.line i c } else undefined

/-- `shell_history[h]` -/
def entry (h : Int) : Prog Shell (Nat → Byte) :=
  if 0 ≤ h ∧ h < SHELL_HIST_MAX then gets fun s => s.shell_history h.toNat else undefined

/-- `str_copy(shell_history[h], src)` -/
def copyEntry (h : Nat) (src : Nat → Byte) : Prog Shell Unit := do
  let dest ← entry h
  let a ← ofOption (copyFrom src LINE_SIZE 0 dest)
  update fun s => { s with shell_history := Function.update s.shell_history h a }

/-- `while (pos > 0) { terminal_putchar('\b'); pos--; }` -/
def erase : Nat → Prog Shell Unit
  | 0 => pure ()
  | pos + 1 => do
      terminal_putchar 0x08
      update fun s => { s with pos := pos }
      erase pos

/-- A round of the loop that puts an earlier line into the buffer. -/
def fillRound (hist_cmd : Nat → Byte) (i : Nat) : Prog Shell (Nat ⊕ Unit) := do
  let pos ← gets pos
  if i < LINE_SIZE then
    if hist_cmd i ≠ 0 ∧ pos < 127 then do
      setLine pos (hist_cmd i)
      update fun s => { s with pos := pos + 1 }
      terminal_putchar (hist_cmd i)
      pure (.inl (i + 1))
    else pure (.inr ())
  else undefined

/-- The line is erased, and another one takes its place. -/
def retype (hist_cmd : Nat → Byte) : Prog Shell Unit := do
  let pos ← gets pos
  erase pos
  cycle (LINE_SIZE + 1) (fillRound hist_cmd) 0
  let pos ← gets Shell.pos
  setLine pos 0

/-- The line is kept in `shell_draft`. -/
def save_draft : Prog Shell Unit := do
  let pos ← gets pos
  setLine pos 0
  let line ← gets line
  let draft ← gets shell_draft
  let a ← ofOption (copyFrom line LINE_SIZE 0 draft)
  update fun s => { s with shell_draft := a }

/-- The walk starts at the last entry, or goes to the one before. -/
def step_back : Prog Shell Unit := do
  let count ← gets shell_hist_count
  let browse ← gets shell_hist_browse
  if browse = -1 then do
    save_draft
    update fun s => { s with shell_hist_browse := count - 1 }
  else if 0 < browse then update fun s => { s with shell_hist_browse := browse - 1 }
  else pure ()

/-- The entry the walk is at takes the place of the line. -/
def show_entry : Prog Shell Unit := do
  let browse ← gets shell_hist_browse
  let hist_cmd ← entry browse
  retype hist_cmd

def key_up : Prog Shell Unit := do
  let count ← gets shell_hist_count
  if 0 < count then do
    step_back
    show_entry
  else pure ()

def key_down : Prog Shell Unit := do
  let browse ← gets shell_hist_browse
  if browse ≠ -1 then do
    let count ← gets shell_hist_count
    if browse < count - 1 then do
      update fun s => { s with shell_hist_browse := browse + 1 }
      show_entry
    else do
      update fun s => { s with shell_hist_browse := -1 }
      let draft ← gets shell_draft
      retype draft
  else pure ()

/-- The line is the last entry. -/
def is_last : Prog Shell Bool := do
  let count ← gets shell_hist_count
  if count = 0 then pure false
  else do
    let line ← gets line
    let last ← entry (count - 1)
    ofOption (eqFrom line last LINE_SIZE 0)

/-- The line goes into the history, unless it is the last one there. -/
def record : Prog Shell Unit := do
  let known ← is_last
  if known = true then pure ()
  else do
    let count ← gets shell_hist_count
    let line ← gets line
    if count < SHELL_HIST_MAX then do
      copyEntry count line
      update fun s => { s with shell_hist_count := count + 1 }
    else do
      forUp 0 (SHELL_HIST_MAX - 1) fun h => do
        let next ← entry (h + 1)
        copyEntry h.toNat next
      copyEntry (SHELL_HIST_MAX - 1) line

/-- `' '` -/
def BLANK : Byte := 0x20

/-- The rest of `shell_execute`: a command ends at its first space, which becomes a zero. -/
def dispatch (commands : Commands) (start : Nat) : Prog Shell Unit := do
  let line ← gets line
  let stop ← ofOption (findFrom line BLANK (LINE_SIZE - start) start)
  if line stop = BLANK then do
    setLine stop 0
    let line ← gets Shell.line
    let first ← ofOption (skipFrom line BLANK (LINE_SIZE - (stop + 1)) (stop + 1))
    let name ← ofOption (textFrom line (LINE_SIZE - start) start)
    let args ← ofOption (textFrom line (LINE_SIZE - first) first)
    update fun s => { s with tty := commands.handler name args s.tty }
  else do
    let name ← ofOption (textFrom line (LINE_SIZE - start) start)
    update fun s => { s with tty := commands.handler name [] s.tty }

def shell_execute (commands : Commands) : Prog Shell Unit := do
  let line ← gets line
  let start ← ofOption (skipFrom line BLANK LINE_SIZE 0)
  if line start = 0 then pure ()
  else if line start = 0x2E ∧ line (start + 1) = 0x2F then do
    let args ← ofOption (textFrom line (LINE_SIZE - (start + 2)) (start + 2))
    update fun s => { s with tty := commands.cmd_run args s.tty }
  else dispatch commands start

/-- `"eke> "` -/
def PROMPT : List Byte := [0x65, 0x6B, 0x65, 0x3E, 0x20]

/-- `pos = 0`, with an empty line, no entry and an empty draft. -/
def fresh_line : Prog Shell Unit := do
  update fun s => { s with pos := 0 }
  setLine 0 0
  update fun s => { s with shell_hist_browse := -1, shell_draft := Function.update s.shell_draft 0 0 }

/-- A line with something in it is recorded and executed. -/
def submit (commands : Commands) (pos : Nat) : Prog Shell Unit :=
  if 0 < pos then do
    record
    update fun s => { s with shell_hist_browse := -1, shell_draft := Function.update s.shell_draft 0 0 }
    shell_execute commands
  else pure ()

def enter (commands : Commands) : Prog Shell Unit := do
  let pos ← gets pos
  setLine pos 0
  kprintf [0x0A]
  submit commands pos
  fresh_line
  kprintf PROMPT

def backspace : Prog Shell Unit := do
  let pos ← gets pos
  if 0 < pos then do
    update fun s => { s with pos := pos - 1 }
    setLine (pos - 1) 0
    terminal_putchar 0x08
  else pure ()

def type (c : Byte) : Prog Shell Unit := do
  let pos ← gets pos
  if pos < 127 then do
    setLine pos c
    update fun s => { s with pos := pos + 1 }
    setLine (pos + 1) 0
    terminal_putchar c
  else pure ()

/-- What `get_key` returned; 0 is no key. -/
def key (commands : Commands) (c : Byte) : Prog Shell Unit :=
  if c = 0 then pure ()
  else if c = 0x03 then do
    fresh_line
    kprintf (0x5E :: 0x43 :: 0x0A :: PROMPT)
  else if c = Keyboard.KEY_UP then key_up
  else if c = Keyboard.KEY_DOWN then key_down
  else if c = 0x0A then enter commands
  else if c = 0x08 then backspace
  else if 0x20 ≤ c ∧ c ≤ 0x7E then type c
  else pure ()

def keys (commands : Commands) : List Byte → Prog Shell Unit
  | [] => pure ()
  | c :: cs => do
      key commands c
      keys commands cs

/-- `"Welcome to OSig:EKE!\n"` -/
def WELCOME : List Byte := [0x57, 0x65, 0x6C, 0x63, 0x6F, 0x6D, 0x65, 0x20, 0x74, 0x6F, 0x20, 0x4F, 0x53,
  0x69, 0x67, 0x3A, 0x45, 0x4B, 0x45, 0x21, 0x0A]

/-- The shell in front of its first key, whatever was in the array for the line. -/
def start (line : Nat → Byte) (tty : Tty) : Shell where
  line := Function.update line 0 0
  pos := 0
  shell_history := fun _ _ => 0
  shell_hist_count := 0
  shell_hist_browse := -1
  shell_draft := fun _ => 0
  tty := (tty.puts WELCOME).puts PROMPT

end Shell

/-! ### The command line as lists -/

/-- The line, the commands that can be called back, the one that is shown and the line it replaced. -/
structure Prompt where
  line : List Byte
  history : List (List Byte)
  browse : Option Nat
  draft : List Byte

namespace Prompt

/-- The last commands, with another one. -/
def recorded (history : List (List Byte)) (line : List Byte) : List (List Byte) :=
  if history.getLast? = some line then history else lastOf SHELL_HIST_MAX (history ++ [line])

def fresh (p : Prompt) : Prompt := { p with line := [], browse := none, draft := [] }

/-- Entry `k` takes the place of the line. -/
def called (p : Prompt) (k : Nat) : Prompt := { p with line := p.history.getD k [], browse := some k }

def up (p : Prompt) : Prompt :=
  if p.history = [] then p
  else
    match p.browse with
    | none => { p with draft := p.line }.called (p.history.length - 1)
    | some k => p.called (k - 1)

def down (p : Prompt) : Prompt :=
  match p.browse with
  | none => p
  | some k =>
      if k + 1 < p.history.length then p.called (k + 1)
      else { p with line := p.draft, browse := none }

def enter (p : Prompt) : Prompt :=
  if p.line = [] then p.fresh else { p with history := recorded p.history p.line }.fresh

def type (p : Prompt) (c : Byte) : Prompt :=
  if p.line.length < 127 then { p with line := p.line ++ [c] } else p

def key (p : Prompt) (c : Byte) : Prompt :=
  if c = 0 then p
  else if c = 0x03 then p.fresh
  else if c = Keyboard.KEY_UP then p.up
  else if c = Keyboard.KEY_DOWN then p.down
  else if c = 0x0A then p.enter
  else if c = 0x08 then { p with line := p.line.dropLast }
  else if 0x20 ≤ c ∧ c ≤ 0x7E then p.type c
  else p

theorem key_type (p : Prompt) {c : Byte} (h : 0x20 ≤ c ∧ c ≤ 0x7E) : p.key c = p.type c := by
  have hne : ∀ d : Byte, ¬ (0x20 ≤ d ∧ d ≤ 0x7E) → c ≠ d := fun d hd heq => hd (heq ▸ h)
  unfold key
  rw [if_neg (hne 0 (by decide)), if_neg (hne 0x03 (by decide)), if_neg (hne Keyboard.KEY_UP (by decide)),
    if_neg (hne Keyboard.KEY_DOWN (by decide)), if_neg (hne 0x0A (by decide)),
    if_neg (hne 0x08 (by decide)), if_pos h]

/-- What is true after each kind of key is true after a key. -/
theorem key_cases {motive : Byte → Prompt → Prop} (p : Prompt) (idle : ∀ c, c ≠ 0x0A → motive c p)
    (cancel : motive 0x03 p.fresh) (up : motive Keyboard.KEY_UP p.up)
    (down : motive Keyboard.KEY_DOWN p.down) (enter : motive 0x0A p.enter)
    (backspace : motive 0x08 { p with line := p.line.dropLast })
    (type : ∀ c, 0x20 ≤ c ∧ c ≤ 0x7E → motive c (p.type c)) (c : Byte) : motive c (p.key c) := by
  by_cases hprintable : 0x20 ≤ c ∧ c ≤ 0x7E
  · rw [p.key_type hprintable]
    exact type c hprintable
  by_cases hcancel : c = 0x03
  · rw [hcancel]
    exact cancel
  by_cases hup : c = Keyboard.KEY_UP
  · rw [hup]
    exact up
  by_cases hdown : c = Keyboard.KEY_DOWN
  · rw [hdown]
    exact down
  by_cases henter : c = 0x0A
  · rw [henter]
    exact enter
  by_cases hback : c = 0x08
  · rw [hback]
    exact backspace
  have hkey : p.key c = p := by
    unfold key
    rw [if_neg hcancel, if_neg hup, if_neg hdown, if_neg henter, if_neg hback, if_neg hprintable, ite_self]
  rw [hkey]
  exact idle c henter

/-- What erasing a line and typing another one sends to the terminal. -/
def retyped (before after : List Byte) : List Byte := List.replicate before.length 0x08 ++ after

/-- What a key sends to the terminal, if it is not Enter. -/
def echo (p : Prompt) (c : Byte) : List Byte :=
  if c = 0 then []
  else if c = 0x03 then 0x5E :: 0x43 :: 0x0A :: Shell.PROMPT
  else if c = Keyboard.KEY_UP then if p.history = [] then [] else retyped p.line p.up.line
  else if c = Keyboard.KEY_DOWN then if p.browse = none then [] else retyped p.line p.down.line
  else if c = 0x08 then if p.line = [] then [] else [0x08]
  else if 0x20 ≤ c ∧ c ≤ 0x7E then if p.line.length < 127 then [c] else []
  else []

/-- What holds between the keys. -/
structure Valid (p : Prompt) : Prop where
  count : p.history.length ≤ SHELL_HIST_MAX
  browse : ∀ k, p.browse = some k → k < p.history.length

end Prompt

namespace Shell

/-- `shell_hist_browse` -/
def browseIndex : Option Nat → Int
  | none => -1
  | some k => k

@[simp] theorem browseIndex_none : browseIndex none = -1 := rfl

@[simp] theorem browseIndex_some (k : Nat) : browseIndex (some k) = k := rfl

/-- The arrays hold the lists. -/
structure Stands (s : Shell) (p : Prompt) : Prop where
  pos : s.pos = p.line.length
  line : Holds LINE_SIZE s.line p.line
  count : s.shell_hist_count = p.history.length
  entries : ∀ k (h : k < p.history.length), Holds LINE_SIZE (s.shell_history k) p.history[k]
  browse : s.shell_hist_browse = browseIndex p.browse
  draft : Holds LINE_SIZE s.shell_draft p.draft
  valid : p.Valid

variable {s : Shell} {p : Prompt} {commands : Commands} {c : Byte} {i n : Nat} {l : List Byte}
  {a : Nat → Byte}

theorem setLine_ok (h : i < LINE_SIZE) :
    setLine i c s = .ok () { s with line := Function.update s.line i c } := by
  unfold setLine
  rw [if_pos h]
  rfl

@[simp] theorem bind_ofOption {α β : Type} {x : α} {k : α → Prog Shell β} :
    (ofOption (some x) >>= k) s = k x s := rfl

theorem entry_ok {h : Int} (h0 : 0 ≤ h) (h16 : h < SHELL_HIST_MAX) :
    entry h s = .ok (s.shell_history h.toNat) s := by
  unfold entry
  rw [if_pos ⟨h0, h16⟩]
  rfl

/-! ### Erasing and typing -/

theorem erase_ok : ∀ {n : Nat} {s : Shell}, s.pos = n → erase n s =
    .ok () { s with pos := 0, tty := s.tty.puts (List.replicate n 0x08) } := by
  intro n
  induction n with
  | zero =>
      intro s h
      cases s
      cases h
      rfl
  | succ n ih =>
      intro s _
      exact @ih { s with tty := s.tty.terminal_putchar 0x08, pos := n } rfl

theorem fill_ok (h : Holds LINE_SIZE a l) : ∀ {n i : Nat} {s : Shell}, s.pos = i → i ≤ l.length →
    l.length < i + n → (∀ k, k < i → s.line k = a k) → ∃ b, cycle n (fillRound a) i s =
      .ok () { s with line := b, pos := l.length, tty := s.tty.puts (l.drop i) } ∧
        (∀ k, k < l.length → b k = a k) ∧ ∀ k, l.length ≤ k → b k = s.line k := by
  have hroom := h.room
  unfold LINE_SIZE at hroom
  intro n
  induction n with
  | zero =>
      intro i s _ hle hlt _
      omega
  | succ n ih =>
      intro i s hpos hle hfuel hdone
      rcases Nat.lt_or_eq_of_le hle with hlt | heq
      · have hround : fillRound a i s = .ok (.inl (i + 1)) { s with
            line := Function.update s.line i (a i)
            pos := i + 1
            tty := s.tty.terminal_putchar (a i) } := by
          unfold fillRound
          rw [bind_gets, hpos, if_pos (show i < LINE_SIZE by unfold LINE_SIZE; omega),
            if_pos ⟨h.char_ne hlt, by omega⟩, bind_of_ok (setLine_ok (by unfold LINE_SIZE; omega))]
          rfl
        obtain ⟨b, hrun, hb, hrest⟩ := ih (i := i + 1) (s := { s with
            line := Function.update s.line i (a i)
            pos := i + 1
            tty := s.tty.terminal_putchar (a i) }) rfl hlt (by omega) fun k hk => by
          rcases Nat.lt_succ_iff_lt_or_eq.mp hk with hlt | rfl
          · exact (Function.update_of_ne (Nat.ne_of_lt hlt) _ _).trans (hdone k hlt)
          · exact Function.update_self ..
        refine ⟨b, ?_, hb, fun k hk => ?_⟩
        · rw [cycle_next hround, hrun, List.drop_eq_getElem_cons hlt, ← h.chars i hlt]
          rfl
        · exact (hrest k hk).trans (Function.update_of_ne (by omega) _ _)
      · have hround : fillRound a i s = .ok (.inr ()) s := by
          unfold fillRound
          rw [bind_gets, if_pos (show i < LINE_SIZE by unfold LINE_SIZE; omega), heq,
            if_neg fun hgo => hgo.1 h.stop]
          rfl
        refine ⟨s.line, ?_, fun k hk => hdone k (by omega), fun _ _ => rfl⟩
        rw [cycle_stop hround, heq, List.drop_length, ← heq, ← hpos]
        rfl

/-- The line is replaced by the string in `a`; what is behind its end stays. -/
theorem retype_ok (h : Holds LINE_SIZE a l) (s : Shell) : ∃ b, Holds LINE_SIZE b l ∧
    (∀ k, l.length < k → b k = s.line k) ∧ retype a s = .ok () { s with
      line := b
      pos := l.length
      tty := s.tty.puts (List.replicate s.pos 0x08 ++ l) } := by
  obtain ⟨b, hrun, hb, hrest⟩ := fill_ok h (n := LINE_SIZE + 1) (i := 0)
    (s := { s with pos := 0, tty := s.tty.puts (List.replicate s.pos 0x08) }) rfl (Nat.zero_le _)
    (by have := h.room; omega) nofun
  refine ⟨Function.update b l.length 0, ⟨h.room, h.nonzero, fun k hk => ?_, Function.update_self ..⟩,
    fun k hk => ?_, ?_⟩
  · rw [Function.update_of_ne (Nat.ne_of_lt hk), hb k hk]
    exact h.chars k hk
  · rw [Function.update_of_ne (Nat.ne_of_gt hk), hrest k (Nat.le_of_lt hk)]
  · unfold retype
    rw [bind_gets, bind_of_ok (erase_ok rfl), bind_of_ok hrun, bind_gets, setLine_ok h.room]
    unfold Tty.puts
    rw [List.foldl_append]
    rfl

/-- A line that takes its own place. -/
theorem retype_same (h : Holds LINE_SIZE a l) (hline : Holds LINE_SIZE s.line l) (hpos : s.pos = l.length) :
    ∃ tty, retype a s = .ok () { s with tty := tty } := by
  obtain ⟨b, hb, hrest, hrun⟩ := retype_ok h s
  have hsame : b = s.line := by
    funext k
    rcases Nat.lt_trichotomy k l.length with hlt | rfl | hgt
    · rw [hb.chars k hlt, hline.chars k hlt]
    · rw [hb.stop, hline.stop]
    · exact hrest k hgt
  refine ⟨s.tty.puts (List.replicate s.pos 0x08 ++ l), ?_⟩
  rw [hrun, hsame, ← hpos]

theorem fresh_line_ok (s : Shell) : fresh_line s = .ok () { s with
    line := Function.update s.line 0 0
    pos := 0
    shell_hist_browse := -1
    shell_draft := Function.update s.shell_draft 0 0 } := rfl

/-! ### Keys in the line -/

theorem Stands.fresh (h : Stands s p) (tty : Tty) : Stands { s with
    line := Function.update s.line 0 0
    pos := 0
    shell_hist_browse := -1
    shell_draft := Function.update s.shell_draft 0 0
    tty := tty } p.fresh :=
  ⟨rfl, .nil (by decide) (Function.update_self 0 0 s.line), h.count, h.entries, rfl,
    .nil (by decide) (Function.update_self 0 0 s.shell_draft), ⟨h.valid.count, nofun⟩⟩

/-- A new line in place of the old one. -/
theorem Stands.line_to (h : Stands s p) {b : Nat → Byte} (hb : Holds LINE_SIZE b l) (tty : Tty) :
    Stands { s with line := b, pos := l.length, tty := tty } { p with line := l } :=
  ⟨rfl, hb, h.count, h.entries, h.browse, h.draft, ⟨h.valid.count, h.valid.browse⟩⟩

/-- The terminal can be written to. -/
theorem Stands.print (h : Stands s p) (tty : Tty) : Stands { s with tty := tty } p :=
  ⟨h.pos, h.line, h.count, h.entries, h.browse, h.draft, h.valid⟩

theorem kprintf_ok (cs : List Byte) (s : Shell) :
    kprintf cs s = .ok () { s with tty := s.tty.puts cs } := rfl

theorem cancel_ok (h : Stands s p) (cs : List Byte) :
    ∃ s', (fresh_line >>= fun _ => kprintf cs) s = .ok () s' ∧ Stands s' p.fresh ∧
      s'.tty = s.tty.puts cs :=
  ⟨_, (bind_of_ok (fresh_line_ok s)).trans (kprintf_ok cs _), h.fresh _, rfl⟩

theorem backspace_ok (h : Stands s p) : ∃ s', backspace s = .ok () s' ∧
    Stands s' { p with line := p.line.dropLast } ∧
      s'.tty = s.tty.puts (if p.line = [] then [] else [0x08]) := by
  have hpos := h.pos
  have hroom := h.line.room
  unfold backspace
  rw [bind_gets]
  by_cases hnil : p.line = []
  · rw [hnil] at hpos
    rw [if_neg (by rw [hpos]; exact Nat.lt_irrefl 0), if_pos hnil]
    refine ⟨s, rfl, ?_, rfl⟩
    rwa [hnil, List.dropLast_nil, ← hnil]
  · have hlen : 0 < p.line.length := List.length_pos_iff.mpr hnil
    have hline := h.line.take (Nat.sub_le p.line.length 1)
    rw [if_pos (by omega), if_neg hnil, bind_update, bind_of_ok (setLine_ok (by omega)), hpos]
    refine ⟨_, rfl, ?_, rfl⟩
    have hstands := h.line_to hline (s.tty.terminal_putchar 0x08)
    rw [← List.dropLast_eq_take, List.length_dropLast] at hstands
    exact hstands

theorem type_ok (h : Stands s p) (hc : c ≠ 0) : ∃ s', type c s = .ok () s' ∧ Stands s' (p.type c) ∧
    s'.tty = s.tty.puts (if p.line.length < 127 then [c] else []) := by
  have hpos := h.pos
  unfold type Prompt.type
  rw [bind_gets, hpos]
  by_cases hlt : p.line.length < 127
  · have hline := h.line.push (show p.line.length + 1 < LINE_SIZE by unfold LINE_SIZE; omega) hc
    rw [if_pos hlt, if_pos hlt, if_pos hlt, bind_of_ok (setLine_ok (by unfold LINE_SIZE; omega)),
      bind_update, bind_of_ok (setLine_ok (by unfold LINE_SIZE; omega))]
    refine ⟨_, rfl, ?_, rfl⟩
    have hstands := h.line_to hline (s.tty.terminal_putchar c)
    rw [List.length_append] at hstands
    exact hstands
  · rw [if_neg hlt, if_neg hlt, if_neg hlt]
    exact ⟨s, rfl, h, rfl⟩

/-! ### The arrow keys -/

theorem save_draft_ok (h : Stands s p) : ∃ d, Holds LINE_SIZE d p.line ∧
    save_draft s = .ok () { s with shell_draft := d } := by
  obtain ⟨d, hcopy, hd⟩ := h.line.copy s.shell_draft
  have hzero : Function.update s.line p.line.length 0 = s.line := by
    rw [← h.line.stop, Function.update_eq_self]
  have hset : setLine s.pos 0 s = .ok () s := by
    rw [h.pos, setLine_ok h.line.room, hzero]
  refine ⟨d, hd, ?_⟩
  unfold save_draft
  rw [bind_gets, bind_of_ok hset, bind_gets, bind_gets, hcopy]
  rfl

/-- The walk has come to entry `k`; the terminal still shows the line. -/
theorem Stands.at (h : Stands s p) {k : Nat} (hk : k < p.history.length) {d : Nat → Byte}
    (hd : Holds LINE_SIZE d l) : Stands { s with shell_hist_browse := k, shell_draft := d }
      { p with browse := some k, draft := l } := by
  refine ⟨h.pos, h.line, h.count, h.entries, rfl, hd, ⟨h.valid.count, fun j hj => ?_⟩⟩
  obtain rfl := Option.some.inj hj
  exact hk

theorem show_entry_ok (h : Stands s p) {k : Nat} (hbrowse : p.browse = some k) :
    ∃ s', show_entry s = .ok () s' ∧ Stands s' (p.called k) ∧
      s'.tty = s.tty.puts (Prompt.retyped p.line (p.called k).line) := by
  have hk := h.valid.browse k hbrowse
  have hcount := h.valid.count
  have hindex : s.shell_hist_browse = k := by rw [h.browse, hbrowse]; rfl
  have hentry : p.history.getD k [] = p.history[k] := List.getD_eq_getElem _ _ hk
  have hread : entry k s = .ok (s.shell_history k) s := entry_ok (by omega) (by omega)
  obtain ⟨a, ha, -, hrun⟩ := retype_ok (h.entries k hk) s
  have hshow : show_entry s = retype (s.shell_history k) s := by
    unfold show_entry
    rw [bind_gets, hindex, bind_of_ok hread]
  refine ⟨_, hshow.trans hrun, ?_, ?_⟩
  · unfold Prompt.called
    rw [hentry, ← hbrowse]
    exact h.line_to ha _
  · show s.tty.puts (List.replicate s.pos 0x08 ++ p.history[k]) = _
    rw [h.pos, ← hentry]
    rfl

theorem key_up_ok (h : Stands s p) : ∃ s', key_up s = .ok () s' ∧ Stands s' p.up ∧
    s'.tty = s.tty.puts (if p.history = [] then [] else Prompt.retyped p.line p.up.line) := by
  have hcount := h.count
  unfold key_up Prompt.up
  rw [bind_gets]
  by_cases hnil : p.history = []
  · rw [hnil] at hcount
    rw [if_neg (by rw [hcount]; exact Nat.lt_irrefl 0), if_pos hnil, if_pos hnil]
    exact ⟨s, rfl, h, rfl⟩
  · have hlen : 0 < p.history.length := List.length_pos_iff.mpr hnil
    rw [if_pos (by omega), if_neg hnil, if_neg hnil]
    cases hbrowse : p.browse with
    | none =>
        obtain ⟨d, hd, hsave⟩ := save_draft_ok h
        have hback : step_back s = .ok () { s with
            shell_hist_browse := (p.history.length - 1 : Nat)
            shell_draft := d } := by
          unfold step_back
          rw [bind_gets, bind_gets, h.browse, hbrowse, browseIndex_none, if_pos rfl, bind_of_ok hsave,
            show (s.shell_hist_count : Int) - 1 = (p.history.length - 1 : Nat) by omega]
          rfl
        have hat := h.at (k := p.history.length - 1) (by omega) hd
        obtain ⟨s', hrun, hs'⟩ := show_entry_ok hat rfl
        exact ⟨s', (bind_of_ok hback).trans hrun, hs'⟩
    | some k =>
        have hk := h.valid.browse k hbrowse
        have hback : step_back s = .ok () { s with shell_hist_browse := (k - 1 : Nat) } := by
          unfold step_back
          rw [bind_gets, bind_gets, h.browse, hbrowse, browseIndex_some, if_neg (by omega)]
          rcases Nat.eq_zero_or_pos k with hzero | hpos
          · have hindex : s.shell_hist_browse = (k - 1 : Nat) := by
              rw [h.browse, hbrowse, hzero]
              rfl
            rw [if_neg (by omega), ← hindex]
            rfl
          · rw [if_pos (by omega), show (k : Int) - 1 = (k - 1 : Nat) by omega]
            rfl
        have hat := h.at (k := k - 1) (by omega) h.draft
        obtain ⟨s', hrun, hs'⟩ := show_entry_ok hat rfl
        exact ⟨s', (bind_of_ok hback).trans hrun, hs'⟩

theorem key_down_ok (h : Stands s p) : ∃ s', key_down s = .ok () s' ∧ Stands s' p.down ∧
    s'.tty = s.tty.puts (if p.browse = none then [] else Prompt.retyped p.line p.down.line) := by
  have hcount := h.count
  unfold key_down Prompt.down
  rw [bind_gets, h.browse]
  cases hbrowse : p.browse with
  | none => exact ⟨s, rfl, h, rfl⟩
  | some k =>
      have hk := h.valid.browse k hbrowse
      rw [browseIndex_some, if_pos (show (k : Int) ≠ -1 by omega), bind_gets,
        if_neg (Option.some_ne_none k)]
      dsimp only
      by_cases hlast : k + 1 < p.history.length
      · have hat := h.at (k := k + 1) hlast h.draft
        obtain ⟨s', hrun, hs'⟩ := show_entry_ok hat rfl
        rw [if_pos (show (k : Int) < s.shell_hist_count - 1 by omega), bind_update, if_pos hlast]
        exact ⟨s', hrun, hs'⟩
      · obtain ⟨a, ha, -, hrun⟩ := retype_ok h.draft { s with shell_hist_browse := -1 }
        rw [if_neg (show ¬ (k : Int) < s.shell_hist_count - 1 by omega), bind_update, bind_gets,
          if_neg hlast]
        refine ⟨_, hrun, ⟨rfl, ha, h.count, h.entries, rfl, h.draft, ⟨h.valid.count, nofun⟩⟩, ?_⟩
        show s.tty.puts (List.replicate s.pos 0x08 ++ p.draft) = _
        rw [h.pos]
        rfl

/-! ### The history -/

/-- What `str_copy` leaves in an array. -/
def copied (src dest : Nat → Byte) : Nat → Byte := (copyFrom src LINE_SIZE 0 dest).getD dest

theorem copied_ok (h : Holds LINE_SIZE a l) (dest : Nat → Byte) :
    copyFrom a LINE_SIZE 0 dest = some (copied a dest) ∧ Holds LINE_SIZE (copied a dest) l := by
  obtain ⟨b, hcopy, hb⟩ := h.copy dest
  unfold copied
  rw [hcopy]
  exact ⟨rfl, hb⟩

theorem copyEntry_ok (h : Holds LINE_SIZE a l) (hn : n < SHELL_HIST_MAX) (s : Shell) : copyEntry n a s =
    .ok () { s with
      shell_history := Function.update s.shell_history n (copied a (s.shell_history n)) } := by
  have hread : entry n s = .ok (s.shell_history n) s := entry_ok (by omega) (by omega)
  unfold copyEntry
  rw [bind_of_ok hread, (copied_ok h _).1]
  rfl

/-- The first `i` entries have moved down. -/
def moved (s : Shell) (i : Int) : Shell := { s with
  shell_history := fun j => if (j : Int) < i then copied (s.shell_history (j + 1)) (s.shell_history j)
    else s.shell_history j }

/-- The loop over a full history. -/
theorem shift_ok (h : Stands s p) (hfull : p.history.length = SHELL_HIST_MAX) :
    forUp 0 (SHELL_HIST_MAX - 1) (fun h => do
      let next ← entry (h + 1)
      copyEntry h.toNat next) s = .ok () (s.moved (SHELL_HIST_MAX - 1)) := by
  have hstart : s = s.moved 0 := by
    have hnone : (fun j : Nat => if (j : Int) < 0 then copied (s.shell_history (j + 1)) (s.shell_history j)
        else s.shell_history j) = s.shell_history := funext fun j => if_neg (by omega)
    unfold moved
    rw [hnone]
  have hround : ∀ i : Int, 0 ≤ i → i < SHELL_HIST_MAX - 1 →
      (entry (i + 1) >>= copyEntry i.toNat) (s.moved i) = .ok () (s.moved (i + 1)) := by
    intro i hi hlt
    have hnext : (s.moved i).shell_history (i + 1).toNat = s.shell_history (i.toNat + 1) := by
      rw [show (i + 1).toNat = i.toNat + 1 by omega]
      exact if_neg (by omega)
    have hread : entry (i + 1) (s.moved i) = .ok (s.shell_history (i.toNat + 1)) (s.moved i) := by
      rw [entry_ok (by omega) (by omega), hnext]
    have hthis : (s.moved i).shell_history i.toNat = s.shell_history i.toNat := if_neg (by omega)
    have hholds := h.entries (i.toNat + 1) (by omega)
    rw [bind_of_ok hread, copyEntry_ok hholds (by omega), hthis]
    refine congrArg (Out.ok ()) ?_
    unfold moved
    congr 1
    funext j
    by_cases hj : j = i.toNat
    · rw [hj, Function.update_self, if_pos (by omega)]
    · rw [Function.update_of_ne hj]
      exact if_congr (by omega) rfl rfl
  have hloop := forUp_ok (fun h : Int => entry (h + 1) >>= copyEntry h.toNat) s.moved
    (show (0 : Int) ≤ SHELL_HIST_MAX - 1 by decide) hround
  rw [← hstart] at hloop
  exact hloop

theorem is_last_ok (h : Stands s p) : is_last s = .ok (decide (p.history.getLast? = some p.line)) s := by
  have hcount := h.count
  have hmax := h.valid.count
  unfold is_last
  rw [bind_gets]
  by_cases hzero : s.shell_hist_count = 0
  · have hnil : p.history = [] := List.length_eq_zero_iff.mp (by omega)
    rw [if_pos hzero, hnil]
    rfl
  · have hlt : p.history.length - 1 < p.history.length := by omega
    have hindex : ((s.shell_hist_count : Int) - 1).toNat = p.history.length - 1 := by omega
    have hlast : p.history.getLast? = some p.history[p.history.length - 1] := by
      rw [List.getLast?_eq_getElem?, List.getElem?_eq_getElem hlt]
    rw [if_neg hzero, bind_gets, bind_of_ok (entry_ok (by omega) (by omega)), hindex,
      h.line.eq (h.entries _ hlt), hlast]
    refine congrArg (fun b => Out.ok b s) (decide_eq_decide.mpr ?_)
    rw [Option.some_inj]
    exact eq_comm

/-- A history with one more entry, or with a new last one. -/
theorem Stands.recorded (h : Stands s p) {H : Nat → Nat → Byte} {m : List (List Byte)}
    (hlen : m.length ≤ SHELL_HIST_MAX) (hmore : p.history.length ≤ m.length)
    (hentries : ∀ k (h : k < m.length), Holds LINE_SIZE (H k) m[k]) :
    Stands { s with shell_history := H, shell_hist_count := m.length } { p with history := m } :=
  ⟨h.pos, h.line, rfl, hentries, h.browse, h.draft,
    ⟨hlen, fun k hk => Nat.lt_of_lt_of_le (h.valid.browse k hk) hmore⟩⟩

theorem record_ok (h : Stands s p) : ∃ s', record s = .ok () s' ∧
    Stands s' { p with history := Prompt.recorded p.history p.line } ∧ s'.tty = s.tty := by
  have hcount := h.count
  have hmax := h.valid.count
  unfold record Prompt.recorded
  rw [bind_of_ok (is_last_ok h)]
  by_cases hknown : p.history.getLast? = some p.line
  · rw [if_pos hknown, if_pos (decide_eq_true hknown)]
    exact ⟨s, rfl, h, rfl⟩
  · have hnew : ¬ decide (p.history.getLast? = some p.line) = true := by
      rw [decide_eq_false hknown]
      exact Bool.false_ne_true
    rw [if_neg hknown, if_neg hnew, bind_gets, bind_gets]
    have hlength : (p.history ++ [p.line]).length = p.history.length + 1 := by simp
    by_cases hroom : p.history.length < SHELL_HIST_MAX
    · have hall : lastOf SHELL_HIST_MAX (p.history ++ [p.line]) = p.history ++ [p.line] := by
        unfold lastOf
        rw [show (p.history ++ [p.line]).length - SHELL_HIST_MAX = 0 by omega, List.drop_zero]
      rw [if_pos (show s.shell_hist_count < SHELL_HIST_MAX by omega),
        bind_of_ok (copyEntry_ok h.line (show s.shell_hist_count < SHELL_HIST_MAX by omega) s), hall]
      refine ⟨_, rfl, ?_, rfl⟩
      have hstands := h.recorded (H := Function.update s.shell_history s.shell_hist_count
        (copied s.line (s.shell_history s.shell_hist_count))) (m := p.history ++ [p.line]) (by omega)
        (by omega) fun k hk => ?_
      · rw [hlength, ← hcount] at hstands
        exact hstands
      · rw [hlength] at hk
        rw [hcount]
        rcases Nat.lt_succ_iff_lt_or_eq.mp hk with hlt | rfl
        · rw [Function.update_of_ne (Nat.ne_of_lt hlt), List.getElem_append_left hlt]
          exact h.entries k hlt
        · rw [Function.update_self, List.getElem_concat_length rfl]
          exact (copied_ok h.line _).2
    · have hfull : p.history.length = SHELL_HIST_MAX := by omega
      have hlast : lastOf SHELL_HIST_MAX (p.history ++ [p.line]) = p.history.drop 1 ++ [p.line] := by
        unfold lastOf
        rw [show (p.history ++ [p.line]).length - SHELL_HIST_MAX = 1 by omega,
          List.drop_append_of_le_length (by unfold SHELL_HIST_MAX at hfull; omega)]
      have hlen : (p.history.drop 1 ++ [p.line]).length = SHELL_HIST_MAX := by
        rw [List.length_append, List.length_drop, List.length_singleton]
        unfold SHELL_HIST_MAX at hfull ⊢
        omega
      rw [if_neg (show ¬ s.shell_hist_count < SHELL_HIST_MAX by omega), bind_of_ok (shift_ok h hfull),
        copyEntry_ok h.line (by decide), hlast]
      refine ⟨_, rfl, ?_, rfl⟩
      have hstands := h.recorded (H := Function.update (s.moved (SHELL_HIST_MAX - 1)).shell_history
        (SHELL_HIST_MAX - 1)
        (copied s.line ((s.moved (SHELL_HIST_MAX - 1)).shell_history (SHELL_HIST_MAX - 1))))
        (m := p.history.drop 1 ++ [p.line]) (by omega) (by omega) fun k hk => ?_
      · rw [show (p.history.drop 1 ++ [p.line]).length = s.shell_hist_count by omega] at hstands
        exact hstands
      · rw [hlen] at hk
        rcases Nat.lt_or_ge k (p.history.drop 1).length with hlt | hge
        · have hmore : 1 + k < p.history.length := by
            rw [List.length_drop] at hlt
            omega
          have hold : (s.moved (SHELL_HIST_MAX - 1)).shell_history k =
              copied (s.shell_history (k + 1)) (s.shell_history k) := if_pos (by omega)
          rw [Function.update_of_ne (by omega), hold, List.getElem_append_left hlt, List.getElem_drop]
          have hentry := h.entries (k + 1) (by omega)
          simp only [Nat.add_comm 1 k]
          exact (copied_ok hentry _).2
        · have hend : k = SHELL_HIST_MAX - 1 := by
            rw [List.length_drop] at hge
            omega
          rw [List.getElem_append_right hge]
          simp only [List.getElem_singleton]
          rw [hend, Function.update_self]
          exact (copied_ok h.line _).2

/-! ### Commands -/

/-- A command changes the line and the terminal, and nothing else of the shell's. -/
theorem dispatch_ok {z start : Nat} (hz : s.line z = 0) (hroom : z < LINE_SIZE) (hstart : start ≤ z) :
    ∃ line tty, dispatch commands start s = .ok () { s with line := line, tty := tty } := by
  obtain ⟨stop, hfind, hle, hle', -⟩ :=
    findFrom_some (c := BLANK) hz hstart (n := LINE_SIZE - start) (by omega)
  unfold dispatch
  rw [bind_gets, hfind, bind_ofOption]
  by_cases hblank : s.line stop = BLANK
  · have hne : stop ≠ z := by
      rintro rfl
      rw [hz] at hblank
      exact absurd hblank (by decide)
    have hz' : Function.update s.line stop 0 z = 0 := by
      rw [Function.update_of_ne (Ne.symm hne)]
      exact hz
    obtain ⟨first, hskip, -, hfirst⟩ := skipFrom_some (c := BLANK) hz' (by decide)
      (show stop + 1 ≤ z by omega) (n := LINE_SIZE - (stop + 1)) (by omega)
    obtain ⟨name, hname⟩ := textFrom_some hz' hstart (n := LINE_SIZE - start) (by omega)
    obtain ⟨args, hargs⟩ := textFrom_some hz' hfirst (n := LINE_SIZE - first) (by omega)
    rw [if_pos hblank, bind_of_ok (setLine_ok (by omega)), bind_gets, hskip, bind_ofOption, hname,
      bind_ofOption, hargs]
    exact ⟨_, _, rfl⟩
  · obtain ⟨name, hname⟩ := textFrom_some hz hstart (n := LINE_SIZE - start) (by omega)
    rw [if_neg hblank, hname]
    exact ⟨_, _, rfl⟩

theorem shell_execute_ok (h : Holds LINE_SIZE s.line l) :
    ∃ line tty, shell_execute commands s = .ok () { s with line := line, tty := tty } := by
  have hz := h.stop
  have hroom := h.room
  obtain ⟨start, hskip, -, hstart⟩ := skipFrom_some (c := BLANK) hz (by decide) (Nat.zero_le _)
    (n := LINE_SIZE) (by omega)
  unfold shell_execute
  rw [bind_gets, hskip, bind_ofOption]
  by_cases hempty : s.line start = 0
  · rw [if_pos hempty]
    exact ⟨_, _, rfl⟩
  · rw [if_neg hempty]
    by_cases hrun : s.line start = 0x2E ∧ s.line (start + 1) = 0x2F
    · have hne : start ≠ l.length := by
        rintro rfl
        exact hempty hz
      have hne' : start + 1 ≠ l.length := by
        intro heq
        rw [heq, hz] at hrun
        exact absurd hrun.2 (by decide)
      obtain ⟨args, hargs⟩ := textFrom_some hz (show start + 2 ≤ l.length by omega)
        (n := LINE_SIZE - (start + 2)) (by omega)
      rw [if_pos hrun, hargs]
      exact ⟨_, _, rfl⟩
    · rw [if_neg hrun]
      exact dispatch_ok hz hroom hstart

/-- The line is done with, whatever is in its array. -/
theorem Stands.done (h : Stands s p) {line : Nat → Byte} {tty : Tty} {draft : Nat → Byte} {browse : Int} :
    ∃ s', (fresh_line >>= fun _ => kprintf PROMPT) { s with
      line := line, tty := tty, shell_draft := draft, shell_hist_browse := browse } = .ok () s' ∧
        Stands s' p.fresh :=
  ⟨_, rfl, rfl, .nil (by decide) (Function.update_self 0 0 line), h.count, h.entries, rfl,
    .nil (by decide) (Function.update_self 0 0 draft), ⟨h.valid.count, nofun⟩⟩

theorem enter_ok (h : Stands s p) : ∃ s', enter commands s = .ok () s' ∧ Stands s' p.enter := by
  have hpos := h.pos
  have hzero : Function.update s.line p.line.length 0 = s.line := by
    rw [← h.line.stop, Function.update_eq_self]
  have hset : setLine s.pos 0 s = .ok () s := by
    rw [h.pos, setLine_ok h.line.room, hzero]
  unfold enter Prompt.enter submit
  rw [bind_gets, bind_of_ok hset]
  by_cases hnil : p.line = []
  · rw [hnil] at hpos
    rw [if_pos hnil, if_neg (by rw [hpos]; exact Nat.lt_irrefl 0)]
    exact h.done
  · have hlen : 0 < p.line.length := List.length_pos_iff.mpr hnil
    obtain ⟨t, hrecord, ht, -⟩ := record_ok (h.print (s.tty.puts [0x0A]))
    have hline := ht.line
    obtain ⟨line, tty, hexec⟩ := @shell_execute_ok { t with
      shell_hist_browse := -1, shell_draft := Function.update t.shell_draft 0 0 } commands _ hline
    obtain ⟨u, hdone, hu⟩ := @Stands.done t _ ht line tty (Function.update t.shell_draft 0 0) (-1)
    rw [if_neg hnil, if_pos (by omega), bind_of_ok (kprintf_ok _ s)]
    have hreset : (update (fun s : Shell => { s with
        shell_hist_browse := -1, shell_draft := Function.update s.shell_draft 0 0 }) >>=
          fun _ => shell_execute commands) t = .ok () { t with
        line := line, tty := tty
        shell_hist_browse := -1, shell_draft := Function.update t.shell_draft 0 0 } :=
      bind_update.trans hexec
    exact ⟨u, (bind_of_ok ((bind_of_ok hrecord).trans hreset)).trans hdone, hu⟩

/-- **The shell.**  A key does to the arrays what it does to the lists, and what it sends to the
terminal depends on the lists only, except for what the commands print. -/
theorem key_ok (commands : Commands) (h : Stands s p) (c : Byte) : ∃ s', key commands c s = .ok () s' ∧
    Stands s' (p.key c) ∧ (c ≠ 0x0A → s'.tty = s.tty.puts (p.echo c)) := by
  unfold key Prompt.key Prompt.echo
  by_cases hzero : c = 0
  · rw [if_pos hzero, if_pos hzero, if_pos hzero]
    exact ⟨s, rfl, h, fun _ => rfl⟩
  rw [if_neg hzero, if_neg hzero, if_neg hzero]
  by_cases hcancel : c = 0x03
  · rw [if_pos hcancel, if_pos hcancel, if_pos hcancel]
    obtain ⟨s', hrun, hs', htty⟩ := cancel_ok h (0x5E :: 0x43 :: 0x0A :: PROMPT)
    exact ⟨s', hrun, hs', fun _ => htty⟩
  rw [if_neg hcancel, if_neg hcancel, if_neg hcancel]
  by_cases hup : c = Keyboard.KEY_UP
  · rw [if_pos hup, if_pos hup, if_pos hup]
    obtain ⟨s', hrun, hs', htty⟩ := key_up_ok h
    exact ⟨s', hrun, hs', fun _ => htty⟩
  rw [if_neg hup, if_neg hup, if_neg hup]
  by_cases hdown : c = Keyboard.KEY_DOWN
  · rw [if_pos hdown, if_pos hdown, if_pos hdown]
    obtain ⟨s', hrun, hs', htty⟩ := key_down_ok h
    exact ⟨s', hrun, hs', fun _ => htty⟩
  rw [if_neg hdown, if_neg hdown, if_neg hdown]
  by_cases henter : c = 0x0A
  · rw [if_pos henter, if_pos henter]
    obtain ⟨s', hrun, hs'⟩ := enter_ok h
    exact ⟨s', hrun, hs', fun hne => absurd henter hne⟩
  rw [if_neg henter, if_neg henter]
  by_cases hback : c = 0x08
  · rw [if_pos hback, if_pos hback, if_pos hback]
    obtain ⟨s', hrun, hs', htty⟩ := backspace_ok h
    exact ⟨s', hrun, hs', fun _ => htty⟩
  rw [if_neg hback, if_neg hback, if_neg hback]
  by_cases hprintable : 0x20 ≤ c ∧ c ≤ 0x7E
  · rw [if_pos hprintable, if_pos hprintable, if_pos hprintable]
    obtain ⟨s', hrun, hs', htty⟩ := type_ok h hzero
    exact ⟨s', hrun, hs', fun _ => htty⟩
  · rw [if_neg hprintable, if_neg hprintable, if_neg hprintable]
    exact ⟨s, rfl, h, fun _ => rfl⟩

theorem start_tty (line : Nat → Byte) (tty : Tty) :
    (start line tty).tty = (tty.puts WELCOME).puts PROMPT := by
  simp only [start]

theorem start_ok (line : Nat → Byte) (tty : Tty) : Stands (start line tty) ⟨[], [], none, []⟩ :=
  ⟨rfl, .nil (by decide) (Function.update_self 0 0 line), rfl, nofun, rfl, .nil (by decide) rfl,
    ⟨Nat.zero_le _, nofun⟩⟩

/-- A session. -/
theorem keys_ok (commands : Commands) (cs : List Byte) : ∀ {s : Shell} {p : Prompt}, Stands s p →
    ∃ s', keys commands cs s = .ok () s' ∧ Stands s' (cs.foldl Prompt.key p) := by
  induction cs with
  | nil =>
      intro s p h
      exact ⟨s, rfl, h⟩
  | cons c cs ih =>
      intro s p h
      obtain ⟨t, hkey, ht, -⟩ := key_ok commands h c
      obtain ⟨s', hkeys, hs'⟩ := ih ht
      exact ⟨s', (bind_of_ok hkey).trans hkeys, hs'⟩

end Shell

end Eke
