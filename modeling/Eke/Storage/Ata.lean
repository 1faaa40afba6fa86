/-
The ATA driver.

`modules/disk/ata.cpp` moves one sector at a time through the ports of the primary channel and polls
the status register up to a limit.  The drive at the other end is what the driver relies on: how long
each command keeps it busy and which commands fail are left open, a command written while it is busy
or has a transfer to finish is lost, and a sector it has taken is kept, as the driver does not look
behind a transfer.

A drive that answers before the polls give up is a `BLOCKDEV_API`: whatever the calls, they return, read
and leave on the medium what the calls on such a device do.
-/
import Eke.Lib.ByteLoops
import Eke.Storage.BlockDev

namespace Eke

open Store

namespace Ata

/-! ### The drive -/

/-- What the drive is in the middle of. A transfer goes on at a byte of the medium. -/
inductive Mode
  | idle
  | failed
  | reading (at_ left : Nat)
  | writing (at_ left : Nat)
  | identifying (i : Nat)

def Mode.transfers : Mode → Bool
  | .idle => false
  | .failed => false
  | _ => true

structure Drive where
  sectors : Store
  /-- The words of its identification. -/
  identity : Nat → BitVec 16
  /-- No drive is attached, and the bus reads high or low. -/
  floating : Option Bool
  /-- For how many reads of the status its `n`-th command keeps it busy. -/
  delay : Nat → Nat
  /-- Its `n`-th command fails. -/
  fault : Nat → Bool
  commands : Nat
  busy : Nat
  head : BitVec 8
  count : BitVec 8
  low : BitVec 8
  mid : BitVec 8
  high : BitVec 8
  mode : Mode

namespace Drive

/-- The sectors that can be addressed, of words 60 and 61. -/
def total (d : Drive) : Nat := (d.identity 60).toNat + (d.identity 61).toNat * 2 ^ 16

/-- The sector the registers name. -/
def address (d : Drive) : Nat :=
  (d.head &&& 0x0F).toNat * 2 ^ 24 + d.high.toNat * 2 ^ 16 + d.mid.toNat * 2 ^ 8 + d.low.toNat

/-- The sectors they ask for. -/
def wanted (d : Drive) : Nat := if d.count = 0 then 256 else d.count.toNat

/-- Block addressing is on, and the sectors are there. -/
def accepts (d : Drive) : Bool := d.head &&& 0x40 ≠ 0 && d.address + d.wanted ≤ d.total

def status (d : Drive) : BitVec 8 :=
  if 0 < d.busy then 0x80
  else match d.mode with
    | .idle => 0x50
    | .failed => 0x51
    | _ => 0x58

/-- What becomes of a command. -/
def command (d : Drive) (cmd : BitVec 8) : Drive :=
  if d.floating.isSome || 0 < d.busy || d.mode.transfers then d
  else
    { d with
      busy := d.delay d.commands
      commands := d.commands + 1
      mode :=
        if d.fault d.commands || d.head &&& 0x10 ≠ 0 then .failed
        else if cmd = 0x20 then if d.accepts then .reading (d.address * 512) (d.wanted * 256) else .failed
        else if cmd = 0x30 then if d.accepts then .writing (d.address * 512) (d.wanted * 256) else .failed
        else if cmd = 0xE7 then .idle
        else if cmd = 0xEC then .identifying 0
        else .failed }

def outb (port : Nat) (val : BitVec 8) (d : Drive) : Drive :=
  if port = 0x1F2 then { d with count := val }
  else if port = 0x1F3 then { d with low := val }
  else if port = 0x1F4 then { d with mid := val }
  else if port = 0x1F5 then { d with high := val }
  else if port = 0x1F6 then { d with head := val }
  else if port = 0x1F7 then d.command val
  else d

def inb (port : Nat) (d : Drive) : BitVec 8 × Drive :=
  if port = 0x1F7 then
    match d.floating with
    | some high => (if high then 0xFF else 0x00, d)
    | none => (d.status, { d with busy := d.busy - 1 })
  else (0, d)

def inw (port : Nat) (d : Drive) : BitVec 16 × Drive :=
  if port = 0x1F0 then
    match d.mode with
    | .reading a left =>
      (BitVec.ofNat 16 (d.sectors.le a 2), { d with mode := if left ≤ 1 then .idle else .reading (a + 2) (left - 1) })
    | .identifying i => (d.identity i, { d with mode := if 255 ≤ i then .idle else .identifying (i + 1) })
    | _ => (0, d)
  else (0, d)

def outw (port : Nat) (val : BitVec 16) (d : Drive) : Drive :=
  if port = 0x1F0 then
    match d.mode with
    | .writing a left =>
      let d := { d with sectors := d.sectors.setLe a 2 val.toNat }
      if left ≤ 1 then { d with mode := .idle, busy := d.delay d.commands, commands := d.commands + 1 }
      else { d with mode := .writing (a + 2) (left - 1) }
    | _ => d
  else d

end Drive

open Drive

/-! ### The driver -/

/-- The polls of a wait. -/
def TIMEOUT : Nat := 100000

/-- The loop of `ata_wait_not_busy`. -/
def not_busy_loop : Nat → Drive → Int × Drive
  | 0, d => (-1, d)
  | n + 1, d =>
    let (status, d) := inb 0x1F7 d
    if status &&& 0x80 = 0 then (0, d) else not_busy_loop n d

def ata_wait_not_busy (d : Drive) : Int × Drive := not_busy_loop TIMEOUT d

/-- The loop of `ata_wait_ready`. -/
def ready_loop : Nat → Drive → Int × Drive
  | 0, d => (-1, d)
  | n + 1, d =>
    let (status, d) := inb 0x1F7 d
    if status &&& 0x01 ≠ 0 then (-1, d)
    else if status &&& 0x80 = 0 ∧ status &&& 0x08 ≠ 0 then (0, d)
    else ready_loop n d

def ata_wait_ready (d : Drive) : Int × Drive := ready_loop TIMEOUT d

/-- The registers of one sector, and its command. -/
def issue (lba : BitVec 32) (cmd : BitVec 8) (d : Drive) : Drive :=
  let d := outb 0x1F6 (0xE0 ||| ((lba >>> 24) &&& 0x0F).setWidth 8) d
  let d := outb 0x1F2 1 d
  let d := outb 0x1F3 ((lba &&& 0xFF).setWidth 8) d
  let d := outb 0x1F4 (((lba >>> 8) &&& 0xFF).setWidth 8) d
  let d := outb 0x1F5 (((lba >>> 16) &&& 0xFF).setWidth 8) d
  outb 0x1F7 cmd d

/-- `ptr[i] = inw(0x1F0)` -/
def in_word (buf i : Nat) (s : Store × Drive) : Store × Drive :=
  let (w, d) := inw 0x1F0 s.2
  (s.1.setLe (buf + 2 * i) 2 w.toNat, d)

/-- `outw(0x1F0, ptr[i])` -/
def out_word (m : Store) (buf i : Nat) (d : Drive) : Drive :=
  outw 0x1F0 (BitVec.ofNat 16 (m.le (buf + 2 * i) 2)) d

def ata_read_one_sector (lba : BitVec 32) (buf : Nat) (m : Store) (d : Drive) : Int × Store × Drive :=
  let (r, d) := ata_wait_not_busy d
  if r ≠ 0 then (-1, m, d)
  else
    let (r, d) := ata_wait_ready (issue lba 0x20 d)
    if r ≠ 0 then (-1, m, d)
    else (0, loop (in_word buf) 256 (m, d))

def ata_write_one_sector (lba : BitVec 32) (buf : Nat) (m : Store) (d : Drive) : Int × Drive :=
  let (r, d) := ata_wait_not_busy d
  if r ≠ 0 then (-1, d)
  else
    let (r, d) := ata_wait_ready (issue lba 0x30 d)
    if r ≠ 0 then (-1, d)
    else
      let d := loop (out_word m buf) 256 d
      let d := outb 0x1F7 0xE7 d
      (0, (ata_wait_not_busy d).2)

/-- The loop of `ata_read_sectors`, with `n` rounds left behind `i`. -/
def read_loop (lba : BitVec 64) (buffer : Nat) : Nat → Nat → Store → Drive → Int × Store × Drive
  | 0, _, m, d => (0, m, d)
  | n + 1, i, m, d =>
    let (r, m, d) := ata_read_one_sector ((lba + BitVec.ofNat 64 i).setWidth 32)
      (buffer + (BitVec.ofNat 32 i * 512).toNat) m d
    if r ≠ 0 then (-1, m, d) else read_loop lba buffer n (i + 1) m d

def ata_read_sectors (lba : BitVec 64) (count : BitVec 32) (buffer : Nat) (m : Store) (d : Drive) :
    Int × Store × Drive := read_loop lba buffer count.toNat 0 m d

/-- The loop of `ata_write_sectors`. -/
def write_loop (lba : BitVec 64) (buffer : Nat) (m : Store) : Nat → Nat → Drive → Int × Drive
  | 0, _, d => (0, d)
  | n + 1, i, d =>
    let (r, d) := ata_write_one_sector ((lba + BitVec.ofNat 64 i).setWidth 32)
      (buffer + (BitVec.ofNat 32 i * 512).toNat) m d
    if r ≠ 0 then (-1, d) else write_loop lba buffer m n (i + 1) d

def ata_write_sectors (lba : BitVec 64) (count : BitVec 32) (buffer : Nat) (m : Store) (d : Drive) :
    Int × Drive := write_loop lba buffer m count.toNat 0 d

/-- `id_buf[i] = inw(0x1F0)` -/
def id_word (i : Nat) (s : (Nat → BitVec 16) × Drive) : (Nat → BitVec 16) × Drive :=
  let (w, d) := inw 0x1F0 s.2
  ((fun j => if j = i then w else s.1 j), d)

/-- The end of `ata_probe`, once the drive is ready. -/
def identify (d : Drive) : BitVec 64 × Drive :=
  let (id_buf, d) := loop id_word 256 ((fun _ => 0), d)
  let sectors : BitVec 32 := (id_buf 60).setWidth 32 ||| (id_buf 61).setWidth 32 <<< 16
  if 0 < sectors then (sectors.setWidth 64, d) else (131072, d)

def ata_probe (d : Drive) : BitVec 64 × Drive :=
  let d := outb 0x1F6 0xA0 d
  let d := outb 0x1F2 0 d
  let d := outb 0x1F3 0 d
  let d := outb 0x1F4 0 d
  let d := outb 0x1F5 0 d
  let d := outb 0x1F7 0xEC d
  let (status, d) := inb 0x1F7 d
  if status = 0 ∨ status = 0xFF then (0, d)
  else
    let (r, d) := ata_wait_ready d
    if r ≠ 0 then (0, d) else identify d

/-- `ata_init`: `ata_dev.total_sectors`, where there is a drive. -/
def ata_init (d : Drive) : Option (BitVec 64) × Drive :=
  let (sectors, d) := ata_probe d
  if sectors = 0 then (none, d) else (some sectors, d)

/-! ### Waiting -/

/-- The drive answers before a wait gives up. -/
def Quick (d : Drive) : Prop := ∀ n, d.delay n < TIMEOUT

/-- Between two calls: a drive is there, it has no transfer to finish and is not busy for long. -/
structure Settled (d : Drive) : Prop where
  attached : d.floating = none
  still : d.mode.transfers = false
  soon : d.busy < TIMEOUT

/-- What no port changes. -/
structure Like (d e : Drive) : Prop where
  identity : e.identity = d.identity
  floating : e.floating = d.floating
  delay : e.delay = d.delay
  fault : e.fault = d.fault

variable {d e : Drive} {m : Store} {lba : BitVec 32} {buf n : Nat}

theorem Like.trans {f : Drive} (h : Like d e) (h' : Like e f) : Like d f :=
  ⟨h'.identity.trans h.identity, h'.floating.trans h.floating, h'.delay.trans h.delay, h'.fault.trans h.fault⟩

theorem Like.total (h : Like d e) : e.total = d.total := by
  unfold Drive.total
  rw [h.identity]

theorem Quick.like (h : Like d e) (hq : Quick d) : Quick e := fun n => by
  rw [h.delay]
  exact hq n

theorem inb_status (h : d.floating = none) : inb 0x1F7 d = (d.status, { d with busy := d.busy - 1 }) := by
  unfold inb
  rw [if_pos rfl, h]

theorem status_busy (h : 0 < d.busy) : d.status = 0x80 := if_pos h

theorem status_free (h : d.busy = 0) : d.mode = .idle ∧ d.status = 0x50 ∨ d.mode = .failed ∧ d.status = 0x51 ∨
    d.mode.transfers = true ∧ d.status = 0x58 := by
  have hstatus : d.status = match d.mode with
    | .idle => 0x50
    | .failed => 0x51
    | _ => 0x58 := if_neg (by omega)
  rw [hstatus]
  cases d.mode with
  | idle => exact Or.inl ⟨rfl, rfl⟩
  | failed => exact Or.inr (Or.inl ⟨rfl, rfl⟩)
  | reading a left => exact Or.inr (Or.inr ⟨rfl, rfl⟩)
  | writing a left => exact Or.inr (Or.inr ⟨rfl, rfl⟩)
  | identifying i => exact Or.inr (Or.inr ⟨rfl, rfl⟩)

theorem poll_free (h : d.busy = 0) : { d with busy := d.busy - 1 } = { d with busy := 0 } := by rw [h]

theorem not_busy_loop_spec : ∀ (n : Nat) (d : Drive), d.floating = none → d.busy < n →
    not_busy_loop n d = (0, { d with busy := 0 }) := by
  intro n
  induction n with
  | zero => intro d _ hn; exact absurd hn (Nat.not_lt_zero _)
  | succ n ih =>
      intro d hd hn
      rw [not_busy_loop, inb_status hd]
      dsimp only
      by_cases hbusy : 0 < d.busy
      · rw [status_busy hbusy, if_neg (by decide)]
        exact ih { d with busy := d.busy - 1 } hd (by show d.busy - 1 < n; omega)
      · have hzero : d.busy = 0 := by omega
        rw [poll_free hzero]
        rcases status_free hzero with ⟨-, hs⟩ | ⟨-, hs⟩ | ⟨-, hs⟩ <;> rw [hs] <;> rfl

/-- A drive that is doing nothing is waited for to the end. -/
theorem ready_loop_idle : ∀ (n : Nat) (d : Drive), d.floating = none → d.busy = 0 → d.mode = .idle →
    ready_loop n d = (-1, { d with busy := 0 }) := by
  intro n
  induction n with
  | zero =>
      intro d _ hzero _
      rw [← poll_free hzero, hzero]
      show ((-1 : Int), d) = (-1, { d with busy := 0 })
      rw [← hzero]
  | succ n ih =>
      intro d hd hzero hidle
      have hs : d.status = 0x50 := by
        rcases status_free hzero with ⟨-, hs⟩ | ⟨hm, -⟩ | ⟨hm, -⟩
        · exact hs
        · rw [hidle] at hm; cases hm
        · rw [hidle] at hm; cases hm
      rw [ready_loop, inb_status hd]
      dsimp only
      rw [hs, poll_free hzero, if_neg (by decide), if_neg (by decide)]
      exact ih { d with busy := 0 } hd rfl hidle

/-- Waiting for a transfer succeeds exactly if there is one. -/
theorem ready_loop_spec : ∀ (n : Nat) (d : Drive), d.floating = none → d.busy < n →
    ready_loop n d = (if d.mode.transfers then 0 else -1, { d with busy := 0 }) := by
  intro n
  induction n with
  | zero => intro d _ hn; exact absurd hn (Nat.not_lt_zero _)
  | succ n ih =>
      intro d hd hn
      rw [ready_loop, inb_status hd]
      dsimp only
      by_cases hbusy : 0 < d.busy
      · rw [status_busy hbusy, if_neg (by decide), if_neg (by decide)]
        exact ih { d with busy := d.busy - 1 } hd (by show d.busy - 1 < n; omega)
      · have hzero : d.busy = 0 := by omega
        rw [poll_free hzero]
        rcases status_free hzero with ⟨hm, hs⟩ | ⟨hm, hs⟩ | ⟨hm, hs⟩
        · have hnone : (if d.mode.transfers then (0 : Int) else -1) = -1 := by
            rw [hm]
            rfl
          rw [hs, if_neg (by decide), if_neg (by decide), hnone]
          exact ready_loop_idle n { d with busy := 0 } hd rfl hm
        · rw [hs, if_pos (by decide), hm]
          rfl
        · rw [hs, if_neg (by decide), if_pos (by decide), hm]
          rfl

/-! ### A command -/

/-- One byte of an address. -/
theorem toNat_byte (lba : BitVec 32) (k : Nat) :
    (((lba >>> k) &&& 0xFF).setWidth 8).toNat = lba.toNat / 2 ^ k % 2 ^ 8 := by
  rw [BitVec.toNat_setWidth, BitVec.toNat_and, BitVec.toNat_ushiftRight, Nat.shiftRight_eq_div_pow]
  show ((lba.toNat / 2 ^ k) &&& (2 ^ 8 - 1)) % 2 ^ 8 = _
  rw [Nat.and_two_pow_sub_one_eq_mod, Nat.mod_mod]

theorem toNat_nibble (lba : BitVec 32) :
    (((lba >>> 24) &&& 0x0F).setWidth 8).toNat = lba.toNat / 2 ^ 24 % 2 ^ 4 := by
  rw [BitVec.toNat_setWidth, BitVec.toNat_and, BitVec.toNat_ushiftRight, Nat.shiftRight_eq_div_pow]
  show ((lba.toNat / 2 ^ 24) &&& (2 ^ 4 - 1)) % 2 ^ 8 = _
  rw [Nat.and_two_pow_sub_one_eq_mod]
  omega

/-- What is written to the drive register. -/
theorem head_bits : ∀ x : BitVec 8, x < 16 →
    (0xE0 ||| x) &&& 0x0F = x ∧ (0xE0 ||| x) &&& 0x40 ≠ 0 ∧ ¬ (0xE0 ||| x) &&& 0x10 ≠ 0 := by
  decide

/-- The sector a command names: the low 28 bits. -/
def sector (lba : BitVec 32) : Nat := lba.toNat % 2 ^ 28

/-- The drive, the registers of a sector written. -/
def aimed (lba : BitVec 32) (d : Drive) : Drive :=
  { d with
    head := 0xE0 ||| ((lba >>> 24) &&& 0x0F).setWidth 8
    count := 1
    low := (lba &&& 0xFF).setWidth 8
    mid := ((lba >>> 8) &&& 0xFF).setWidth 8
    high := ((lba >>> 16) &&& 0xFF).setWidth 8 }

theorem issue_eq (lba : BitVec 32) (cmd : BitVec 8) (d : Drive) : issue lba cmd d = (aimed lba d).command cmd := rfl

/-- The bytes in the registers are the address. -/
theorem aimed_address (lba : BitVec 32) (d : Drive) : (aimed lba d).address = sector lba ∧ (aimed lba d).wanted = 1 ∧
    (aimed lba d).head &&& 0x40 ≠ 0 ∧ ¬ (aimed lba d).head &&& 0x10 ≠ 0 := by
  have hnibble := toNat_nibble lba
  obtain ⟨hlow, hlba, hslave⟩ := head_bits (((lba >>> 24) &&& 0x0F).setWidth 8) (by
    rw [BitVec.lt_def, hnibble]
    exact Nat.mod_lt _ (by decide))
  refine ⟨?_, rfl, hlba, hslave⟩
  have h0 := toNat_byte lba 0
  rw [BitVec.ushiftRight_zero] at h0
  have h8 := toNat_byte lba 8
  have h16 := toNat_byte lba 16
  have hsum : (aimed lba d).address = (((lba >>> 24) &&& 0x0F).setWidth 8 : BitVec 8).toNat * 2 ^ 24 +
      (((lba >>> 16) &&& 0xFF).setWidth 8).toNat * 2 ^ 16 + (((lba >>> 8) &&& 0xFF).setWidth 8).toNat * 2 ^ 8 +
        ((lba &&& 0xFF).setWidth 8).toNat := by
    rw [← hlow]
    rfl
  rw [hsum, hnibble, h0, h8, h16]
  unfold sector
  omega

/-- The drive takes the command for a sector. -/
def Served (lba : BitVec 32) (d : Drive) : Prop := d.fault d.commands = false ∧ sector lba < d.total

instance : Decidable (Served lba d) := inferInstanceAs (Decidable (_ ∧ _))

/-- A command that was issued to a drive at rest. -/
theorem issue_spec (hs : Settled d) (hzero : d.busy = 0) (lba : BitVec 32) {cmd : BitVec 8} {mode : Mode}
    (hmode : (if cmd = 0x20 then if (aimed lba d).accepts then
        Mode.reading ((aimed lba d).address * 512) ((aimed lba d).wanted * 256) else .failed
      else if cmd = 0x30 then if (aimed lba d).accepts then
        Mode.writing ((aimed lba d).address * 512) ((aimed lba d).wanted * 256) else .failed
      else if cmd = 0xE7 then .idle else if cmd = 0xEC then .identifying 0 else .failed) =
      if sector lba < d.total then mode else .failed) :
    issue lba cmd d = { aimed lba d with
      busy := d.delay d.commands, commands := d.commands + 1
      mode := if Served lba d then mode else .failed } := by
  obtain ⟨-, -, -, hslave⟩ := aimed_address lba d
  have hready : ¬ ((aimed lba d).floating.isSome || decide (0 < (aimed lba d).busy) ||
      (aimed lba d).mode.transfers) = true := by
    show ¬ (d.floating.isSome || decide (0 < d.busy) || d.mode.transfers) = true
    rw [hs.attached, hzero, hs.still]
    decide
  rw [issue_eq]
  unfold command
  rw [if_neg hready, hmode]
  show { aimed lba d with
    busy := d.delay d.commands, commands := d.commands + 1
    mode := if (d.fault d.commands || decide ((aimed lba d).head &&& 0x10 ≠ 0)) = true then Mode.failed
      else if sector lba < d.total then mode else .failed } = _
  have htaken : (if (d.fault d.commands || decide ((aimed lba d).head &&& 0x10 ≠ 0)) = true then Mode.failed
      else if sector lba < d.total then mode else .failed) = if Served lba d then mode else .failed := by
    rw [decide_eq_false hslave, Bool.or_false]
    by_cases hfault : d.fault d.commands = true
    · have hno : ¬ Served lba d := fun hc => absurd (hfault.symm.trans hc.1) (by decide)
      rw [if_pos hfault, if_neg hno]
    · rw [if_neg hfault]
      by_cases hin : sector lba < d.total
      · have hyes : Served lba d := ⟨by simpa using hfault, hin⟩
        rw [if_pos hin, if_pos hyes]
      · have hno : ¬ Served lba d := fun hc => hin hc.2
        rw [if_neg hin, if_neg hno]
  rw [htaken]

theorem aimed_accepts (lba : BitVec 32) (d : Drive) : (aimed lba d).accepts = true ↔ sector lba < d.total := by
  obtain ⟨haddr, hone, hlba, -⟩ := aimed_address lba d
  unfold Drive.accepts
  rw [haddr, hone, decide_eq_true hlba, Bool.true_and, decide_eq_true_iff]
  exact Iff.rfl

/-! ### One sector -/

theorem in_word_eq {at_ i left : Nat} (hmode : d.mode = .reading at_ left) :
    in_word buf i (m, d) = (m.blit (buf + 2 * i) 2 d.sectors at_,
      { d with mode := if left ≤ 1 then .idle else .reading (at_ + 2) (left - 1) }) := by
  have hle : (BitVec.ofNat 16 (d.sectors.le at_ 2)).toNat = d.sectors.le at_ 2 := by
    rw [BitVec.toNat_ofNat]
    exact Nat.mod_eq_of_lt (le_lt 2 _)
  have hin : inw 0x1F0 d = (BitVec.ofNat 16 (d.sectors.le at_ 2),
      { d with mode := if left ≤ 1 then .idle else .reading (at_ + 2) (left - 1) }) := by
    unfold inw
    rw [if_pos rfl, hmode]
  unfold in_word
  dsimp only
  rw [hin]
  dsimp only
  rw [hle, setLe_le]

/-- `n` words of a sector, not all of them. -/
theorem read_words {at_ : Nat} (hmode : d.mode = .reading at_ 256) (hn : n < 256) :
    loop (in_word buf) n (m, d) =
      (m.blit buf (2 * n) d.sectors at_, { d with mode := .reading (at_ + 2 * n) (256 - n) }) := by
  refine loop_induct (P := fun i s => s = (m.blit buf (2 * i) d.sectors at_,
    { d with mode := .reading (at_ + 2 * i) (256 - i) })) ?_ fun i s hi hs => ?_
  · show (m, d) = _
    rw [Nat.mul_zero, blit_nothing, Nat.add_zero, Nat.sub_zero, ← hmode]
  · rw [hs, in_word_eq rfl, if_neg (by omega)]
    show ((m.blit buf (2 * i) d.sectors at_).blit (buf + 2 * i) 2 d.sectors (at_ + 2 * i), _) = _
    rw [blit_append]
    rfl

theorem read_sector {at_ : Nat} (hmode : d.mode = .reading at_ 256) :
    loop (in_word buf) 256 (m, d) = (m.blit buf 512 d.sectors at_, { d with mode := .idle }) := by
  have hlast : loop (in_word buf) 256 (m, d) = in_word buf 255 (loop (in_word buf) 255 (m, d)) :=
    loop_succ _ 255 _
  rw [hlast, read_words hmode (by decide), in_word_eq rfl]
  show ((m.blit buf (2 * 255) d.sectors at_).blit (buf + 2 * 255) 2 d.sectors (at_ + 2 * 255), _) = _
  rw [blit_append]
  rfl

theorem out_word_eq {at_ i left : Nat} (hmode : d.mode = .writing at_ left) :
    out_word m buf i d =
      if left ≤ 1 then { d with
        sectors := d.sectors.blit at_ 2 m (buf + 2 * i), mode := .idle
        busy := d.delay d.commands, commands := d.commands + 1 }
      else { d with sectors := d.sectors.blit at_ 2 m (buf + 2 * i), mode := .writing (at_ + 2) (left - 1) } := by
  have hle : (BitVec.ofNat 16 (m.le (buf + 2 * i) 2)).toNat = m.le (buf + 2 * i) 2 := by
    rw [BitVec.toNat_ofNat]
    exact Nat.mod_eq_of_lt (le_lt 2 _)
  unfold out_word outw
  rw [if_pos rfl, hmode]
  dsimp only
  rw [hle, setLe_le]

theorem write_words {at_ : Nat} (hmode : d.mode = .writing at_ 256) (hn : n < 256) :
    loop (out_word m buf) n d = { d with
      sectors := d.sectors.blit at_ (2 * n) m buf, mode := .writing (at_ + 2 * n) (256 - n) } := by
  refine loop_induct (P := fun i s => s = { d with
    sectors := d.sectors.blit at_ (2 * i) m buf, mode := .writing (at_ + 2 * i) (256 - i) }) ?_ fun i s hi hs => ?_
  · rw [Nat.mul_zero, blit_nothing, Nat.add_zero, Nat.sub_zero, ← hmode]
  · rw [hs, out_word_eq rfl, if_neg (by omega)]
    show ({ d with
      sectors := (d.sectors.blit at_ (2 * i) m buf).blit (at_ + 2 * i) 2 m (buf + 2 * i), mode := _ } : Drive) = _
    rw [blit_append]
    rfl

theorem write_sector {at_ : Nat} (hmode : d.mode = .writing at_ 256) :
    loop (out_word m buf) 256 d = { d with
      sectors := d.sectors.blit at_ 512 m buf, mode := .idle
      busy := d.delay d.commands, commands := d.commands + 1 } := by
  have hlast : loop (out_word m buf) 256 d = out_word m buf 255 (loop (out_word m buf) 255 d) := loop_succ _ 255 _
  rw [hlast, write_words hmode (by decide), out_word_eq rfl, if_pos (by decide)]
  show ({ d with
    sectors := (d.sectors.blit at_ (2 * 255) m buf).blit (at_ + 2 * 255) 2 m (buf + 2 * 255), mode := _,
    busy := _, commands := _ } : Drive) = _
  rw [blit_append]

theorem timeout_pos : 0 < TIMEOUT := by
  unfold TIMEOUT
  decide

/-- A flush is lost on a busy drive, and leaves the others at rest. -/
theorem flush_eq (d : Drive) : d.command 0xE7 = d ∨ ∃ mode : Mode, mode.transfers = false ∧
    d.command 0xE7 = { d with busy := d.delay d.commands, commands := d.commands + 1, mode } := by
  unfold command
  split
  · exact Or.inl rfl
  · refine Or.inr ⟨_, ?_, rfl⟩
    split
    · rfl
    · rfl

theorem wait_not_busy (ha : d.floating = none) (hb : d.busy < TIMEOUT) :
    ata_wait_not_busy d = (0, { d with busy := 0 }) := not_busy_loop_spec TIMEOUT d ha hb

/-- The drive has taken a command for a sector, or refused it, and the driver has waited. -/
theorem issued (hs : Settled d) (hq : Quick d) (lba : BitVec 32) (cmd : BitVec 8) (mode : Mode)
    (hmode : ∀ e : Drive, e = aimed lba { d with busy := 0 } →
      (if cmd = 0x20 then if e.accepts then Mode.reading (e.address * 512) (e.wanted * 256) else .failed
      else if cmd = 0x30 then if e.accepts then Mode.writing (e.address * 512) (e.wanted * 256) else .failed
      else if cmd = 0xE7 then .idle else if cmd = 0xEC then .identifying 0 else .failed) =
      if sector lba < d.total then mode else .failed)
    (htrans : mode.transfers = true) :
    ∃ e, Like d e ∧ e.floating = none ∧ e.busy = 0 ∧ e.sectors = d.sectors ∧
      e.mode = (if Served lba d then mode else .failed) ∧
      ata_wait_ready (issue lba cmd { d with busy := 0 }) = (if Served lba d then 0 else -1, e) := by
  have hs0 : Settled { d with busy := 0 } := ⟨hs.attached, hs.still, timeout_pos⟩
  let e : Drive := { aimed lba { d with busy := 0 } with
    busy := d.delay d.commands, commands := d.commands + 1
    mode := if Served lba { d with busy := 0 } then mode else .failed }
  have hissue : issue lba cmd { d with busy := 0 } = e := issue_spec hs0 rfl lba (hmode _ rfl)
  have hwait : ata_wait_ready e = (if e.mode.transfers then 0 else -1, { e with busy := 0 }) :=
    ready_loop_spec TIMEOUT e hs.attached (hq _)
  refine ⟨{ e with busy := 0 }, ⟨rfl, rfl, rfl, rfl⟩, hs.attached, rfl, rfl, rfl, ?_⟩
  have hresult : (if e.mode.transfers then (0 : Int) else -1) = if Served lba d then 0 else -1 := by
    by_cases h : Served lba d
    · have hm : e.mode = mode := if_pos h
      rw [hm, htrans, if_pos h]
      rfl
    · have hm : e.mode = .failed := if_neg h
      rw [hm, if_neg h]
      rfl
  rw [hissue, hwait, hresult]

/-- Reading a sector: it is in the buffer, or nothing was touched. -/
theorem read_one (hs : Settled d) (hq : Quick d) (lba : BitVec 32) (buf : Nat) (m : Store) :
    ∃ d', Like d d' ∧ Settled d' ∧ d'.sectors = d.sectors ∧
      ata_read_one_sector lba buf m d =
        if Served lba d then (0, m.blit buf 512 d.sectors (sector lba * 512), d') else (-1, m, d') := by
  obtain ⟨e, hlike, hatt, hzero, hsec, hmode, hwait⟩ :=
    issued hs hq lba 0x20 (.reading (sector lba * 512) 256) (fun e he => by
      obtain ⟨haddr, hone, -, -⟩ := aimed_address lba { d with busy := 0 }
      rw [he, if_pos rfl, haddr, hone]
      by_cases hin : sector lba < d.total
      · rw [if_pos ((aimed_accepts lba { d with busy := 0 }).mpr hin), if_pos hin]
      · rw [if_neg fun hc => hin ((aimed_accepts lba { d with busy := 0 }).mp hc), if_neg hin]) rfl
  unfold ata_read_one_sector
  rw [wait_not_busy hs.attached hs.soon]
  dsimp only
  rw [if_neg (fun hc : (0 : Int) ≠ 0 => hc rfl), hwait]
  dsimp only
  by_cases h : Served lba d
  · rw [if_pos h] at hmode
    refine ⟨{ e with mode := .idle }, hlike.trans ⟨rfl, rfl, rfl, rfl⟩, ⟨hatt, rfl, by rw [hzero]; exact timeout_pos⟩,
      hsec, ?_⟩
    rw [if_pos h, if_pos h, if_neg (fun hc : (0 : Int) ≠ 0 => hc rfl), read_sector hmode, hsec]
  · rw [if_neg h] at hmode
    refine ⟨e, hlike, ⟨hatt, by rw [hmode]; rfl, by rw [hzero]; exact timeout_pos⟩, hsec, ?_⟩
    rw [if_neg h, if_neg h, if_pos (by decide)]

/-- Writing a sector: it is on the medium, or the medium is as it was. -/
theorem write_one (hs : Settled d) (hq : Quick d) (lba : BitVec 32) (buf : Nat) (m : Store) :
    ∃ d', Like d d' ∧ Settled d' ∧
      d'.sectors = (if Served lba d then d.sectors.blit (sector lba * 512) 512 m buf else d.sectors) ∧
      ata_write_one_sector lba buf m d = (if Served lba d then 0 else -1, d') := by
  obtain ⟨e, hlike, hatt, hzero, hsec, hmode, hwait⟩ :=
    issued hs hq lba 0x30 (.writing (sector lba * 512) 256) (fun e he => by
      obtain ⟨haddr, hone, -, -⟩ := aimed_address lba { d with busy := 0 }
      rw [he, if_neg (by decide), if_pos rfl, haddr, hone]
      by_cases hin : sector lba < d.total
      · rw [if_pos ((aimed_accepts lba { d with busy := 0 }).mpr hin), if_pos hin]
      · rw [if_neg fun hc => hin ((aimed_accepts lba { d with busy := 0 }).mp hc), if_neg hin]) rfl
  unfold ata_write_one_sector
  rw [wait_not_busy hs.attached hs.soon]
  dsimp only
  rw [if_neg (fun hc : (0 : Int) ≠ 0 => hc rfl), hwait]
  dsimp only
  by_cases h : Served lba d
  · rw [if_pos h] at hmode
    let w : Drive := { e with
      sectors := e.sectors.blit (sector lba * 512) 512 m buf, mode := .idle
      busy := e.delay e.commands, commands := e.commands + 1 }
    have hflush : ∃ f, outb 0x1F7 0xE7 w = f ∧ Like e f ∧ f.mode.transfers = false ∧ f.busy < TIMEOUT ∧
        f.sectors = w.sectors := by
      refine ⟨w.command 0xE7, rfl, ?_⟩
      rcases flush_eq w with h | ⟨mode, hm, h⟩
      · rw [h]
        exact ⟨⟨rfl, rfl, rfl, rfl⟩, rfl, hq.like hlike _, rfl⟩
      · rw [h]
        exact ⟨⟨rfl, rfl, rfl, rfl⟩, hm, hq.like hlike _, rfl⟩
    obtain ⟨f, hf, hlf, hstill, hsoonf, hsecf⟩ := hflush
    have hattf : f.floating = none := hlf.floating.trans hatt
    refine ⟨{ f with busy := 0 }, hlike.trans (hlf.trans ⟨rfl, rfl, rfl, rfl⟩), ⟨hattf, hstill, timeout_pos⟩, ?_, ?_⟩
    · rw [if_pos h]
      show f.sectors = _
      rw [hsecf]
      show e.sectors.blit _ _ _ _ = _
      rw [hsec]
    · rw [if_pos h, if_neg (fun hc : (0 : Int) ≠ 0 => hc rfl), write_sector hmode]
      show ((0 : Int), (ata_wait_not_busy (outb 0x1F7 0xE7 w)).2) = _
      rw [hf, wait_not_busy hattf hsoonf]
  · rw [if_neg h] at hmode
    refine ⟨e, hlike, ⟨hatt, by rw [hmode]; rfl, by rw [hzero]; exact timeout_pos⟩, by rw [if_neg h, hsec], ?_⟩
    rw [if_neg h, if_pos (by decide)]

/-! ### Several sectors -/

/-- What a call returns, of `BLOCKDEV_API`'s outcomes. -/
def code : Option Nat → Int
  | none => 0
  | some _ => -1

/-- How many of `n` sectors went through. -/
def moved (o : Option Nat) (n : Nat) : Nat :=
  match o with
  | none => n
  | some k => min k n

/-- One sector more. -/
theorem moved_succ (o : Option Nat) (n : Nat) : moved (o.map (· + 1)) (n + 1) = 1 + moved o n := by
  cases o with
  | none => exact Nat.add_comm n 1
  | some k =>
      show min (k + 1) (n + 1) = 1 + min k n
      omega

theorem code_map (o : Option Nat) : code (o.map (· + 1)) = code o := by cases o <;> rfl

/-- Up to the end of what 28 bits address, a round names the sector it should, and its place in the
buffer. -/
theorem round_at (start : BitVec 64) {i : Nat} (h : start.toNat + i < 2 ^ 28) (hi : i < 2 ^ 23) :
    sector ((start + BitVec.ofNat 64 i).setWidth 32) = start.toNat + i ∧
      (BitVec.ofNat 32 i * 512).toNat = i * 512 := by
  refine ⟨?_, ?_⟩
  · unfold sector
    rw [BitVec.toNat_setWidth, BitVec.toNat_add, BitVec.toNat_ofNat]
    omega
  · rw [BitVec.toNat_mul, BitVec.toNat_ofNat]
    show i % 2 ^ 32 * 512 % 2 ^ 32 = _
    omega

theorem read_loop_spec (start : BitVec 64) (buffer : Nat) : ∀ (n i : Nat) (m : Store) (d : Drive), Settled d → Quick d →
    start.toNat + i + n ≤ 2 ^ 28 → i + n ≤ 2 ^ 23 →
    ∃ o d', Like d d' ∧ Settled d' ∧ d'.sectors = d.sectors ∧
      ((∀ k, d.fault k = false) → start.toNat + i + n ≤ d.total → o = none) ∧
      read_loop start buffer n i m d = (code o,
        m.blit (buffer + i * 512) (moved o n * 512) d.sectors ((start.toNat + i) * 512), d') := by
  intro n
  induction n with
  | zero =>
      intro i m d hs _ _ _
      refine ⟨none, d, ⟨rfl, rfl, rfl, rfl⟩, hs, rfl, fun _ _ => rfl, ?_⟩
      show (0, m, d) = _
      rw [show moved none 0 * 512 = 0 from rfl, blit_nothing]
      rfl
  | succ n ih =>
      intro i m d hs hq hlba hi
      obtain ⟨hsector, hoff⟩ := round_at start (i := i) (by omega) (by omega)
      obtain ⟨d₁, hlike, hs₁, hsec, hone⟩ := read_one hs hq ((start + BitVec.ofNat 64 i).setWidth 32)
        (buffer + (BitVec.ofNat 32 i * 512).toNat) m
      rw [read_loop, hone, hoff, hsector]
      by_cases hserved : Served ((start + BitVec.ofNat 64 i).setWidth 32) d
      · obtain ⟨o, d', hlike', hs', hsec', hnone, hrest⟩ :=
          ih (i + 1) (m.blit (buffer + i * 512) 512 d.sectors ((start.toNat + i) * 512)) d₁ hs₁ (hq.like hlike)
            (by omega) (by omega)
        refine ⟨o.map (· + 1), d', hlike.trans hlike', hs', hsec'.trans hsec, fun hf ht => ?_, ?_⟩
        · rw [hnone (fun k => by rw [hlike.fault]; exact hf k) (by rw [hlike.total]; omega)]
          rfl
        · rw [if_pos hserved]
          dsimp only
          rw [if_neg (fun hc : (0 : Int) ≠ 0 => hc rfl), hrest, hsec, code_map, moved_succ,
            show buffer + (i + 1) * 512 = buffer + i * 512 + 512 by omega,
            show (start.toNat + (i + 1)) * 512 = (start.toNat + i) * 512 + 512 by omega, blit_append,
            show (1 + moved o n) * 512 = 512 + moved o n * 512 by omega]
      · refine ⟨some 0, d₁, hlike, hs₁, hsec, fun hf ht => absurd ⟨hf _, by rw [hsector]; omega⟩ hserved, ?_⟩
        rw [if_neg hserved]
        dsimp only
        rw [if_pos (by decide), show moved (some 0) (n + 1) * 512 = 0 by simp [moved], blit_nothing]
        rfl

theorem write_loop_spec (start : BitVec 64) (buffer : Nat) (m : Store) : ∀ (n i : Nat) (d : Drive), Settled d → Quick d →
    start.toNat + i + n ≤ 2 ^ 28 → i + n ≤ 2 ^ 23 →
    ∃ o d', Like d d' ∧ Settled d' ∧
      d'.sectors = d.sectors.blit ((start.toNat + i) * 512) (moved o n * 512) m (buffer + i * 512) ∧
      ((∀ k, d.fault k = false) → start.toNat + i + n ≤ d.total → o = none) ∧
      write_loop start buffer m n i d = (code o, d') := by
  intro n
  induction n with
  | zero =>
      intro i d hs _ _ _
      refine ⟨none, d, ⟨rfl, rfl, rfl, rfl⟩, hs, ?_, fun _ _ => rfl, rfl⟩
      rw [show moved none 0 * 512 = 0 from rfl, blit_nothing]
  | succ n ih =>
      intro i d hs hq hlba hi
      obtain ⟨hsector, hoff⟩ := round_at start (i := i) (by omega) (by omega)
      obtain ⟨d₁, hlike, hs₁, hsec, hone⟩ := write_one hs hq ((start + BitVec.ofNat 64 i).setWidth 32)
        (buffer + (BitVec.ofNat 32 i * 512).toNat) m
      rw [write_loop, hone]
      rw [hoff, hsector] at hsec
      by_cases hserved : Served ((start + BitVec.ofNat 64 i).setWidth 32) d
      · obtain ⟨o, d', hlike', hs', hsec', hnone, hrest⟩ :=
          ih (i + 1) d₁ hs₁ (hq.like hlike) (by omega) (by omega)
        refine ⟨o.map (· + 1), d', hlike.trans hlike', hs', ?_, fun hf ht => ?_, ?_⟩
        · rw [hsec', hsec, if_pos hserved, moved_succ,
            show buffer + (i + 1) * 512 = buffer + i * 512 + 512 by omega,
            show (start.toNat + (i + 1)) * 512 = (start.toNat + i) * 512 + 512 by omega, blit_append,
            show (1 + moved o n) * 512 = 512 + moved o n * 512 by omega]
        · rw [hnone (fun k => by rw [hlike.fault]; exact hf k) (by rw [hlike.total]; omega)]
          rfl
        · rw [if_pos hserved]
          dsimp only
          rw [if_neg (fun hc : (0 : Int) ≠ 0 => hc rfl), hrest, code_map]
      · refine ⟨some 0, d₁, hlike, hs₁, ?_, fun hf ht => absurd ⟨hf _, by rw [hsector]; omega⟩ hserved, ?_⟩
        · rw [hsec, if_neg hserved, show moved (some 0) (n + 1) * 512 = 0 by simp [moved], blit_nothing]
        · rw [if_neg hserved]
          dsimp only
          rw [if_pos (by decide)]
          rfl

/-! ### Calls one after the other -/

/-- A call, with the memory it is made in. -/
structure Call where
  write : Bool
  lba : BitVec 64
  count : BitVec 32
  buffer : Nat
  mem : Store

namespace Call

/-- The sectors are among those 28 bits can name, and the bytes among those 32 bits can count. -/
def Fits (c : Call) : Prop := c.lba.toNat + c.count.toNat ≤ 2 ^ 28 ∧ c.count.toNat ≤ 2 ^ 23

/-- On the drive: what is returned, the memory then, and the drive. -/
def run (c : Call) (d : Drive) : (Int × Store) × Drive :=
  if c.write then
    let (r, d) := ata_write_sectors c.lba c.count c.buffer c.mem d
    ((r, c.mem), d)
  else
    let (r, m, d) := ata_read_sectors c.lba c.count c.buffer c.mem d
    ((r, m), d)

/-- On a device. -/
def runOn (c : Call) (dev : BLOCKDEV_API) : (Int × Store) × BLOCKDEV_API :=
  if c.write then
    let (r, dev) := dev.write_sectors c.lba.toNat c.count.toNat c.mem c.buffer
    ((r, c.mem), dev)
  else
    let (r, m, dev) := dev.read_sectors c.lba.toNat c.count.toNat c.mem c.buffer
    ((r, m), dev)

/-- All of them, in order. -/
def all {σ : Type} (run : Call → σ → (Int × Store) × σ) : List Call → σ → List (Int × Store) × σ
  | [], s => ([], s)
  | c :: cs, s =>
    let (a, s) := run c s
    let (as, s) := all run cs s
    (a :: as, s)

theorem all_cons {σ : Type} (run : Call → σ → (Int × Store) × σ) (c : Call) (cs : List Call) (s : σ) :
    all run (c :: cs) s = ((run c s).1 :: (all run cs (run c s).2).1, (all run cs (run c s).2).2) := rfl

end Call

/-- What a call on a device comes to. -/
theorem Call.runOn_eq {c : Call} {dev : BLOCKDEV_API} {o : Option Nat} (h : dev.io dev.ops = o) :
    c.runOn dev =
      if c.write then ((code o, c.mem), { dev with
        ops := dev.ops + 1
        sectors := dev.sectors.blit (c.lba.toNat * 512) (moved o c.count.toNat * 512) c.mem c.buffer })
      else ((code o, c.mem.blit c.buffer (moved o c.count.toNat * 512) dev.sectors (c.lba.toNat * 512)),
        { dev with ops := dev.ops + 1 }) := by
  have hcount : c.count.toNat % 2 ^ 32 = c.count.toNat := Nat.mod_eq_of_lt c.count.isLt
  unfold Call.runOn BLOCKDEV_API.write_sectors BLOCKDEV_API.read_sectors
  rw [h, hcount]
  cases o <;> rfl

/-- A call on the drive is the call on a device, with some outcome. -/
theorem Call.run_device {c : Call} (hs : Settled d) (hq : Quick d) (hc : c.Fits) :
    ∃ o, Like d (c.run d).2 ∧ Settled (c.run d).2 ∧
      ((∀ k, d.fault k = false) → c.lba.toNat + c.count.toNat ≤ d.total → o = none) ∧
      ∀ dev : BLOCKDEV_API, dev.sectors = d.sectors → dev.io dev.ops = o →
        (c.runOn dev).1 = (c.run d).1 ∧ (c.runOn dev).2.sectors = (c.run d).2.sectors ∧
          (c.runOn dev).2.io = dev.io ∧ (c.runOn dev).2.ops = dev.ops + 1 := by
  by_cases hw : c.write = true
  · obtain ⟨o, d', hlike, hs', hsec, hnone, hrun⟩ :=
      write_loop_spec c.lba c.buffer c.mem c.count.toNat 0 d hs hq (by simpa using hc.1) (by simpa using hc.2)
    have hcall : c.run d = ((code o, c.mem), d') := by
      unfold Call.run ata_write_sectors
      rw [if_pos hw, hrun]
    rw [hcall]
    refine ⟨o, hlike, hs', hnone, fun dev hdev hio => ?_⟩
    rw [Call.runOn_eq hio, if_pos hw]
    refine ⟨rfl, ?_, rfl, rfl⟩
    show dev.sectors.blit _ _ _ _ = d'.sectors
    rw [hsec, hdev, Nat.add_zero, Nat.zero_mul, Nat.add_zero]
  · obtain ⟨o, d', hlike, hs', hsec, hnone, hrun⟩ :=
      read_loop_spec c.lba c.buffer c.count.toNat 0 c.mem d hs hq (by simpa using hc.1) (by simpa using hc.2)
    have hcall : c.run d =
        ((code o, c.mem.blit c.buffer (moved o c.count.toNat * 512) d.sectors (c.lba.toNat * 512)), d') := by
      unfold Call.run ata_read_sectors
      rw [if_neg hw, hrun, Nat.zero_mul, Nat.add_zero, Nat.add_zero]
    rw [hcall]
    refine ⟨o, hlike, hs', hnone, fun dev hdev hio => ?_⟩
    rw [Call.runOn_eq hio, if_neg hw, hdev]
    exact ⟨rfl, hsec.symm, rfl, rfl⟩

/-- The outcome of the first call, and of those behind it. -/
def outcomes (o : Option Nat) (io : Nat → Option Nat) : Nat → Option Nat
  | 0 => o
  | n + 1 => io n

/-- Calls on the drive are calls on a device. -/
theorem all_device : ∀ (cs : List Call) (d : Drive), Settled d → Quick d → (∀ c ∈ cs, c.Fits) →
    ∃ io : Nat → Option Nat,
      ((∀ k, d.fault k = false) → (∀ c ∈ cs, c.lba.toNat + c.count.toNat ≤ d.total) → ∀ n, io n = none) ∧
      ∀ dev : BLOCKDEV_API, dev.sectors = d.sectors → (∀ i, dev.io (dev.ops + i) = io i) →
        (Call.all Call.runOn cs dev).1 = (Call.all Call.run cs d).1 ∧
          (Call.all Call.runOn cs dev).2.sectors = (Call.all Call.run cs d).2.sectors := by
  intro cs
  induction cs with
  | nil =>
      intro d _ _ _
      exact ⟨fun _ => none, fun _ _ _ => rfl, fun dev hdev _ => ⟨rfl, hdev⟩⟩
  | cons c cs ih =>
      intro d hs hq hfits
      obtain ⟨o, hlike, hs', hnone, hcall⟩ := Call.run_device hs hq (hfits c List.mem_cons_self)
      obtain ⟨io, hall, hrest⟩ := ih (c.run d).2 hs' (hq.like hlike)
        fun c' hc' => hfits c' (List.mem_cons_of_mem _ hc')
      refine ⟨outcomes o io, fun hf ht n => ?_, fun dev hdev hio => ?_⟩
      · cases n with
        | zero => exact hnone hf (ht c List.mem_cons_self)
        | succ n =>
            refine hall (fun k => by rw [hlike.fault]; exact hf k) (fun c' hc' => ?_) n
            rw [hlike.total]
            exact ht c' (List.mem_cons_of_mem _ hc')
      · obtain ⟨hans, hsec, hio', hops⟩ := hcall dev hdev (hio 0)
        obtain ⟨htail, hend⟩ := hrest (c.runOn dev).2 hsec fun i => by
          rw [hio', hops, Nat.add_assoc, Nat.add_comm 1 i]
          exact hio (i + 1)
        rw [Call.all_cons, Call.all_cons]
        exact ⟨by rw [hans, htail], hend⟩

/-! ### Detection -/

theorem identify_words (hmode : d.mode = .identifying 0) (hn : n < 256) :
    loop id_word n ((fun _ => 0), d) =
      ((fun j => if j < n then d.identity j else 0), { d with mode := .identifying n }) := by
  refine loop_induct (P := fun i s => s = ((fun j => if j < i then d.identity j else 0),
    { d with mode := .identifying i })) ?_ fun i s hi hs => ?_
  · show ((fun _ => 0), d) = _
    rw [← hmode]
    congr 1
  · have hin : inw 0x1F0 { d with mode := .identifying i } =
        (d.identity i, { d with mode := .identifying (i + 1) }) := by
      unfold inw
      rw [if_pos rfl]
      show (d.identity i, { d with mode := if 255 ≤ i then _ else _ }) = _
      rw [if_neg (by omega)]
    unfold id_word
    rw [hs, hin]
    dsimp only
    congr 1
    funext j
    by_cases hj : j = i
    · rw [if_pos hj, if_pos (by omega), hj]
    · rw [if_neg hj]
      by_cases hlt : j < i
      · rw [if_pos hlt, if_pos (by omega)]
      · rw [if_neg hlt, if_neg (by omega)]

theorem identify_all (hmode : d.mode = .identifying 0) :
    ∃ id_buf : Nat → BitVec 16, id_buf 60 = d.identity 60 ∧ id_buf 61 = d.identity 61 ∧
      loop id_word 256 ((fun _ => 0), d) = (id_buf, { d with mode := .idle }) := by
  have hlast : loop id_word 256 ((fun _ => 0), d) = id_word 255 (loop id_word 255 ((fun _ => 0), d)) :=
    loop_succ _ 255 _
  rw [hlast, identify_words hmode (by decide)]
  have hin : inw 0x1F0 { d with mode := .identifying 255 } = (d.identity 255, { d with mode := .idle }) := by
    unfold inw
    rw [if_pos rfl]
    show (d.identity 255, { d with mode := if 255 ≤ 255 then _ else _ }) = _
    rw [if_pos (by decide)]
  unfold id_word
  rw [hin]
  exact ⟨fun j => if j = 255 then d.identity 255 else if j < 255 then d.identity j else 0, rfl, rfl, rfl⟩

/-- The two words of the capacity. -/
theorem toNat_capacity (a b : BitVec 16) :
    (a.setWidth 32 ||| b.setWidth 32 <<< 16 : BitVec 32).toNat = a.toNat + b.toNat * 2 ^ 16 := by
  have ha := a.isLt
  have hb := b.isLt
  rw [BitVec.toNat_or, BitVec.toNat_shiftLeft, BitVec.toNat_setWidth, BitVec.toNat_setWidth, Nat.shiftLeft_eq,
    Nat.mod_eq_of_lt (show a.toNat < 2 ^ 32 by omega), Nat.mod_eq_of_lt (show b.toNat < 2 ^ 32 by omega),
    Nat.mod_eq_of_lt (show b.toNat * 2 ^ 16 < 2 ^ 32 by omega), Nat.or_comm, Nat.mul_comm,
    ← Nat.two_pow_add_eq_or_of_lt ha]
  omega

theorem identify_spec {e : Drive} (hatt : e.floating = none) (hzero : e.busy = 0) (hmode : e.mode = .identifying 0) :
    ∃ (size : BitVec 64) (e' : Drive), identify e = (size, e') ∧ Like e e' ∧ Settled e' ∧ e'.sectors = e.sectors ∧
      size.toNat = if e.total = 0 then 131072 else e.total := by
  obtain ⟨id_buf, h60, h61, hwords⟩ := identify_all hmode
  have hcap := toNat_capacity (id_buf 60) (id_buf 61)
  rw [h60, h61] at hcap
  have hword := ((e.identity 60).setWidth 32 ||| (e.identity 61).setWidth 32 <<< 16 : BitVec 32).isLt
  have hsize : e.total = (e.identity 60).toNat + (e.identity 61).toNat * 2 ^ 16 := rfl
  have hrest : Settled { e with mode := .idle } := ⟨hatt, rfl, by rw [hzero]; exact timeout_pos⟩
  unfold identify
  rw [hwords]
  dsimp only
  rw [h60, h61, hsize, ← hcap]
  split
  · rename_i hpos
    rw [BitVec.lt_def] at hpos
    refine ⟨_, _, rfl, ⟨rfl, rfl, rfl, rfl⟩, hrest, rfl, ?_⟩
    rw [if_neg (Nat.pos_iff_ne_zero.mp hpos), BitVec.toNat_setWidth]
    exact Nat.mod_eq_of_lt (by omega)
  · rename_i hpos
    rw [BitVec.lt_def] at hpos
    refine ⟨_, _, rfl, ⟨rfl, rfl, rfl, rfl⟩, hrest, rfl, ?_⟩
    rw [if_pos (Nat.eq_zero_of_not_pos hpos)]
    rfl

/-- A drive that is there and takes the command is found, with the size its identification says. -/
theorem init_spec (hidle : d.mode = .idle) (hzero : d.busy = 0) (hq : Quick d) :
    if d.floating = none ∧ d.fault d.commands = false then
      ∃ (size : BitVec 64) (d' : Drive), ata_init d = (some size, d') ∧ Like d d' ∧ Settled d' ∧
        d'.sectors = d.sectors ∧ size.toNat = if d.total = 0 then 131072 else d.total
    else (ata_init d).1 = none := by
  let e : Drive := { d with head := 0xA0, count := 0, low := 0, mid := 0, high := 0 }
  have hcmd : outb 0x1F7 0xEC (outb 0x1F5 0 (outb 0x1F4 0 (outb 0x1F3 0 (outb 0x1F2 0 (outb 0x1F6 0xA0 d))))) =
      e.command 0xEC := rfl
  have hnothing : ∀ d', ata_probe d = (0, d') → (ata_init d).1 = none := by
    intro d' h
    unfold ata_init
    rw [h]
    rfl
  cases hatt : d.floating with
  | some high =>
      have hlost : e.command 0xEC = e := by
        unfold command
        rw [if_pos (by
          show (d.floating.isSome || _ || _) = true
          rw [hatt]
          rfl)]
      have hin : inb 0x1F7 e = (if high then 0xFF else 0x00, e) := by
        unfold inb
        rw [if_pos rfl]
        show (match d.floating with | some high => _ | none => _) = _
        rw [hatt]
      rw [if_neg (fun hc => by cases hc.1)]
      refine hnothing e ?_
      unfold ata_probe
      dsimp only
      rw [hcmd, hlost, hin]
      dsimp only
      rw [if_pos (by cases high <;> decide)]
  | none =>
      let g : Drive := { e with
        busy := d.delay d.commands, commands := d.commands + 1
        mode := if d.fault d.commands then .failed else .identifying 0 }
      have htaken : e.command 0xEC = g := by
        unfold command
        rw [if_neg (by
          show ¬ (d.floating.isSome || decide (0 < d.busy) || d.mode.transfers) = true
          rw [hatt, hzero, hidle]
          decide)]
        have hmaster : decide (e.head &&& 0x10 ≠ 0) = false := (by decide : decide ((0xA0 : BitVec 8) &&& 0x10 ≠ 0) = false)
        rw [hmaster, Bool.or_false,
          if_neg (show ¬ (0xEC : BitVec 8) = 0x20 by decide), if_neg (show ¬ (0xEC : BitVec 8) = 0x30 by decide),
          if_neg (show ¬ (0xEC : BitVec 8) = 0xE7 by decide), if_pos (rfl : (0xEC : BitVec 8) = 0xEC)]
      have hstatus : ¬ (g.status = 0 ∨ g.status = 0xFF) := by
        by_cases hbusy : 0 < g.busy
        · rw [status_busy hbusy]
          decide
        · rcases status_free (d := g) (by omega) with ⟨-, hs⟩ | ⟨-, hs⟩ | ⟨-, hs⟩ <;> rw [hs] <;> decide
      have hsoon : g.busy - 1 < TIMEOUT := Nat.lt_of_le_of_lt (Nat.sub_le _ _) (hq d.commands)
      have hwait : ata_wait_ready { g with busy := g.busy - 1 } =
          (if g.mode.transfers then 0 else -1, { g with busy := 0 }) :=
        ready_loop_spec TIMEOUT { g with busy := g.busy - 1 } hatt hsoon
      have hprobe : ata_probe d =
          if (if g.mode.transfers then (0 : Int) else -1) ≠ 0 then (0, { g with busy := 0 })
          else identify { g with busy := 0 } := by
        unfold ata_probe
        dsimp only
        rw [hcmd, htaken, inb_status (d := g) hatt]
        dsimp only
        rw [if_neg hstatus, hwait]
      by_cases hfault : d.fault d.commands = true
      · have hmode : g.mode = .failed := if_pos hfault
        rw [if_neg (fun hc => absurd (hfault.symm.trans hc.2) (by decide))]
        refine hnothing { g with busy := 0 } (hprobe.trans (if_pos ?_))
        rw [hmode]
        decide
      · have hmode : g.mode = .identifying 0 := if_neg hfault
        obtain ⟨size, d', hid, hlike, hrest, hsec, hsize⟩ :=
          identify_spec (e := { g with busy := 0 }) hatt rfl hmode
        have hfound : ata_probe d = (size, d') := by
          rw [hprobe, if_neg (by rw [hmode]; decide), hid]
        have htotal : Drive.total { g with busy := 0 } = d.total := rfl
        rw [htotal] at hsize
        rw [if_pos ⟨rfl, by simpa using hfault⟩]
        have htaken' : Like d { g with busy := 0 } := ⟨rfl, rfl, rfl, rfl⟩
        refine ⟨size, d', ?_, htaken'.trans hlike, hrest, hsec, hsize⟩
        have hne : size ≠ 0 := by
          rintro rfl
          rw [show (0 : BitVec 64).toNat = 0 from rfl] at hsize
          split at hsize
          · exact absurd hsize (by decide)
          · exact absurd hsize.symm ‹_›
        unfold ata_init
        rw [hfound]
        exact if_neg hne

/-- `ata_dev`, over the sectors of a drive and outcomes of its calls. -/
def device (d : Drive) (total_sectors : Nat) (io : Nat → Option Nat) : BLOCKDEV_API where
  total_sectors := total_sectors
  sectors := d.sectors
  io := io
  ops := 0
  bitmap := 0
  total_blocks := 0
  free_blocks := 0
  last_free_block := 0

/-- A drive of 1000 sectors that answers at once. -/
def smallDrive : Drive where
  sectors := fun x => BitVec.ofNat 8 x
  identity := fun i => if i = 60 then 1000 else 0
  floating := none
  delay := fun _ => 3
  fault := fun _ => false
  commands := 0
  busy := 0
  head := 0
  count := 0
  low := 0
  mid := 0
  high := 0
  mode := .idle

end Ata

end Eke
