/-
The RAM disk.

Its sectors are 16 MB of memory, and reading and writing them is copying.  The test of the range is
made on `lba + count` in 64 bits: a `lba` close to `2^64` passes it and leads in front of the buffer.
Every other call reads and writes the array of sectors it should; `disk` is that array.
-/
import Eke.Lib.ByteLoops
import Eke.Lib.Throughout
import Eke.Memory.Pmm
import Eke.Storage.BlockDev

namespace Eke

open Store

def RAMDISK_PAGES : Nat := 4096

def RAMDISK_BYTES : Nat := RAMDISK_PAGES * 4096

def TOTAL_SECTORS : BitVec 64 := BitVec.ofNat 64 (RAMDISK_BYTES / SECTOR_SIZE)

/-- `ramdisk_buf`, once it is allocated. -/
structure RamDisk where
  ramdisk_buf : Nat
  room : ramdisk_buf + RAMDISK_BYTES < 2 ^ 64

namespace RamDisk

variable {d : RamDisk} {m : Store} {lba : BitVec 64} {count : BitVec 32} {buffer n : Nat}

/-- Addresses are taken modulo `2^64`. -/
def ram_memcpy (m : Store) (dest src n : Nat) : Store :=
  loop (fun i m => m.set ((dest + i) % 2 ^ 64) (m ((src + i) % 2 ^ 64))) n m

/-- `ramdisk_buf + offset` -/
def address (d : RamDisk) (lba : BitVec 64) : Nat := (d.ramdisk_buf + (lba * 512).toNat) % 2 ^ 64

/-- `count * SECTOR_SIZE`, in 32 bits. -/
def bytes (count : BitVec 32) : Nat := (count * 512).toNat

def ramdisk_read_sectors (d : RamDisk) (m : Store) (lba : BitVec 64) (count : BitVec 32) (buffer : Nat) :
    Int × Store :=
  if TOTAL_SECTORS < lba + count.setWidth 64 then (-1, m)
  else (0, ram_memcpy m buffer (d.address lba) (bytes count))

def ramdisk_write_sectors (d : RamDisk) (m : Store) (lba : BitVec 64) (count : BitVec 32) (buffer : Nat) :
    Int × Store :=
  if TOTAL_SECTORS < lba + count.setWidth 64 then (-1, m)
  else (0, ram_memcpy m (d.address lba) buffer (bytes count))

/-- The pages that `alloc_page` hands out for the disk. -/
theorem alloc_room {p : Pmm} (h : (p.alloc_page RAMDISK_PAGES).1 ≠ 0) :
    (p.alloc_page RAMDISK_PAGES).1 + RAMDISK_BYTES < 2 ^ 64 := by
  rcases p.alloc_page_spec RAMDISK_PAGES with ⟨hnone, -⟩ | ⟨page, hsome⟩
  · exact absurd hnone h
  · have hlast := (hsome.free (RAMDISK_PAGES - 1) (by decide)).2
    have haddr := hsome.addr_eq
    unfold MAX_PAGES BM_SIZE RAMDISK_PAGES at hlast
    unfold RAMDISK_BYTES
    rw [haddr]
    unfold RAMDISK_PAGES
    omega

/-- The memory with a zeroed disk. -/
def zeroed (d : RamDisk) (m : Store) : Store :=
  loop (fun i m => m.set (d.ramdisk_buf + i) 0) RAMDISK_BYTES m

def ramdisk_init (p : Pmm) (m : Store) : Option (RamDisk × Store) :=
  if h : (p.alloc_page RAMDISK_PAGES).1 = 0 then none
  else
    let d : RamDisk := ⟨(p.alloc_page RAMDISK_PAGES).1, alloc_room h⟩
    some (d, d.zeroed m)

/-! ### Copying -/

/-- No address of the two ranges wraps. -/
theorem memcpy_eq {dest src : Nat} (hdest : dest + n ≤ 2 ^ 64) (hsrc : src + n ≤ 2 ^ 64)
    (hapart : dest + n ≤ src ∨ src + n ≤ dest) : ram_memcpy m dest src n = m.blit dest n m src := by
  have hsame : ram_memcpy m dest src n = m.copyLoop dest src n := by
    refine loop_induct₂ (P := fun _ t t' => t = t') rfl fun i t t' hi ht => ?_
    rw [ht, Nat.mod_eq_of_lt (by omega), Nat.mod_eq_of_lt (by omega)]
  rw [hsame, copyLoop_eq hapart]

theorem zeroed_eq : d.zeroed m = m.fill d.ramdisk_buf RAMDISK_BYTES 0 := fillLoop_eq

/-! ### The range -/

/-- The sectors of a call are on the disk. -/
def InRange (lba : BitVec 64) (count : BitVec 32) : Prop := lba.toNat + count.toNat ≤ 32768

/-- The sum of a call that is out of range wraps to one in range. -/
def Wraps (lba : BitVec 64) (count : BitVec 32) : Prop :=
  2 ^ 64 ≤ lba.toNat + count.toNat ∧ lba.toNat + count.toNat ≤ 2 ^ 64 + 32768

/-- The test passes for the calls in range, and for those whose sum wraps. -/
theorem passes_iff : ¬ TOTAL_SECTORS < lba + count.setWidth 64 ↔ InRange lba count ∨ Wraps lba count := by
  have htotal : TOTAL_SECTORS.toNat = 32768 := rfl
  have hlba := lba.isLt
  have hcount := count.isLt
  rw [BitVec.lt_def, htotal, BitVec.toNat_add, BitVec.toNat_setWidth]
  unfold InRange Wraps
  omega

theorem InRange.address (h : InRange lba count) : d.address lba = d.ramdisk_buf + lba.toNat * 512 := by
  have hroom := d.room
  unfold InRange at h
  unfold RAMDISK_BYTES RAMDISK_PAGES at hroom
  unfold RamDisk.address
  rw [BitVec.toNat_mul]
  show (_ + lba.toNat * 512 % 2 ^ 64) % 2 ^ 64 = _
  omega

theorem InRange.bytes (h : InRange lba count) : RamDisk.bytes count = count.toNat * 512 := by
  unfold InRange at h
  unfold RamDisk.bytes
  rw [BitVec.toNat_mul]
  show count.toNat * 512 % 2 ^ 32 = _
  omega

/-! ### Calls one after the other -/

/-- A call, with a buffer of the caller's own. -/
structure Call (d : RamDisk) where
  write : Bool
  lba : BitVec 64
  count : BitVec 32
  buffer : Nat
  room : buffer + count.toNat * 512 ≤ 2 ^ 64
  apart : buffer + count.toNat * 512 ≤ d.ramdisk_buf ∨ d.ramdisk_buf + RAMDISK_BYTES ≤ buffer

/-- What is returned, and the memory then. -/
def Call.run (c : Call d) (m : Store) : Int × Store :=
  if c.write then d.ramdisk_write_sectors m c.lba c.count c.buffer
  else d.ramdisk_read_sectors m c.lba c.count c.buffer

/-- A call, or what the rest of the system writes into memory that is not the disk's. -/
inductive Event (d : RamDisk) where
  | call (c : Call d)
  | other (m : Store)

/-- The memory, and the bytes of the sectors as the writes that returned 0 have left them. -/
structure Used (d : RamDisk) where
  mem : Store
  disk : Store

namespace Used

variable {s : Used d} {c : Call d}

/-- The sectors behind a call. -/
def written (s : Used d) (c : Call d) : Store :=
  if c.write ∧ (c.run s.mem).1 = 0 then s.disk.blit (c.lba.toNat * 512) (c.count.toNat * 512) s.mem c.buffer
  else s.disk

def next (s : Used d) : Event d → Used d
  | .call c => ⟨(c.run s.mem).2, s.written c⟩
  | .other m =>
      ⟨fun x => if d.ramdisk_buf ≤ x ∧ x < d.ramdisk_buf + RAMDISK_BYTES then s.mem x else m x, s.disk⟩

/-- Behind `ramdisk_init`. -/
def start (d : RamDisk) (m : Store) : Used d := ⟨d.zeroed m, fun _ => 0⟩

/-- The disk's memory holds the sectors. -/
def Holds (s : Used d) : Prop := ∀ x, x < RAMDISK_BYTES → s.mem (d.ramdisk_buf + x) = s.disk x

/-- A call does what one to an array of sectors does. -/
structure Serves (s : Used d) (c : Call d) : Prop where
  returns : (c.run s.mem).1 = 0 ↔ c.lba.toNat + c.count.toNat ≤ 32768
  fails : (c.run s.mem).1 ≠ 0 → c.run s.mem = (-1, s.mem)
  /-- The bytes of the disk that are copied are in its buffer. -/
  inside : (c.run s.mem).1 = 0 → d.ramdisk_buf ≤ d.address c.lba ∧
    d.address c.lba + bytes c.count ≤ d.ramdisk_buf + RAMDISK_BYTES
  frame : ∀ x, (c.run s.mem).2 x ≠ s.mem x →
    if c.write then d.address c.lba ≤ x ∧ x < d.address c.lba + bytes c.count
    else c.buffer ≤ x ∧ x < c.buffer + c.count.toNat * 512
  read : c.write = false → (c.run s.mem).1 = 0 →
    ∀ i, i < c.count.toNat * 512 → (c.run s.mem).2 (c.buffer + i) = s.disk (c.lba.toNat * 512 + i)

/-- The calls are served, and the sectors are what the writes have left. -/
def Right (s : Used d) (e : Event d) : Prop :=
  (s.next e).Holds ∧ ∀ c, e = .call c → s.Serves c

/-- The sum of the call does not wrap to one in range. -/
def Straight (_ : Used d) (e : Event d) : Prop := ∀ c, e = .call c → ¬ Wraps c.lba c.count

/-- A call in range copies. -/
theorem run_inRange (h : InRange c.lba c.count) : c.run s.mem = (0,
    if c.write then s.mem.blit (d.ramdisk_buf + c.lba.toNat * 512) (c.count.toNat * 512) s.mem c.buffer
    else s.mem.blit c.buffer (c.count.toNat * 512) s.mem (d.ramdisk_buf + c.lba.toNat * 512)) := by
  have hpass := passes_iff.mpr (.inl h)
  have haddress := @InRange.address d _ _ h
  have hbytes := h.bytes
  have hroom := d.room
  have hbuffer := c.room
  have hapart := c.apart
  unfold InRange at h
  unfold RAMDISK_BYTES RAMDISK_PAGES at hroom hapart
  unfold Call.run ramdisk_write_sectors ramdisk_read_sectors
  rw [if_neg hpass, if_neg hpass, haddress, hbytes, memcpy_eq (by omega) (by omega) (by omega),
    memcpy_eq (by omega) (by omega) (by omega)]
  split <;> rfl

theorem run_outOfRange (h : ¬ InRange c.lba c.count) (hw : ¬ Wraps c.lba c.count) :
    c.run s.mem = (-1, s.mem) := by
  have hstop : TOTAL_SECTORS < c.lba + c.count.setWidth 64 :=
    not_not.mp fun hpass => (passes_iff.mp hpass).elim h hw
  unfold Call.run ramdisk_write_sectors ramdisk_read_sectors
  rw [if_pos hstop, if_pos hstop, ite_self]

/-- A call whose sum wraps is taken for one in range. -/
theorem run_wraps (hw : Wraps c.lba c.count) : (c.run s.mem).1 = 0 := by
  have hpass := passes_iff.mpr (.inr hw)
  unfold Call.run ramdisk_write_sectors ramdisk_read_sectors
  rw [if_neg hpass, if_neg hpass]
  split <;> rfl

/-- The sectors of a call in range are in the buffer. -/
theorem InRange.le_bytes (h : InRange c.lba c.count) :
    c.lba.toNat * 512 + c.count.toNat * 512 ≤ RAMDISK_BYTES := by
  unfold InRange at h
  unfold RAMDISK_BYTES RAMDISK_PAGES
  omega

theorem InRange.holds (hs : s.Holds) (h : InRange c.lba c.count) : (s.next (.call c)).Holds := by
  have hapart := c.apart
  have hle := InRange.le_bytes h
  intro x hx
  show (c.run s.mem).2 (d.ramdisk_buf + x) = s.written c x
  unfold written
  rw [run_inRange h]
  simp only
  by_cases hwrite : c.write = true
  · rw [if_pos hwrite, if_pos ⟨hwrite, trivial⟩]
    by_cases hin : c.lba.toNat * 512 ≤ x ∧ x < c.lba.toNat * 512 + c.count.toNat * 512
    · rw [blit_in (by omega) (by omega), blit_in hin.1 hin.2]
      exact congrArg s.mem (by omega)
    · rw [blit_out (by omega), blit_out (by omega)]
      exact hs x hx
  · rw [if_neg hwrite, if_neg fun hw => hwrite hw.1, blit_out (by omega)]
    exact hs x hx

theorem InRange.serves (hs : s.Holds) (h : InRange c.lba c.count) : s.Serves c := by
  have hzero : (c.run s.mem).1 = 0 := by rw [run_inRange h]
  have hle := InRange.le_bytes h
  refine ⟨iff_of_true hzero h, fun hne => absurd hzero hne, fun _ => ?_, fun x hx => ?_,
    fun hread _ i hi => ?_⟩
  · rw [h.address, h.bytes]
    omega
  · rw [run_inRange h] at hx
    rw [h.address, h.bytes]
    by_contra hout
    refine hx ?_
    show (if _ then _ else _ : Store) x = _
    by_cases hwrite : c.write = true
    · rw [if_pos hwrite] at hout ⊢
      exact blit_out (by omega)
    · rw [if_neg hwrite] at hout ⊢
      exact blit_out (by omega)
  · rw [run_inRange h, hread]
    show s.mem.blit _ _ _ _ _ = _
    rw [blit_in (by omega) (by omega), Nat.add_sub_cancel_left, Nat.add_assoc]
    exact hs _ (by omega)

/-- A call is served right exactly if its sum does not wrap to one in range. -/
theorem right_iff (hs : s.Holds) (e : Event d) : s.Right e ↔ s.Straight e := by
  cases e with
  | other m =>
      refine iff_of_true ⟨fun x hx => ?_, nofun⟩ nofun
      exact (if_pos ⟨Nat.le_add_right _ _, by omega⟩).trans (hs x hx)
  | call c =>
      have hcall : ∀ P : Call d → Prop, (∀ c', Event.call c = .call c' → P c') ↔ P c :=
        fun P => ⟨fun h => h c rfl, fun h c' hc => by cases hc; exact h⟩
      unfold Right Straight
      rw [hcall, hcall]
      by_cases h : InRange c.lba c.count
      · refine iff_of_true ⟨InRange.holds hs h, InRange.serves hs h⟩ fun hw => ?_
        unfold InRange at h
        unfold Wraps at hw
        omega
      · constructor
        · intro hright hw
          exact h (hright.2.returns.mp (run_wraps hw))
        · intro hw
          have hrun := @run_outOfRange d s c h hw
          have hzero : (c.run s.mem).1 ≠ 0 := by
            rw [hrun]
            show (-1 : Int) ≠ 0
            decide
          refine ⟨fun x hx => ?_, iff_of_false hzero h, fun _ => hrun, fun hz => absurd hz hzero,
            fun x hx => absurd (by rw [hrun]) hx, fun _ hz => absurd hz hzero⟩
          show (c.run s.mem).2 (d.ramdisk_buf + x) = s.written c x
          unfold written
          rw [if_neg fun hwrite => hzero hwrite.2, hrun]
          exact hs x hx

/-- `ramdisk_dev`, over the memory the sectors are in. -/
def device (d : RamDisk) (m : Store) : BLOCKDEV_API where
  total_sectors := TOTAL_SECTORS.toNat
  sectors := fun x => m (d.ramdisk_buf + x)
  io := fun _ => none
  ops := 0
  bitmap := 0
  total_blocks := 0
  free_blocks := 0
  last_free_block := 0

/-- Reading in range is reading from a device that does not fail. -/
theorem read_device (h : InRange c.lba c.count) (hread : c.write = false) :
    ((device d s.mem).read_sectors c.lba.toNat c.count.toNat s.mem c.buffer).1 = (c.run s.mem).1 ∧
      ((device d s.mem).read_sectors c.lba.toNat c.count.toNat s.mem c.buffer).2.1 = (c.run s.mem).2 := by
  rw [BLOCKDEV_API.read_sectors_ok rfl c.count.isLt, run_inRange h, hread]
  refine ⟨rfl, ?_⟩
  funext x
  show s.mem.blit _ _ _ _ x = s.mem.blit _ _ _ _ x
  unfold blit SECTOR_SIZE device
  simp only [Nat.add_assoc]

/-- Writing in range leaves the sectors that such a device leaves. -/
theorem write_device (h : InRange c.lba c.count) (hwrite : c.write = true) :
    ((device d s.mem).write_sectors c.lba.toNat c.count.toNat s.mem c.buffer).1 = (c.run s.mem).1 ∧
      ((device d s.mem).write_sectors c.lba.toNat c.count.toNat s.mem c.buffer).2.sectors =
        (device d (c.run s.mem).2).sectors := by
  rw [BLOCKDEV_API.write_sectors_ok rfl c.count.isLt, run_inRange h, hwrite]
  refine ⟨rfl, ?_⟩
  funext x
  show (device d s.mem).sectors.blit (c.lba.toNat * 512) (c.count.toNat * 512) s.mem c.buffer x =
    s.mem.blit _ _ _ _ (d.ramdisk_buf + x)
  by_cases hin : c.lba.toNat * 512 ≤ x ∧ x < c.lba.toNat * 512 + c.count.toNat * 512
  · rw [blit_in hin.1 hin.2, blit_in (by omega) (by omega)]
    exact congrArg s.mem (by omega)
  · rw [blit_out (by omega), blit_out (by omega)]
    rfl

theorem start_holds (d : RamDisk) (m : Store) : (start d m).Holds := by
  intro x hx
  show d.zeroed m (d.ramdisk_buf + x) = 0
  rw [zeroed_eq, fill_in (Nat.le_add_right _ _) (by omega)]

/-- **The RAM disk.**  A run is one on an array of sectors exactly if no call has a sum that wraps to one
in range. -/
theorem ramdisk_iff (d : RamDisk) (m : Store) (es : List (Event d)) :
    Throughout next Right (start d m) es ↔ Throughout next Straight (start d m) es :=
  Throughout.congr (I := Holds) (fun _ e hs => right_iff hs e) (fun _ _ _ h => h.1) (start_holds d m)

/-- A disk at 1 MB. -/
def megabyte : RamDisk := ⟨0x100000, by decide⟩

/-- The last sector of 64 bits. -/
def lastSector : Call megabyte := ⟨false, BitVec.ofNat 64 (2 ^ 64 - 1), 1, 0, by decide, by decide⟩

/-- A sector in front of the buffer is read. -/
theorem ramdisk_wraps : ¬ ∀ (d : RamDisk) (m : Store) (es : List (Event d)),
    Throughout next Right (start d m) es := by
  intro h
  have hright := (h megabyte (fun _ => 0) [.call lastSector]).1
  have hstraight := (right_iff (start_holds _ _) _).mp hright
  exact hstraight lastSector rfl (by unfold Wraps; decide)

end Used

end RamDisk

end Eke
