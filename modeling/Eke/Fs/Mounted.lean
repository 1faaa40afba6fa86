/-
The mounted file system.

`Mounted s d T` says how the static variables, the device and the page allocator fit
together once device `d` of `T` sectors is mounted: the superblock is the one
`eke_fs_format` computes, the bit map has a bit for every block, and the two
in-memory buffers lie apart in pages that the page allocator counts as used.  The
page that follows the file table's is not among them.  The table is 64 slots of 68
bytes, 4352 bytes, in a buffer of one page, so its last 256 bytes are in a page the
file system never asked for; `TailSafe` is what a page allocation has to avoid.

`volume` connects the state to the abstract volume, and the lemmas here say that an
operation on the bit map moves the volume's bits and nothing else.
-/
import Eke.Fs.Table

namespace Eke

/-- Sectors of the block bit map of a device of `T` sectors. -/
def bitmapSectors (T : Nat) : Nat := (Superblock.forDevice T).bitmap_block_count

/-- The first data block. -/
def dataStart (T : Nat) : Nat := (Superblock.forDevice T).data_start_lba

theorem dataStart_eq (T : Nat) : dataStart T = bitmapSectors T + 9 := by
  show 1 + bitmapSectors T + 8 = bitmapSectors T + 9
  omega

/-- The bytes of the file table in memory. -/
def tableBytes : Nat := FileEntrySize * MAX_FILES

/-- The two in-memory buffers, with `n` bytes of bit map. -/
structure Buffers (s : Sys) (n : Nat) : Prop where
  bitmap_ne : s.bitmap_buf ≠ 0
  table_ne : s.file_table ≠ 0
  table_page : s.file_table % 4096 = 0
  apart : s.bitmap_buf + n ≤ s.file_table ∨ s.file_table + tableBytes ≤ s.bitmap_buf
  bitmap_used : ∀ x, s.bitmap_buf ≤ x → x < s.bitmap_buf + n → s.pmm.used (x / 4096) = true
  table_used : s.pmm.used (s.file_table / 4096) = true

structure Mounted (s : Sys) (d T : Nat) : Prop where
  api : s.g_api = true
  active : s.active_dev = some d
  sb : s.active_sb = Superblock.forDevice T
  reliable : (s.disks d).Reliable
  bitmap : (s.disks d).bitmap = s.bitmap_buf
  blocks : (s.disks d).total_blocks = T
  covered : T ≤ 4096 * bitmapSectors T
  small : bitmapSectors T ≤ 2 ^ 23
  buffers : Buffers s (SECTOR_SIZE * bitmapSectors T)

/-- The volume the state of device `d` describes. -/
def volume (s : Sys) (d : Nat) : Volume where
  slot := slotAt s.mem s.file_table
  bit := s.mem.bit (s.disks d).bitmap
  free := (s.disks d).free_blocks

/-- A byte of one of the two buffers, the table's tail included. -/
def InBuffers (s : Sys) (T x : Nat) : Prop :=
  s.bitmap_buf ≤ x ∧ x < s.bitmap_buf + SECTOR_SIZE * bitmapSectors T ∨
    s.file_table ≤ x ∧ x < s.file_table + tableBytes

/--
A temporary buffer for `blocks` sectors, if there is one, stays clear of the last 256
bytes of the file table, which lie past the page the table was allocated.
-/
def TailSafe (s : Sys) (blocks : Nat) : Prop :=
  let temp := (s.pmm.alloc_page (toInt (temp_pages blocks))).1
  temp ≠ 0 → temp + 4096 * temp_pages blocks ≤ s.file_table + 4096 ∨
    s.file_table + tableBytes ≤ temp

variable {s : Sys} {d T : Nat}

theorem volume_clear (h : (s.disks d).total_blocks = T) :
    (volume s d).free = (volume s d).clear T ↔ Accurate s.mem (s.disks d) := by
  unfold Accurate Store.clearBits
  rw [h]
  rfl

theorem Mounted.lt_2_35 (h : Mounted s d T) : T ≤ 2 ^ 35 := by
  have := h.covered
  have := h.small
  omega

/-- The words of the bit map are inside its sectors. -/
theorem words_covered (h : T ≤ 4096 * bitmapSectors T) :
    8 * ((T + 63) / 64) ≤ SECTOR_SIZE * bitmapSectors T := by
  unfold SECTOR_SIZE
  omega

/-- A byte of a used bit of the bit map. -/
theorem bit_byte (h : T ≤ 4096 * bitmapSectors T) {b : Nat} (hb : b < T) :
    b / 8 < SECTOR_SIZE * bitmapSectors T := by
  unfold SECTOR_SIZE
  omega

/-! ### Temporary buffers -/

theorem toInt_of_lt {n : Nat} (h : n < 2 ^ 31) : toInt n = n := by
  unfold toInt
  rw [BitVec.toInt_eq_toNat_cond, BitVec.toNat_ofNat]
  rw [Nat.mod_eq_of_lt (by omega), if_pos (by omega)]

theorem temp_pages_lt (blocks : Nat) : temp_pages blocks < 2 ^ 20 := by
  unfold temp_pages
  omega

theorem toInt_temp_pages (blocks : Nat) : toInt (temp_pages blocks) = (temp_pages blocks : Int) :=
  toInt_of_lt (by have := temp_pages_lt blocks; omega)

/-- A buffer that was allocated at all is large enough, the sizes having not wrapped. -/
theorem temp_pages_room {blocks : Nat} (hb : blocks ≤ 2 ^ 23) (hp : temp_pages blocks ≠ 0) :
    blocks * SECTOR_SIZE ≤ 4096 * temp_pages blocks ∧ blocks * SECTOR_SIZE < 2 ^ 32 := by
  unfold temp_pages SECTOR_SIZE at *
  omega

theorem blocks_for_pos (bytes : Nat) : 0 < blocks_for bytes := by
  unfold blocks_for
  dsimp only
  split <;> omega

theorem blocks_for_bounds {bytes : Nat} (hb : bytes < 2 ^ 32) :
    blocks_for bytes ≤ 2 ^ 23 ∧ bytes ≤ blocks_for bytes * SECTOR_SIZE := by
  unfold blocks_for SECTOR_SIZE
  dsimp only
  split <;> omega

/-- The page run a temporary buffer takes avoids both buffers. -/
theorem temp_avoids (h : Mounted s d T) {blocks : Nat} (htail : TailSafe s blocks)
    (htemp : (s.pmm.alloc_page (toInt (temp_pages blocks))).1 ≠ 0) {x : Nat}
    (hx : InBuffers s T x) :
    let temp := (s.pmm.alloc_page (toInt (temp_pages blocks))).1
    x < temp ∨ temp + 4096 * temp_pages blocks ≤ x := by
  intro temp
  rcases Pmm.alloc_page_spec s.pmm (toInt (temp_pages blocks)) with ⟨h0, -⟩ | ⟨r, ha⟩
  · exact absurd h0 htemp
  have haddr : temp = r * 4096 := ha.addr_eq
  have hlen : (toInt (temp_pages blocks)).toNat = temp_pages blocks := by
    rw [toInt_temp_pages]
    rfl
  -- A byte of a used page is outside the run.
  have hpage : s.pmm.used (x / 4096) = true → x < temp ∨ temp + 4096 * temp_pages blocks ≤ x := by
    intro hu
    have := ha.avoids hu
    rw [hlen] at this
    omega
  rcases hx with ⟨hlo, hhi⟩ | ⟨hlo, hhi⟩
  · exact hpage (h.buffers.bitmap_used x hlo hhi)
  · by_cases hfirst : x < s.file_table + 4096
    · refine hpage ?_
      rw [show x / 4096 = s.file_table / 4096 by have := h.buffers.table_page; omega]
      exact h.buffers.table_used
    · rcases htail htemp with hle | hle
      · exact Or.inr (by omega)
      · exact Or.inl (by omega)

/-! ### Operations on the bit map -/

theorem table_slot {x i : Nat} (hi : i < MAX_FILES) (hlo : s.file_table + FileEntrySize * i ≤ x)
    (hhi : x < s.file_table + FileEntrySize * i + 45) :
    s.file_table ≤ x ∧ x < s.file_table + tableBytes := by
  unfold tableBytes FileEntrySize MAX_FILES at *
  omega

/-- Slots past the table are empty whatever the memory. -/
theorem slotAt_ge {m : Store} {ft i : Nat} (h : MAX_FILES ≤ i) : slotAt m ft i = none := by
  unfold slotAt
  rw [if_neg (by omega)]

/-- Memories that agree on the table show the same slots. -/
theorem slots_congr {m m' : Store} (h : ∀ x, s.file_table ≤ x → x < s.file_table + tableBytes →
    m x = m' x) (i : Nat) : slotAt m s.file_table i = slotAt m' s.file_table i := by
  by_cases hi : i < MAX_FILES
  · refine slotAt_congr fun x hlo hhi => ?_
    obtain ⟨h1, h2⟩ := table_slot hi hlo hhi
    exact h x h1 h2
  · rw [slotAt_ge (by omega), slotAt_ge (by omega)]

section BitOps

variable {S : Nat → Prop} {v : Bool} {r : Store × BLOCKDEV_API}

@[simp] theorem onDisk_mem : (s.onDisk d r).mem = r.1 := rfl
@[simp] theorem onDisk_disk : (s.onDisk d r).disks d = r.2 := by simp [Sys.onDisk, Sys.setDisk]
@[simp] theorem onDisk_pmm : (s.onDisk d r).pmm = s.pmm := rfl
@[simp] theorem onDisk_table : (s.onDisk d r).file_table = s.file_table := rfl
@[simp] theorem onDisk_bitmap : (s.onDisk d r).bitmap_buf = s.bitmap_buf := rfl

/-- The memory of the two structures that an operation on the bit map leaves alone. -/
theorem onDisk_table_bytes (h : Mounted s d T) (hr : Sets S v s.mem (s.disks d) r.1 r.2) {x : Nat}
    (hlo : s.file_table ≤ x) (hhi : x < s.file_table + tableBytes) : r.1 x = s.mem x := by
  refine hr.only x ?_
  rw [h.bitmap, h.blocks]
  have := words_covered h.covered
  have := h.buffers.apart
  omega

theorem onDisk_mounted (h : Mounted s d T) (hr : Sets S v s.mem (s.disks d) r.1 r.2) :
    Mounted (s.onDisk d r) d T where
  api := h.api
  active := h.active
  sb := h.sb
  reliable := by
    rw [onDisk_disk]
    intro n
    rw [hr.same.io]
    exact h.reliable n
  bitmap := by
    rw [onDisk_disk, hr.same.bitmap]
    exact h.bitmap
  blocks := by
    rw [onDisk_disk, hr.same.total_blocks]
    exact h.blocks
  covered := h.covered
  small := h.small
  buffers := ⟨h.buffers.1, h.buffers.2, h.buffers.3, h.buffers.4, h.buffers.5, h.buffers.6⟩

/-- The volume after an operation on the bit map: other bits, the same slots. -/
theorem onDisk_slots (h : Mounted s d T) (hr : Sets S v s.mem (s.disks d) r.1 r.2) (i : Nat) :
    (volume (s.onDisk d r) d).slot i = (volume s d).slot i :=
  slots_congr (fun _ hlo hhi => onDisk_table_bytes h hr hlo hhi) i

theorem onDisk_bit_in (hr : Sets S v s.mem (s.disks d) r.1 r.2) {b : Nat} (hb : S b) :
    (volume (s.onDisk d r) d).bit b = v := by
  show (s.onDisk d r).mem.bit ((s.onDisk d r).disks d).bitmap b = v
  rw [onDisk_disk, hr.same.bitmap]
  exact hr.inside b hb

theorem onDisk_bit_out (hr : Sets S v s.mem (s.disks d) r.1 r.2) {b : Nat} (hb : ¬ S b) :
    (volume (s.onDisk d r) d).bit b = (volume s d).bit b := by
  show (s.onDisk d r).mem.bit ((s.onDisk d r).disks d).bitmap b = _
  rw [onDisk_disk, hr.same.bitmap]
  exact hr.outside b hb

theorem onDisk_free (h : Mounted s d T) (hr : Sets S v s.mem (s.disks d) r.1 r.2)
    (hf : (volume s d).free = (volume s d).clear T) :
    (volume (s.onDisk d r) d).free = (volume (s.onDisk d r) d).clear T := by
  rw [volume_clear (onDisk_mounted h hr).blocks, onDisk_disk]
  exact hr.accurate ((volume_clear h.blocks).mp hf)

end BitOps

end Eke
