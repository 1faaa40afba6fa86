/-
Formatting and mounting.

`format_disk` says what a device holds after `eke_fs_format`; `mount_spec` says what
memory holds after `eke_fs_mount` of a device whose sector 0 has the superblock of its
size: the data bits of the bit map as they are on the medium with the metadata blocks
marked, the first 4096 bytes of the file table as they are on the medium, and behind
them whatever was in memory before.  `fresh_buffers` is the fact about the page
allocator that a mount of its own buffers needs: the second allocation starts behind
the first, so the table and its tail cannot lie in front of the bit map.
-/
import Eke.Fs.Steps

namespace Eke

variable {s : Sys} {d T : Nat}

/-! ### Format -/

/-- Writing zeros over sectors one at a time. -/
theorem zero_loop {dev : BLOCKDEV_API} {n : Nat} (h : dev.Quiet n) (lba : Nat) :
    loop (fun i (dev : BLOCKDEV_API) => (dev.write_sectors (lba + i) 1 (fun _ => 0) 0).2) n dev =
      { dev with
        ops := dev.ops + n
        sectors := dev.sectors.fill (lba * SECTOR_SIZE) (n * SECTOR_SIZE) 0 } := by
  refine loop_induct (P := fun k (t : BLOCKDEV_API) => t =
    { dev with
      ops := dev.ops + k
      sectors := dev.sectors.fill (lba * SECTOR_SIZE) (k * SECTOR_SIZE) 0 }) ?_ ?_
  · have : dev.sectors.fill (lba * SECTOR_SIZE) (0 * SECTOR_SIZE) 0 = dev.sectors := by
      funext x
      exact Store.fill_out (by omega)
    rw [this]
    rfl
  · rintro k t hk rfl
    rw [BLOCKDEV_API.write_sectors_ok (by exact h k hk) (by omega)]
    have hsec : ((dev.sectors.fill (lba * SECTOR_SIZE) (k * SECTOR_SIZE) 0).blit
        ((lba + k) * SECTOR_SIZE) (1 * SECTOR_SIZE) (fun _ => 0) 0)
        = dev.sectors.fill (lba * SECTOR_SIZE) ((k + 1) * SECTOR_SIZE) 0 := by
      funext x
      rw [Nat.add_mul, Nat.add_mul]
      generalize SECTOR_SIZE = n
      by_cases hx : lba * n ≤ x ∧ x < lba * n + (k * n + 1 * n)
      · rw [Store.fill_in hx.1 hx.2]
        by_cases hk : x < lba * n + k * n
        · rw [Store.blit_out (by omega), Store.fill_in hx.1 hk]
        · exact Store.blit_in (by omega) (by omega)
      · rw [Store.fill_out (by omega), Store.blit_out (by omega), Store.fill_out (by omega)]
    dsimp only
    rw [hsec, Nat.add_assoc]

/-- The medium after a format. -/
def formatted (T : Nat) (sectors : Store) : Store :=
  ((sectors.blit 0 SECTOR_SIZE ((Superblock.forDevice T).save (fun _ => 0) 0) 0).fill SECTOR_SIZE
    (bitmapSectors T * SECTOR_SIZE) 0).fill ((1 + bitmapSectors T) * SECTOR_SIZE) (8 * SECTOR_SIZE) 0

theorem format_quiet (h : (s.disks d).Quiet (1 + bitmapSectors T + 8)) (hT : (s.disks d).total_sectors = T) :
    eke_fs_format s (some d) =
      (0, s.setDisk d
        { s.disks d with
          ops := (s.disks d).ops + 1 + bitmapSectors T + 8
          sectors := formatted T (s.disks d).sectors }) := by
  subst hT
  simp only [eke_fs_format]
  rw [BLOCKDEV_API.write_sectors_ok (h.first (by omega)) (by omega)]
  dsimp only
  rw [zero_loop (n := (Superblock.forDevice (s.disks d).total_sectors).bitmap_block_count) fun k hk => ?bitmap,
    zero_loop fun k hk => ?table]
  case bitmap =>
    change k < bitmapSectors (s.disks d).total_sectors at hk
    have hio := h (1 + k) (by omega)
    rwa [← Nat.add_assoc] at hio
  case table =>
    change k < 8 at hk
    have hio := h (1 + bitmapSectors (s.disks d).total_sectors + k) (by omega)
    rwa [← Nat.add_assoc, ← Nat.add_assoc] at hio
  simp only [formatted, show ∀ T, (Superblock.forDevice T).bitmap_start_lba = 1 from fun _ => rfl,
    show ∀ T, (Superblock.forDevice T).file_table_start_lba = 1 + bitmapSectors T from fun _ => rfl,
    show ∀ T, (Superblock.forDevice T).file_table_block_count = 8 from fun _ => rfl,
    show ∀ T, (Superblock.forDevice T).bitmap_block_count = bitmapSectors T from fun _ => rfl,
    Nat.one_mul, Nat.zero_mul]

theorem format_disk (h : (s.disks d).Reliable) (hT : (s.disks d).total_sectors = T) :
    eke_fs_format s (some d) =
      (0, s.setDisk d
        { s.disks d with
          ops := (s.disks d).ops + 1 + bitmapSectors T + 8
          sectors := formatted T (s.disks d).sectors }) :=
  format_quiet (h.quiet _) hT

/-- A superblock reads back as it was saved. -/
theorem load_save {sb : Superblock} {m : Store} {a : Nat} (hm : sb.magic < 2 ^ 32)
    (hb : sb.block_size < 2 ^ 32) (h1 : sb.total_blocks < 2 ^ 64) (h2 : sb.bitmap_start_lba < 2 ^ 64)
    (h3 : sb.bitmap_block_count < 2 ^ 64) (h4 : sb.file_table_start_lba < 2 ^ 64)
    (h5 : sb.file_table_block_count < 2 ^ 64) (h6 : sb.data_start_lba < 2 ^ 64) :
    Superblock.load (sb.save m a) a = sb := by
  have out : ∀ {m : Store} {b j c k v : Nat}, b + j ≤ c ∨ c + k ≤ b →
      (m.setLe c k v).le b j = m.le b j := fun h => Store.le_setLe_out h
  cases sb
  simp only [Superblock.load, Superblock.save, Superblock.mk.injEq]
  dsimp only at *
  refine ⟨?_, ?_, ?_, ?_, ?_, ?_, ?_, ?_⟩
  · iterate 7 rw [out (by omega)]
    exact Store.le_setLe_of_lt (by omega)
  · iterate 6 rw [out (by omega)]
    exact Store.le_setLe_of_lt (by omega)
  · iterate 5 rw [out (by omega)]
    exact Store.le_setLe_of_lt (by omega)
  · iterate 4 rw [out (by omega)]
    exact Store.le_setLe_of_lt (by omega)
  · iterate 3 rw [out (by omega)]
    exact Store.le_setLe_of_lt (by omega)
  · iterate 2 rw [out (by omega)]
    exact Store.le_setLe_of_lt (by omega)
  · rw [out (by omega)]
    exact Store.le_setLe_of_lt (by omega)
  · exact Store.le_setLe_of_lt (by omega)

/-- So does the superblock of a device. -/
theorem forDevice_load (hT : T < 2 ^ 64) :
    Superblock.load ((Superblock.forDevice T).save (fun _ => 0) 0) 0 = Superblock.forDevice T := by
  have hb : bitmapSectors T < 2 ^ 63 := by
    show (T / 8 + 512 - 1) / 512 < 2 ^ 63
    omega
  refine load_save (by show EKE_FS_MAGIC < 2 ^ 32; decide) (by show SECTOR_SIZE < 2 ^ 32; decide) ?_
    (by show 1 < 2 ^ 64; decide) ?_ ?_ (by show 8 < 2 ^ 64; decide) ?_
  · show T < 2 ^ 64
    omega
  · show bitmapSectors T < 2 ^ 64
    omega
  · show 1 + bitmapSectors T < 2 ^ 64
    omega
  · show 1 + bitmapSectors T + 8 < 2 ^ 64
    omega

theorem formatted_super {sectors : Store} (hT : T < 2 ^ 64) :
    Superblock.load (formatted T sectors) 0 = Superblock.forDevice T := by
  refine (load_congr fun x hx => ?_).trans (forDevice_load hT)
  unfold formatted SECTOR_SIZE
  rw [Store.fill_out (by omega), Store.fill_out (by omega), Store.blit_in (by omega) (by omega)]
  exact congrArg _ (by omega)

/-- A format clears the bit map and the file table. -/
theorem formatted_zero {sectors : Store} {x : Nat} (hlo : SECTOR_SIZE ≤ x)
    (hhi : x < SECTOR_SIZE * dataStart T) : formatted T sectors x = 0 := by
  rw [dataStart_eq] at hhi
  unfold formatted SECTOR_SIZE at *
  by_cases hx : x < 512 + bitmapSectors T * 512
  · rw [Store.fill_out (by omega), Store.fill_in (by omega) (by omega)]
  · rw [Store.fill_in (by omega) (by omega)]

/-! ### Mount -/

/-- The state of a mount once the superblock is read. -/
def begun (s : Sys) (d T : Nat) : Sys :=
  { s.setDisk d { s.disks d with ops := (s.disks d).ops + 1 } with
    active_sb := Superblock.forDevice T
    active_dev := some d }

theorem mount_eq (hrel : (s.disks d).Reliable)
    (hsuper : Superblock.load (s.disks d).sectors 0 = Superblock.forDevice T) :
    eke_fs_mount s (some d) = (0, mount_table (mount_bitmap (begun s d T) d) d) := by
  have hload : Superblock.load
      (Store.blit (fun _ => 0) 0 (1 * SECTOR_SIZE) (s.disks d).sectors (0 * SECTOR_SIZE)) 0
      = Superblock.forDevice T := by
    rw [← hsuper]
    refine load_congr fun x hx => ?_
    rw [Store.blit_in (by omega) (by unfold SECTOR_SIZE; omega)]
    exact congrArg _ (by omega)
  simp only [eke_fs_mount, BLOCKDEV_API.read_sectors_reliable hrel (show 1 < 2 ^ 32 by omega), hload]
  rw [if_neg (by simp), if_neg (by simp [Superblock.forDevice])]
  simp only [mount_super, hload, begun]

theorem alloc_bitmap_frame (s : Sys) :
    alloc_bitmap s = { s with
      pmm := (alloc_bitmap s).pmm, bitmap_buf := (alloc_bitmap s).bitmap_buf } := by
  unfold alloc_bitmap Sys.alloc_page
  split
  · split <;> rfl
  · rfl

theorem alloc_table_frame (s : Sys) :
    alloc_table s = { s with
      pmm := (alloc_table s).pmm, file_table := (alloc_table s).file_table } := by
  unfold alloc_table Sys.alloc_page
  split
  · split <;> rfl
  · rfl

theorem mount_bitmap_buf (s : Sys) (d : Nat) :
    (mount_bitmap s d).bitmap_buf = (alloc_bitmap s).bitmap_buf := by
  simp only [mount_bitmap, Sys.setDisk]

theorem mount_bitmap_pmm (s : Sys) (d : Nat) : (mount_bitmap s d).pmm = (alloc_bitmap s).pmm := by
  simp only [mount_bitmap, Sys.setDisk]

theorem mount_bitmap_api (s : Sys) (d : Nat) : (mount_bitmap s d).g_api = s.g_api := by
  simp only [mount_bitmap, Sys.setDisk]
  rw [alloc_bitmap_frame]

theorem mount_bitmap_table (s : Sys) (d : Nat) : (mount_bitmap s d).file_table = s.file_table := by
  simp only [mount_bitmap, Sys.setDisk]
  rw [alloc_bitmap_frame]

theorem mount_bitmap_sb (s : Sys) (d : Nat) : (mount_bitmap s d).active_sb = s.active_sb := by
  simp only [mount_bitmap, Sys.setDisk]
  rw [alloc_bitmap_frame]

theorem mount_active (s : Sys) (d : Nat) :
    (mount_table (mount_bitmap (begun s d T) d) d).active_dev = some d := by
  simp only [mount_table, mount_bitmap, Sys.setDisk]
  rw [alloc_table_frame, alloc_bitmap_frame]
  rfl

theorem mount_table_buf (s : Sys) (d : Nat) : (mount_table s d).bitmap_buf = s.bitmap_buf := by
  simp only [mount_table, Sys.setDisk]
  rw [alloc_table_frame]

theorem mount_table_table (s : Sys) (d : Nat) :
    (mount_table s d).file_table = (alloc_table s).file_table := by
  simp only [mount_table, Sys.setDisk]

theorem mount_table_pmm (s : Sys) (d : Nat) : (mount_table s d).pmm = (alloc_table s).pmm := by
  simp only [mount_table, Sys.setDisk]

/-- What `mount_bitmap` leaves in memory and in the device, whatever the superblock. -/
structure BitmapRead (s s' : Sys) (d : Nat) : Prop where
  frame : s' = { alloc_bitmap s with mem := s'.mem, disks := s'.disks }
  mem : ∀ x, x < s'.bitmap_buf ∨ s'.bitmap_buf + SECTOR_SIZE * s.active_sb.bitmap_block_count ≤ x ∧
    s'.bitmap_buf + 8 * ((s.active_sb.total_blocks + 63) / 64) ≤ x → s'.mem x = s.mem x
  bits : ∀ b, s'.mem.bit s'.bitmap_buf b =
    (decide (b < s.active_sb.data_start_lba ∧ b < s.active_sb.total_blocks) ||
      if b < 4096 * s.active_sb.bitmap_block_count then
        (s.disks d).sectors.bit (SECTOR_SIZE * s.active_sb.bitmap_start_lba) b
      else s.mem.bit s'.bitmap_buf b)
  free : Accurate s'.mem (s'.disks d)
  io : (s'.disks d).io = (s.disks d).io
  ops : (s'.disks d).ops = (s.disks d).ops + 1
  sectors : (s'.disks d).sectors = (s.disks d).sectors
  bitmap : (s'.disks d).bitmap = s'.bitmap_buf
  blocks : (s'.disks d).total_blocks = s.active_sb.total_blocks

theorem mount_bitmap_read (hio : (s.disks d).io (s.disks d).ops = none)
    (hsmall : s.active_sb.bitmap_block_count < 2 ^ 32) (hbm : (alloc_bitmap s).bitmap_buf ≠ 0) :
    BitmapRead s (mount_bitmap s d) d := by
  have hframe := alloc_bitmap_frame s
  unfold mount_bitmap
  generalize hs₁ : alloc_bitmap s = s₁ at hbm hframe ⊢
  have hdisk : s₁.disks d = s.disks d := by rw [hframe]
  have hmem : s₁.mem = s.mem := by rw [hframe]
  generalize hsb : s.active_sb = sb at hsmall ⊢
  dsimp only
  rw [hdisk, hmem, BLOCKDEV_API.read_sectors_ok hio hsmall]
  dsimp only
  rw [spmm_init_loaded hbm]
  set m₂ := s.mem.blit s₁.bitmap_buf (sb.bitmap_block_count * SECTOR_SIZE) (s.disks d).sectors
    (sb.bitmap_start_lba * SECTOR_SIZE) with hm₂
  set dev₂ : BLOCKDEV_API :=
    { s.disks d with
      ops := (s.disks d).ops + 1
      bitmap := s₁.bitmap_buf
      total_blocks := sb.total_blocks
      last_free_block := 1
      free_blocks := m₂.clearBits s₁.bitmap_buf sb.total_blocks } with hdev₂
  have hmark := mark_loop_sets m₂ dev₂ hbm sb.data_start_lba
  dsimp only at hmark
  have hread : ∀ b, m₂.bit s₁.bitmap_buf b =
      if b < 4096 * sb.bitmap_block_count then
        (s.disks d).sectors.bit (SECTOR_SIZE * sb.bitmap_start_lba) b
      else s.mem.bit s₁.bitmap_buf b := by
    intro b
    have hmul : sb.bitmap_block_count * SECTOR_SIZE = 512 * sb.bitmap_block_count := Nat.mul_comm _ _
    split
    · refine Store.bit_congr ?_
      rw [hm₂, Store.blit_in (by omega) (by omega), Nat.mul_comm SECTOR_SIZE]
      exact congrArg _ (by omega)
    · exact Store.bit_congr (Store.blit_out (by omega))
  change BitmapRead s ({ s₁ with mem := (loop _ sb.data_start_lba (m₂, dev₂)).1 }.setDisk d
    (loop _ sb.data_start_lba (m₂, dev₂)).2) d
  generalize loop (fun b (t : Store × BLOCKDEV_API) => spmm_mark_used b t.1 t.2) sb.data_start_lba
    (m₂, dev₂) = r at hmark ⊢
  have hd : ({ s₁ with mem := r.1 }.setDisk d r.2).disks d = r.2 := by simp [Sys.setDisk]
  refine ⟨by rw [hs₁]; rfl, ?_, ?_, ?_, ?_, ?_, ?_, ?_, ?_⟩
  · rw [hsb]
    intro x hx
    show r.1 x = s.mem x
    have hx' : x < s₁.bitmap_buf ∨ s₁.bitmap_buf + SECTOR_SIZE * sb.bitmap_block_count ≤ x ∧
      s₁.bitmap_buf + 8 * ((sb.total_blocks + 63) / 64) ≤ x := hx
    have hout := hmark.only x (by
      show x < s₁.bitmap_buf ∨ s₁.bitmap_buf + 8 * ((sb.total_blocks + 63) / 64) ≤ x
      omega)
    rw [hout]
    exact Store.blit_out (by rw [Nat.mul_comm]; omega)
  · rw [hsb]
    intro b
    show r.1.bit s₁.bitmap_buf b = (decide (b < sb.data_start_lba ∧ b < sb.total_blocks) ||
      if b < 4096 * sb.bitmap_block_count then
        (s.disks d).sectors.bit (SECTOR_SIZE * sb.bitmap_start_lba) b
      else s.mem.bit s₁.bitmap_buf b)
    by_cases hlow : b < sb.data_start_lba ∧ b < sb.total_blocks
    · rw [decide_eq_true hlow, Bool.true_or]
      exact hmark.inside b hlow
    · rw [decide_eq_false hlow, Bool.false_or, ← hread b]
      exact hmark.outside b hlow
  · rw [hd]
    exact hmark.accurate rfl
  · rw [hd, hmark.same.io]
  · rw [hd, hmark.same.ops]
  · rw [hd, hmark.same.sectors]
  · rw [hd, hmark.same.bitmap]
    rfl
  · rw [hd, hmark.same.total_blocks, hsb]

/-- What `mount_bitmap` leaves in memory and in the device. -/
structure BitmapLoaded (s s' : Sys) (d T : Nat) : Prop where
  frame : s' = { alloc_bitmap s with mem := s'.mem, disks := s'.disks }
  mem : ∀ x, x < s'.bitmap_buf ∨ s'.bitmap_buf + SECTOR_SIZE * bitmapSectors T ≤ x ∧
    s'.bitmap_buf + 8 * ((T + 63) / 64) ≤ x → s'.mem x = s.mem x
  bits : ∀ b, b < T → s'.mem.bit s'.bitmap_buf b = (decide (b < dataStart T) ||
    if b < 4096 * bitmapSectors T then (s.disks d).sectors.bit SECTOR_SIZE b
    else s.mem.bit s'.bitmap_buf b)
  free : Accurate s'.mem (s'.disks d)
  io : (s'.disks d).io = (s.disks d).io
  sectors : (s'.disks d).sectors = (s.disks d).sectors
  bitmap : (s'.disks d).bitmap = s'.bitmap_buf
  blocks : (s'.disks d).total_blocks = T

theorem mount_bitmap_spec (hsb : s.active_sb = Superblock.forDevice T)
    (hrel : (s.disks d).Reliable) (hsmall : bitmapSectors T < 2 ^ 32)
    (hbm : (alloc_bitmap s).bitmap_buf ≠ 0) : BitmapLoaded s (mount_bitmap s d) d T := by
  obtain ⟨hframe, hmem, hbits, hfree, hio, -, hsec, hbitmap, hblocks⟩ :=
    mount_bitmap_read (d := d) (hrel _) (by rw [hsb]; exact hsmall) hbm
  rw [hsb] at hmem hbits hblocks
  refine ⟨hframe, hmem, fun b hb => ?_, hfree, hio, hsec, hbitmap, hblocks⟩
  rw [hbits b]
  show (decide (b < dataStart T ∧ b < T) || _) = _
  simp only [hb, and_true]
  rfl

/-- What `mount_table` leaves in memory and in the device, whatever the superblock. -/
structure TableRead (s s' : Sys) (d : Nat) : Prop where
  frame : s' = { alloc_table s with mem := s'.mem, disks := s'.disks }
  mem : ∀ x, x < s'.file_table ∨ s'.file_table + s.active_sb.file_table_block_count * SECTOR_SIZE ≤ x →
    s'.mem x = s.mem x
  table : ∀ k, k < s.active_sb.file_table_block_count * SECTOR_SIZE → s'.mem (s'.file_table + k) =
    (s.disks d).sectors (s.active_sb.file_table_start_lba * SECTOR_SIZE + k)
  disk : s'.disks d = { s.disks d with ops := (s.disks d).ops + 1 }

theorem mount_table_read (hio : (s.disks d).io (s.disks d).ops = none)
    (hsmall : s.active_sb.file_table_block_count < 2 ^ 32) : TableRead s (mount_table s d) d := by
  have hframe := alloc_table_frame s
  unfold mount_table
  generalize hs₁ : alloc_table s = s₁ at hframe ⊢
  have hdisk : s₁.disks d = s.disks d := by rw [hframe]
  have hmem : s₁.mem = s.mem := by rw [hframe]
  dsimp only
  rw [hdisk, hmem, BLOCKDEV_API.read_sectors_ok hio hsmall]
  refine ⟨by rw [hs₁]; rfl, ?_, ?_, ?_⟩
  · intro x hx
    exact Store.blit_out hx
  · intro k hk
    show (s.mem.blit s₁.file_table (s.active_sb.file_table_block_count * SECTOR_SIZE) _ _)
      (s₁.file_table + k) = _
    rw [Store.blit_in (by omega) (by omega)]
    exact congrArg _ (by omega)
  · simp [Sys.setDisk]

/-- What `mount_table` leaves in memory and in the device. -/
structure TableLoaded (s s' : Sys) (d T : Nat) : Prop where
  frame : s' = { alloc_table s with mem := s'.mem, disks := s'.disks }
  mem : ∀ x, x < s'.file_table ∨ s'.file_table + 8 * SECTOR_SIZE ≤ x → s'.mem x = s.mem x
  table : ∀ k, k < 8 * SECTOR_SIZE →
    s'.mem (s'.file_table + k) = (s.disks d).sectors (SECTOR_SIZE * (1 + bitmapSectors T) + k)
  disk : s'.disks d = { s.disks d with ops := (s.disks d).ops + 1 }

theorem mount_table_spec (hsb : s.active_sb = Superblock.forDevice T)
    (hrel : (s.disks d).Reliable) : TableLoaded s (mount_table s d) d T := by
  have hcount : s.active_sb.file_table_block_count = 8 := by rw [hsb]; rfl
  have hstart : s.active_sb.file_table_start_lba = 1 + bitmapSectors T := by rw [hsb]; rfl
  obtain ⟨hframe, hmem, htable, hdisk⟩ := mount_table_read (d := d) (hrel _) (by omega)
  rw [hcount] at hmem htable
  refine ⟨hframe, hmem, fun k hk => ?_, hdisk⟩
  rw [htable k hk, hstart, Nat.mul_comm]

/-- The two halves of a mount, on any device with a superblock. -/
theorem mount_halves (hrel : (s.disks d).Reliable)
    (hsuper : Superblock.load (s.disks d).sectors 0 = Superblock.forDevice T)
    (h32 : bitmapSectors T < 2 ^ 32) (hbm : (eke_fs_mount s (some d)).2.bitmap_buf ≠ 0) :
    ∃ s₁, BitmapLoaded (begun s d T) s₁ d T ∧ TableLoaded s₁ (eke_fs_mount s (some d)).2 d T ∧
      (eke_fs_mount s (some d)).2.bitmap_buf = s₁.bitmap_buf ∧ s₁.g_api = s.g_api ∧
      s₁.active_sb = Superblock.forDevice T := by
  rw [mount_eq hrel hsuper] at hbm ⊢
  dsimp only at hbm ⊢
  have hdisk₀ : (begun s d T).disks d = { s.disks d with ops := (s.disks d).ops + 1 } := by
    simp [begun, Sys.setDisk]
  have hrel₀ : ((begun s d T).disks d).Reliable := by
    rw [hdisk₀]
    exact hrel
  rw [mount_table_buf] at hbm ⊢
  have hb := mount_bitmap_spec (s := begun s d T) rfl hrel₀ h32
    (by rw [← mount_bitmap_buf]; exact hbm)
  have hsb := mount_bitmap_sb (begun s d T) d
  have hapi := mount_bitmap_api (begun s d T) d
  generalize mount_bitmap (begun s d T) d = s₁ at *
  exact ⟨s₁, hb, mount_table_spec hsb (by intro n; rw [hb.io]; exact hrel₀ n), rfl, hapi, hsb⟩

theorem begun_sectors : ((begun s d T).disks d).sectors = (s.disks d).sectors := by
  simp [begun, Sys.setDisk]

theorem begun_io : ((begun s d T).disks d).io = (s.disks d).io := by
  simp [begun, Sys.setDisk]

/--
The bits after a mount.  Those the bit map's sectors have room for come from the
medium, and any others are what was in memory.
-/
theorem mount_bit (hrel : (s.disks d).Reliable)
    (hsuper : Superblock.load (s.disks d).sectors 0 = Superblock.forDevice T)
    (h32 : bitmapSectors T < 2 ^ 32) (hbm : (eke_fs_mount s (some d)).2.bitmap_buf ≠ 0) {k : Nat}
    (hk : k < T)
    (hout : (eke_fs_mount s (some d)).2.bitmap_buf + k / 8 < (eke_fs_mount s (some d)).2.file_table ∨
      (eke_fs_mount s (some d)).2.file_table + 8 * SECTOR_SIZE ≤
        (eke_fs_mount s (some d)).2.bitmap_buf + k / 8) :
    (eke_fs_mount s (some d)).2.mem.bit (eke_fs_mount s (some d)).2.bitmap_buf k =
      (decide (k < dataStart T) ||
        if k < 4096 * bitmapSectors T then (s.disks d).sectors.bit SECTOR_SIZE k
        else s.mem.bit (eke_fs_mount s (some d)).2.bitmap_buf k) := by
  obtain ⟨s₁, hb, ht, hbuf, -, -⟩ := mount_halves hrel hsuper h32 hbm
  rw [hbuf] at hout ⊢
  have hbit : (eke_fs_mount s (some d)).2.mem.bit s₁.bitmap_buf k = s₁.mem.bit s₁.bitmap_buf k :=
    Store.bit_congr (ht.mem _ (by omega))
  rw [hbit, hb.bits k hk, begun_sectors]
  rfl

/-- A mount leaves the medium as it is. -/
theorem mount_medium (hrel : (s.disks d).Reliable)
    (hsuper : Superblock.load (s.disks d).sectors 0 = Superblock.forDevice T)
    (h32 : bitmapSectors T < 2 ^ 32) (hbm : (eke_fs_mount s (some d)).2.bitmap_buf ≠ 0) :
    ((eke_fs_mount s (some d)).2.disks d).sectors = (s.disks d).sectors ∧
      ((eke_fs_mount s (some d)).2.disks d).io = (s.disks d).io ∧
      (eke_fs_mount s (some d)).2.g_api = s.g_api := by
  obtain ⟨s₁, hb, ht, -, hapi, -⟩ := mount_halves hrel hsuper h32 hbm
  refine ⟨?_, ?_, ?_⟩
  · rw [ht.disk]
    exact hb.sectors.trans begun_sectors
  · rw [ht.disk]
    exact hb.io.trans begun_io
  · rw [ht.frame, alloc_table_frame]
    exact hapi

/-- What a mount leaves in memory, compared with the medium and the memory before. -/
structure MountedFrom (s s' : Sys) (d T : Nat) : Prop where
  mounted : Mounted s' d T
  table : ∀ k, k < 8 * SECTOR_SIZE →
    s'.mem (s'.file_table + k) = (s.disks d).sectors (SECTOR_SIZE * (1 + bitmapSectors T) + k)
  tail : ∀ k, 8 * SECTOR_SIZE ≤ k → k < tableBytes →
    s'.mem (s'.file_table + k) = s.mem (s'.file_table + k)
  bits : ∀ b, b < T →
    s'.mem.bit s'.bitmap_buf b = (decide (b < dataStart T) || (s.disks d).sectors.bit SECTOR_SIZE b)
  free : Accurate s'.mem (s'.disks d)
  sectors : (s'.disks d).sectors = (s.disks d).sectors

/-- **A mount.**  Bits and slots come back from the medium; the tail of the table does not. -/
theorem mount_spec (hapi : s.g_api = true) (hrel : (s.disks d).Reliable)
    (hsuper : Superblock.load (s.disks d).sectors 0 = Superblock.forDevice T)
    (hcov : T ≤ 4096 * bitmapSectors T) (hsmall : bitmapSectors T ≤ 2 ^ 23)
    (hbuf : Buffers (eke_fs_mount s (some d)).2 (SECTOR_SIZE * bitmapSectors T)) :
    (eke_fs_mount s (some d)).1 = 0 ∧ MountedFrom s (eke_fs_mount s (some d)).2 d T := by
  have hres : (eke_fs_mount s (some d)).1 = 0 := by rw [mount_eq hrel hsuper]
  refine ⟨hres, ?_⟩
  have hactive : (eke_fs_mount s (some d)).2.active_dev = some d := by
    rw [mount_eq hrel hsuper]
    exact mount_active _ d
  have hbit := fun {k} hk => mount_bit hrel hsuper (by omega) hbuf.bitmap_ne (k := k) hk
  obtain ⟨hsec, -, hapi₂⟩ := mount_medium hrel hsuper (by omega) hbuf.bitmap_ne
  obtain ⟨s₁, hb, ht, hbm, -, hsb₁⟩ := mount_halves hrel hsuper (by omega) hbuf.bitmap_ne
  have hfr₃ := ht.frame
  rw [alloc_table_frame] at hfr₃
  generalize (eke_fs_mount s (some d)).2 = s₂ at *
  have hapart := hbuf.apart
  have htb : 8 * SECTOR_SIZE ≤ tableBytes := by decide
  have hwords := words_covered hcov
  have hbits : ∀ b, b < T → s₂.mem.bit s₂.bitmap_buf b = s₁.mem.bit s₁.bitmap_buf b := by
    intro b hbT
    have := bit_byte hcov hbT
    rw [← hbm]
    exact Store.bit_congr (ht.mem _ (by omega))
  refine ⟨⟨?_, hactive, ?_, ?_, ?_, ?_, hcov, hsmall, hbuf⟩, ?_, ?_, ?_, ?_, hsec⟩
  · rw [hapi₂]
    exact hapi
  · rw [hfr₃]
    exact hsb₁
  · rw [ht.disk]
    intro n
    show (s₁.disks d).io n = none
    rw [hb.io, begun_io]
    exact hrel n
  · rw [ht.disk, hbm]
    exact hb.bitmap
  · rw [ht.disk]
    exact hb.blocks
  · intro k hk
    rw [ht.table k hk, hb.sectors, begun_sectors]
  · intro k hk hk'
    rw [ht.mem _ (by omega), hb.mem _ (by omega)]
    rfl
  · intro b hbT
    have := bit_byte hcov hbT
    rw [hbit hbT (by omega), if_pos (by omega)]
  · have hfree := hb.free
    unfold Accurate at hfree ⊢
    rw [ht.disk, hb.bitmap, hb.blocks] at *
    refine hfree.trans (Store.clearBits_congr fun b hbT => ?_)
    rw [← hbits b hbT, hbm]

/-! ### The buffers of a first mount -/

theorem alloc_bitmap_eq (hapi : s.g_api = true) (h0 : s.bitmap_buf = 0) :
    alloc_bitmap s =
      { s with
        pmm := (s.pmm.alloc_page (toInt (pages_of s.active_sb.bitmap_block_count))).2
        bitmap_buf := (s.pmm.alloc_page (toInt (pages_of s.active_sb.bitmap_block_count))).1 } := by
  unfold alloc_bitmap Sys.alloc_page
  rw [if_pos ⟨h0, hapi⟩, if_pos hapi]

theorem alloc_table_eq (hapi : s.g_api = true) (h0 : s.file_table = 0) :
    alloc_table s =
      { s with
        pmm := (s.pmm.alloc_page (toInt (pages_of s.active_sb.file_table_block_count))).2
        file_table := (s.pmm.alloc_page (toInt (pages_of s.active_sb.file_table_block_count))).1 } := by
  unfold alloc_table Sys.alloc_page
  rw [if_pos ⟨h0, hapi⟩, if_pos hapi]

/-- The two allocations of a first mount, one after the other. -/
theorem mount_allocs (hrel : (s.disks d).Reliable)
    (hsuper : Superblock.load (s.disks d).sectors 0 = Superblock.forDevice T)
    (hapi : s.g_api = true) (hb0 : s.bitmap_buf = 0) (hf0 : s.file_table = 0) :
    let a := s.pmm.alloc_page (toInt (pages_of (bitmapSectors T)))
    let b := a.2.alloc_page (toInt (pages_of 8))
    let s' := (eke_fs_mount s (some d)).2
    s'.bitmap_buf = a.1 ∧ s'.file_table = b.1 ∧ s'.pmm = b.2 := by
  rw [mount_eq hrel hsuper]
  dsimp only
  have hb : alloc_bitmap (begun s d T) = _ := alloc_bitmap_eq hapi hb0
  have ht : alloc_table (mount_bitmap (begun s d T) d) = _ :=
    alloc_table_eq (by rw [mount_bitmap_api]; exact hapi) (by rw [mount_bitmap_table]; exact hf0)
  rw [mount_bitmap_pmm, mount_bitmap_sb, hb] at ht
  refine ⟨?_, ?_, ?_⟩
  · rw [mount_table_buf, mount_bitmap_buf, hb]
    rfl
  · rw [mount_table_table, ht]
    rfl
  · rw [mount_table_pmm, ht]
    rfl

/--
The buffers a first mount allocates hold what they are for and lie apart: the search
for the table's page starts behind the bit map's.
-/
theorem fresh_buffers (hrel : (s.disks d).Reliable)
    (hsuper : Superblock.load (s.disks d).sectors 0 = Superblock.forDevice T)
    (hapi : s.g_api = true) (hb0 : s.bitmap_buf = 0) (hf0 : s.file_table = 0)
    (h32 : bitmapSectors T < 2 ^ 32) (hb : (eke_fs_mount s (some d)).2.bitmap_buf ≠ 0)
    (hf : (eke_fs_mount s (some d)).2.file_table ≠ 0) :
    Buffers (eke_fs_mount s (some d)).2 (SECTOR_SIZE * bitmapSectors T) ∧
      bitmapSectors T ≤ 2 ^ 23 := by
  obtain ⟨hbe, hfe, hpe⟩ := mount_allocs hrel hsuper hapi hb0 hf0
  generalize eke_fs_mount s (some d) = r at *
  have hpages : toInt (pages_of (bitmapSectors T)) = ((SECTOR_SIZE * bitmapSectors T + 4095) / 4096 : Nat) := by
    have : pages_of (bitmapSectors T) = (SECTOR_SIZE * bitmapSectors T + 4095) / 4096 := by
      unfold pages_of SECTOR_SIZE
      omega
    rw [this]
    exact toInt_of_lt (by unfold SECTOR_SIZE; omega)
  rw [hbe] at hb
  rw [hfe] at hf
  rcases Pmm.alloc_page_spec s.pmm (toInt (pages_of (bitmapSectors T))) with ⟨h0, -⟩ | ⟨i, ha⟩
  · exact absurd h0 hb
  have hmono := fun k h => Pmm.alloc_page_mono (n := toInt (pages_of 8)) (i := k)
    (p := (s.pmm.alloc_page (toInt (pages_of (bitmapSectors T)))).2) h
  generalize s.pmm.alloc_page (toInt (pages_of (bitmapSectors T))) = a at *
  rcases Pmm.alloc_page_spec a.2 (toInt (pages_of 8)) with ⟨h0, -⟩ | ⟨j, hc⟩
  · exact absurd h0 hf
  generalize a.2.alloc_page (toInt (pages_of 8)) = b at *
  have hone : toInt (pages_of 8) = 1 := by decide
  have hbaddr := ha.addr_eq
  have hfaddr := hc.addr_eq
  have hhint := hc.hint
  rw [ha.hint', hpages] at hhint
  have hmarked := ha.marked
  have hfree := ha.free
  have hposn := ha.pos
  rw [hpages] at hmarked hfree hposn
  simp only [Int.toNat_natCast] at hhint hmarked hfree
  refine ⟨⟨?_, ?_, ?_, ?_, ?_, ?_⟩, ?_⟩
  · rw [hbe]
    exact hb
  · rw [hfe]
    exact hf
  · rw [hfe, hfaddr]
    omega
  · rw [hbe, hfe]
    refine Or.inl ?_
    omega
  · intro x hlo hhi
    rw [hbe] at hlo hhi
    rw [hpe]
    refine hmono _ ?_
    rw [hmarked, Bool.or_eq_true, decide_eq_true_eq]
    exact Or.inl (by omega)
  · rw [hpe, hfe, hc.marked, Bool.or_eq_true, decide_eq_true_eq, hone]
    exact Or.inl (by omega)
  · have hmax := (hfree ((SECTOR_SIZE * bitmapSectors T + 4095) / 4096 - 1) (by omega)).2
    have : MAX_PAGES = 2 ^ 20 := by decide
    unfold SECTOR_SIZE at *
    omega

end Eke
