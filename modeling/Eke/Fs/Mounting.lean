/-
What a mount comes to, on any device.

The first read decides: if it fails the mount is refused and the device in use stays the one it
was, if it succeeds the mount goes through, whatever the other sector operations do.  Which
superblock is then in use depends on them only where the device had to be formatted.
-/
import Eke.Fs.Contract

namespace Eke

variable {s : Sys} {d : Nat}

/-- The sector operations of a format. -/
def formatOps (T : Nat) : Nat := 1 + bitmapSectors T + 8

/--
The superblock a device is mounted with.  A device without one gets the one it is formatted with,
if that reaches sector 0 and comes back from there.
-/
def superblockOf (dev : BLOCKDEV_API) : Superblock :=
  if (Superblock.load dev.sectors 0).magic = EKE_FS_MAGIC then Superblock.load dev.sectors 0
  else if dev.io (dev.ops + 1) ≠ some 0 ∧ dev.io (dev.ops + 1 + formatOps dev.total_sectors) ≠ some 0 then
    Superblock.load ((Superblock.forDevice dev.total_sectors).save (fun _ => 0) 0) 0
  else Superblock.load dev.sectors 0

/-- The sector operations of a mount up to the superblock, with the format and the second read if
there are any. -/
def prepareOps (dev : BLOCKDEV_API) : Nat :=
  if (Superblock.load dev.sectors 0).magic = EKE_FS_MAGIC then 1
  else 1 + formatOps dev.total_sectors + 1

/-- The state of a mount once it has a superblock. -/
def started (s : Sys) (d : Nat) (dev : BLOCKDEV_API) (sb : Superblock) : Sys :=
  { s.setDisk d dev with active_sb := sb, active_dev := some d }

theorem setDisk_self (s : Sys) (d : Nat) (dev : BLOCKDEV_API) : (s.setDisk d dev).disks d = dev := if_pos rfl

theorem setDisk_other (s : Sys) {d e : Nat} (dev : BLOCKDEV_API) (h : e ≠ d) :
    (s.setDisk d dev).disks e = s.disks e := if_neg h

theorem setDisk_setDisk (s : Sys) (d : Nat) (dev dev' : BLOCKDEV_API) :
    (s.setDisk d dev).setDisk d dev' = s.setDisk d dev' := by
  have hdisks : ((s.setDisk d dev).setDisk d dev').disks = (s.setDisk d dev').disks := by
    funext e
    by_cases he : e = d
    · rw [he, setDisk_self, setDisk_self]
    · rw [setDisk_other _ _ he, setDisk_other _ _ he, setDisk_other _ _ he]
  exact congrArg (fun f => { s with disks := f }) hdisks

/-! ### Sector 0 -/

theorem first_sector_read (dev : BLOCKDEV_API) (m : Store) {x : Nat} (hx : x < SECTOR_SIZE) :
    (dev.read_sectors 0 1 m 0).2.1 x = if dev.io dev.ops = some 0 then m x else dev.sectors x := by
  have hone : 1 % 2 ^ 32 = 1 := rfl
  simp only [BLOCKDEV_API.read_sectors, hone]
  rcases dev.io dev.ops with - | - | k <;> dsimp only
  · rw [if_neg (by simp), Store.blit_in (by omega) (by omega)]
    exact congrArg _ (by omega)
  · rw [if_pos rfl, Nat.zero_min, Store.blit_out (by omega)]
  · rw [if_neg (by simp), Nat.min_eq_right (by omega), Store.blit_in (by omega) (by omega)]
    exact congrArg _ (by omega)

theorem first_sector_written (dev : BLOCKDEV_API) (m : Store) {x : Nat} (hx : x < SECTOR_SIZE) :
    (dev.write_sectors 0 1 m 0).2.sectors x = if dev.io dev.ops = some 0 then dev.sectors x else m x := by
  have hone : 1 % 2 ^ 32 = 1 := rfl
  simp only [BLOCKDEV_API.write_sectors, hone]
  rcases dev.io dev.ops with - | - | k <;> dsimp only
  · rw [if_neg (by simp), Store.blit_in (by omega) (by omega)]
    exact congrArg _ (by omega)
  · rw [if_pos rfl, Nat.zero_min, Store.blit_out (by omega)]
  · rw [if_neg (by simp), Nat.min_eq_right (by omega), Store.blit_in (by omega) (by omega)]
    exact congrArg _ (by omega)

/-- A write behind sector 0 keeps it. -/
theorem later_sector_written (dev : BLOCKDEV_API) (lba : Nat) (hlba : 0 < lba) (count : Nat) (m : Store)
    {x : Nat} (hx : x < SECTOR_SIZE) : (dev.write_sectors lba count m 0).2.sectors x = dev.sectors x := by
  have hbefore : x < lba * SECTOR_SIZE := Nat.lt_of_lt_of_le hx (Nat.le_mul_of_pos_left _ hlba)
  simp only [BLOCKDEV_API.write_sectors]
  split
  · exact Store.blit_out (Or.inl hbefore)
  · exact Store.blit_out (Or.inl hbefore)

/-- Two stores with the same sector 0. -/
def SameFirst (m m' : Store) : Prop := ∀ x, x < SECTOR_SIZE → m x = m' x

theorem SameFirst.load {m m' : Store} (h : SameFirst m m') : Superblock.load m 0 = Superblock.load m' 0 :=
  load_congr fun x hx => h x (by unfold SECTOR_SIZE; omega)

/-! ### Formatting -/

/-- Writes count as operations and touch nothing but the medium, whatever comes of them. -/
theorem write_loop_any (lba : Nat) (hlba : 0 < lba) (m : Store) (n : Nat) (dev : BLOCKDEV_API) :
    ∃ sectors, loop (fun i (dev : BLOCKDEV_API) => (dev.write_sectors (lba + i) 1 m 0).2) n dev =
      { dev with ops := dev.ops + n, sectors := sectors } ∧ SameFirst sectors dev.sectors := by
  refine loop_induct (P := fun k (t : BLOCKDEV_API) => ∃ sectors, t =
    { dev with ops := dev.ops + k, sectors := sectors } ∧ SameFirst sectors dev.sectors)
    ⟨dev.sectors, rfl, fun _ _ => rfl⟩ ?_
  rintro k t - ⟨sectors, rfl, hsame⟩
  obtain ⟨sectors', hwrite⟩ := BLOCKDEV_API.write_sectors_dev
    { dev with ops := dev.ops + k, sectors := sectors } (lba + k) 1 m 0
  refine ⟨sectors', hwrite, fun x hx => ?_⟩
  have hkeep := later_sector_written { dev with ops := dev.ops + k, sectors := sectors }
    (lba + k) (by omega) 1 m hx
  rw [hwrite] at hkeep
  exact hkeep.trans (hsame x hx)

/-- A format always reports success. -/
theorem format_any (s : Sys) (d : Nat) : ∃ sectors, eke_fs_format s (some d) =
    (0, s.setDisk d { s.disks d with
      ops := (s.disks d).ops + formatOps (s.disks d).total_sectors
      sectors := sectors }) ∧
    SameFirst sectors (if (s.disks d).io (s.disks d).ops = some 0 then (s.disks d).sectors
      else (Superblock.forDevice (s.disks d).total_sectors).save (fun _ => 0) 0) := by
  simp only [eke_fs_format]
  obtain ⟨sectors₁, h₁⟩ := BLOCKDEV_API.write_sectors_dev (s.disks d) 0 1
    ((Superblock.forDevice (s.disks d).total_sectors).save (fun _ => 0) 0) 0
  have hfirst : SameFirst sectors₁ (if (s.disks d).io (s.disks d).ops = some 0 then (s.disks d).sectors
      else (Superblock.forDevice (s.disks d).total_sectors).save (fun _ => 0) 0) := by
    intro x hx
    have hwritten := first_sector_written (s.disks d)
      ((Superblock.forDevice (s.disks d).total_sectors).save (fun _ => 0) 0) hx
    rw [h₁] at hwritten
    refine hwritten.trans ?_
    split
    · rfl
    · rfl
  rw [h₁]
  obtain ⟨sectors₂, h₂, hkeep₂⟩ := write_loop_any
    (Superblock.forDevice (s.disks d).total_sectors).bitmap_start_lba (by decide : 0 < 1)
    (fun _ => 0) (Superblock.forDevice (s.disks d).total_sectors).bitmap_block_count
    { s.disks d with ops := (s.disks d).ops + 1, sectors := sectors₁ }
  rw [h₂]
  obtain ⟨sectors₃, h₃, hkeep₃⟩ := write_loop_any
    (Superblock.forDevice (s.disks d).total_sectors).file_table_start_lba
    (show 0 < 1 + bitmapSectors (s.disks d).total_sectors by omega)
    (fun _ => 0) (Superblock.forDevice (s.disks d).total_sectors).file_table_block_count
    { s.disks d with
      ops := (s.disks d).ops + 1 + (Superblock.forDevice (s.disks d).total_sectors).bitmap_block_count
      sectors := sectors₂ }
  rw [h₃]
  refine ⟨sectors₃, ?_, fun x hx => (hkeep₃ x hx).trans ((hkeep₂ x hx).trans (hfirst x hx))⟩
  have hops : (s.disks d).ops + 1 + bitmapSectors (s.disks d).total_sectors + 8 =
      (s.disks d).ops + formatOps (s.disks d).total_sectors := by
    unfold formatOps
    omega
  rw [← hops]
  rfl

/-! ### Mounting -/

/-- A mount whose first read fails. -/
theorem mount_refused {k : Nat} (h : (s.disks d).io (s.disks d).ops = some k) :
    eke_fs_mount s (some d) = (-1, s.setDisk d { s.disks d with ops := (s.disks d).ops + 1 }) := by
  have hread : ((s.disks d).read_sectors 0 1 (fun _ => 0) 0).1 = -1 := by
    simp only [BLOCKDEV_API.read_sectors, h]
  simp only [eke_fs_mount, hread, BLOCKDEV_API.read_sectors_dev]
  rfl

/-- A mount whose first read succeeds. -/
theorem mount_accepted (h : (s.disks d).io (s.disks d).ops = none) :
    ∃ sectors, eke_fs_mount s (some d) =
        (0, mount_table (mount_bitmap (started s d { s.disks d with
          ops := (s.disks d).ops + prepareOps (s.disks d), sectors := sectors }
          (superblockOf (s.disks d))) d) d) ∧
      ((s.disks d).Quiet (prepareOps (s.disks d)) →
        Superblock.load sectors 0 = superblockOf (s.disks d)) := by
  have hfirst : SameFirst ((s.disks d).read_sectors 0 1 (fun _ => 0) 0).2.1 (s.disks d).sectors := by
    intro x hx
    rw [first_sector_read _ _ hx, h, if_neg (by simp)]
  have hok : ((s.disks d).read_sectors 0 1 (fun _ => 0) 0).1 = 0 := by
    simp only [BLOCKDEV_API.read_sectors, h]
  simp only [eke_fs_mount]
  rw [if_neg (not_not.mpr hok), hfirst.load, BLOCKDEV_API.read_sectors_dev]
  generalize ((s.disks d).read_sectors 0 1 (fun _ => 0) 0).2.1 = buf at hfirst
  by_cases hmagic : (Superblock.load (s.disks d).sectors 0).magic = EKE_FS_MAGIC
  · have hsuper : superblockOf (s.disks d) = Superblock.load (s.disks d).sectors 0 := if_pos hmagic
    rw [if_neg (not_not.mpr hmagic), hsuper, show prepareOps (s.disks d) = 1 from if_pos hmagic]
    refine ⟨(s.disks d).sectors, ?_, fun _ => rfl⟩
    simp only [mount_super, hfirst.load]
    rfl
  · have hops : prepareOps (s.disks d) = 1 + formatOps (s.disks d).total_sectors + 1 := if_neg hmagic
    rw [if_pos hmagic, hops]
    obtain ⟨sectors, hformat, hnew⟩ := format_any (s.setDisk d { s.disks d with ops := (s.disks d).ops + 1 }) d
    rw [setDisk_self] at hnew
    rw [hformat, setDisk_self, setDisk_setDisk, if_neg (by simp), setDisk_self, setDisk_setDisk]
    have hreread : SameFirst (({ s.disks d with
        ops := (s.disks d).ops + 1 + formatOps (s.disks d).total_sectors
        sectors := sectors } : BLOCKDEV_API).read_sectors 0 1 buf 0).2.1
        (if (s.disks d).io ((s.disks d).ops + 1 + formatOps (s.disks d).total_sectors) = some 0 then
          (s.disks d).sectors else sectors) := by
      intro x hx
      rw [first_sector_read _ _ hx]
      split
      · exact hfirst x hx
      · rfl
    have hsuper : Superblock.load (if (s.disks d).io ((s.disks d).ops + 1 + formatOps (s.disks d).total_sectors) =
        some 0 then (s.disks d).sectors else sectors) 0 = superblockOf (s.disks d) := by
      unfold superblockOf
      rw [if_neg hmagic]
      by_cases hback : (s.disks d).io ((s.disks d).ops + 1 + formatOps (s.disks d).total_sectors) = some 0
      · rw [if_pos hback, if_neg fun h => h.2 hback]
      · rw [if_neg hback, hnew.load]
        by_cases hthere : (s.disks d).io ((s.disks d).ops + 1) = some 0
        · rw [if_pos hthere, if_neg fun h => h.1 hthere]
        · rw [if_neg hthere, if_pos ⟨hthere, hback⟩]
    refine ⟨sectors, ?_, fun hquiet => ?_⟩
    · rw [BLOCKDEV_API.read_sectors_dev]
      simp only [mount_super, hreread.load, hsuper]
      simp only [started, Nat.add_assoc]
    · have hback : (s.disks d).io ((s.disks d).ops + 1 + formatOps (s.disks d).total_sectors) = none := by
        have hlast := hquiet (1 + formatOps (s.disks d).total_sectors) (by omega)
        rwa [← Nat.add_assoc] at hlast
      rw [← hsuper, hback, if_neg (by simp)]

theorem mount_table_sb (s : Sys) (d : Nat) : (mount_table s d).active_sb = s.active_sb := by
  simp only [mount_table, Sys.setDisk]
  rw [alloc_table_frame]

theorem alloc_bitmap_buf (s : Sys) : (alloc_bitmap s).bitmap_buf =
    if s.bitmap_buf = 0 ∧ s.g_api then (s.pmm.alloc_page (toInt (pages_of s.active_sb.bitmap_block_count))).1
    else s.bitmap_buf := by
  unfold alloc_bitmap Sys.alloc_page
  split
  · next h => rw [if_pos h.2]
  · rfl

theorem alloc_bitmap_pmm (s : Sys) : (alloc_bitmap s).pmm =
    if s.bitmap_buf = 0 ∧ s.g_api then (s.pmm.alloc_page (toInt (pages_of s.active_sb.bitmap_block_count))).2
    else s.pmm := by
  unfold alloc_bitmap Sys.alloc_page
  split
  · next h => rw [if_pos h.2]
  · rfl

theorem alloc_table_table (s : Sys) : (alloc_table s).file_table =
    if s.file_table = 0 ∧ s.g_api then (s.pmm.alloc_page (toInt (pages_of s.active_sb.file_table_block_count))).1
    else s.file_table := by
  unfold alloc_table Sys.alloc_page
  split
  · next h => rw [if_pos h.2]
  · rfl

/-- The buffers of a mount with superblock `sb`: those there are, or those the page allocator gives. -/
def buffered (s : Sys) (sb : Superblock) : Sys := alloc_table (alloc_bitmap { s with active_sb := sb })

theorem buffered_bitmap (s : Sys) (sb : Superblock) :
    (buffered s sb).bitmap_buf = (alloc_bitmap { s with active_sb := sb }).bitmap_buf := by
  unfold buffered
  rw [alloc_table_frame]

/-- A mount that is not refused: the superblock it uses and the buffers it has. -/
theorem mount_accepted_fields (hio : (s.disks d).io (s.disks d).ops = none) :
    (eke_fs_mount s (some d)).1 = 0 ∧
      (eke_fs_mount s (some d)).2.active_sb = superblockOf (s.disks d) ∧
      (eke_fs_mount s (some d)).2.bitmap_buf =
        (alloc_bitmap { s with active_sb := superblockOf (s.disks d) }).bitmap_buf ∧
      (eke_fs_mount s (some d)).2.file_table = (buffered s (superblockOf (s.disks d))).file_table := by
  obtain ⟨sectors, heq, -⟩ := mount_accepted hio
  rw [heq]
  refine ⟨rfl, ?_, ?_, ?_⟩
  · show (mount_table (mount_bitmap _ d) d).active_sb = _
    rw [mount_table_sb, mount_bitmap_sb]
    rfl
  · show (mount_table (mount_bitmap _ d) d).bitmap_buf = _
    rw [mount_table_buf, mount_bitmap_buf, alloc_bitmap_buf, alloc_bitmap_buf]
    rfl
  · show (mount_table (mount_bitmap _ d) d).file_table = _
    unfold buffered
    rw [mount_table_table, alloc_table_table, alloc_table_table, mount_bitmap_table, mount_bitmap_api,
      mount_bitmap_pmm, mount_bitmap_sb, alloc_bitmap_pmm, alloc_bitmap_pmm, alloc_bitmap_frame]
    rfl

theorem mount_bitmap_other (s : Sys) {d e : Nat} (h : e ≠ d) : (mount_bitmap s d).disks e = s.disks e := by
  simp only [mount_bitmap]
  rw [setDisk_other _ _ h, alloc_bitmap_frame]

theorem mount_table_other (s : Sys) {d e : Nat} (h : e ≠ d) : (mount_table s d).disks e = s.disks e := by
  simp only [mount_table]
  rw [setDisk_other _ _ h, alloc_table_frame]

/-- A mount leaves the other devices alone. -/
theorem mount_other (s : Sys) {d e : Nat} (h : e ≠ d) : (eke_fs_mount s (some d)).2.disks e = s.disks e := by
  cases hio : (s.disks d).io (s.disks d).ops with
  | none =>
      obtain ⟨sectors, heq, -⟩ := mount_accepted hio
      rw [heq]
      dsimp only
      rw [mount_table_other _ h, mount_bitmap_other _ h]
      exact setDisk_other _ _ h
  | some k =>
      rw [mount_refused hio]
      exact setDisk_other _ _ h

/-- The device in use after a mount. -/
theorem mount_active_dev (s : Sys) (d : Nat) : (eke_fs_mount s (some d)).2.active_dev =
    if (s.disks d).io (s.disks d).ops = none then some d else s.active_dev := by
  cases hio : (s.disks d).io (s.disks d).ops with
  | none =>
      obtain ⟨sectors, heq, -⟩ := mount_accepted hio
      rw [heq, if_pos rfl]
      simp only [mount_table, mount_bitmap, Sys.setDisk]
      rw [alloc_table_frame, alloc_bitmap_frame]
      rfl
  | some k =>
      rw [mount_refused hio, if_neg (by simp)]
      rfl

/-- A working device without a superblock is mounted with that of its size. -/
theorem superblockOf_fresh {dev : BLOCKDEV_API} (hmagic : (Superblock.load dev.sectors 0).magic ≠ EKE_FS_MAGIC)
    (hio : dev.Quiet (prepareOps dev)) (hT : dev.total_sectors < 2 ^ 64) :
    superblockOf dev = Superblock.forDevice dev.total_sectors := by
  have hops : prepareOps dev = 1 + formatOps dev.total_sectors + 1 := if_neg hmagic
  rw [hops] at hio
  unfold superblockOf
  have hthere := hio 1 (by omega)
  have hback := hio (1 + formatOps dev.total_sectors) (by omega)
  rw [← Nat.add_assoc] at hback
  rw [if_neg hmagic, hthere, hback, if_pos ⟨by simp, by simp⟩, forDevice_load hT]

theorem superblockOf_blank {T : Nat} (hT : T < 2 ^ 64) : superblockOf (blankDevice T) = Superblock.forDevice T := by
  refine superblockOf_fresh ?_ (fun _ _ => rfl) hT
  show (Superblock.load (fun _ => 0) 0).magic ≠ _
  decide

end Eke
