/-
What the file operations do to a mounted file system.

`Good` is the invariant the operations keep.  A write goes through an intermediate
state in which the old extent is already free but its slot still occupied: there the
volume without that slot is the one that satisfies the extent law (`Ready`).  The
results of the file are `write_step`, `delete_step` and `read_step`: each gives the
slots, the medium and the invariant after the operation.
-/
import Eke.Fs.Mounted

namespace Eke

/-- The invariant of a mounted file system. -/
structure Good (s : Sys) (d T : Nat) : Prop where
  mounted : Mounted s d T
  inv : (volume s d).Extents (dataStart T) T
  short : ∀ i e, (volume s d).slot i = some e → e.name.length < 32
  counts : ∀ i e, (volume s d).slot i = some e → e.block_count ≤ 2 ^ 23

variable {s s' : Sys} {d T : Nat}

theorem Good.named (g : Good s d T) : Named s := g.short

/-- The geometry of a mounted device leaves the sector numbers below 2^32. -/
theorem Mounted.dataStart_le (h : Mounted s d T) : 9 ≤ dataStart T ∧ dataStart T ≤ 2 ^ 23 + 9 := by
  have := h.small
  rw [dataStart_eq]
  omega

/-! ### Extents on the medium -/

/-- The free of an occupied slot's extent. -/
theorem free_sets (g : Good s d T) {i : Nat} {e : Entry} (he : (volume s d).slot i = some e) :
    Sets e.extent false s.mem (s.disks d)
      (spmm_free_contiguous (FileEntry.start_block s.mem (s.entry i))
        (FileEntry.block_count s.mem (s.entry i)) s.mem (s.disks d)).1
      (spmm_free_contiguous (FileEntry.start_block s.mem (s.entry i))
        (FileEntry.block_count s.mem (s.entry i)) s.mem (s.disks d)).2 := by
  obtain ⟨-, -, hstart, hcount⟩ := slotAt_some he
  obtain ⟨hlo, hhi, -⟩ := g.inv.inside i e he
  have hdata := g.mounted.dataStart_le
  have hT := g.mounted.lt_2_35
  rw [Sys.entry, hstart, hcount]
  refine spmm_free_contiguous_sets _ _ _ _ ?_ (by omega) ?_ ?_
  · rw [g.mounted.bitmap]
    exact g.mounted.buffers.bitmap_ne
  · rw [g.mounted.blocks]
    exact hhi
  · rw [g.mounted.blocks]
    omega

/-- The volume with an extent freed satisfies the law once the slot is out of it. -/
theorem freed_inv (g : Good s d T) {i : Nat} {e : Entry} (he : (volume s d).slot i = some e)
    {r : Store × BLOCKDEV_API} (hr : Sets e.extent false s.mem (s.disks d) r.1 r.2) :
    ((volume (s.onDisk d r) d).erase i).Extents (dataStart T) T :=
  g.inv.erase he (funext fun j => onDisk_slots g.mounted hr j) (fun _ hb => onDisk_bit_in hr hb)
    (fun _ hb => onDisk_bit_out hr hb) (onDisk_free g.mounted hr g.inv.free)

/-! ### The slot a write goes to -/

/-- After `write_target`: slot `i` is the target and its old extent, if any, is free. -/
structure Ready (s s₁ : Sys) (d T i : Nat) (p : CStr) : Prop where
  lt : i < MAX_FILES
  mounted : Mounted s₁ d T
  pmm : s₁.pmm = s.pmm
  table : s₁.file_table = s.file_table
  bitmap : s₁.bitmap_buf = s.bitmap_buf
  sectors : (s₁.disks d).sectors = (s.disks d).sectors
  table_bytes : ∀ x, s.file_table ≤ x → x < s.file_table + tableBytes → s₁.mem x = s.mem x
  slots : ∀ j, (volume s₁ d).slot j = (volume s d).slot j
  inv : ((volume s₁ d).erase i).Extents (dataStart T) T
  target : find_file s p = some i ∨ find_file s p = none ∧ (volume s d).slot i = none

theorem write_target_ready (g : Good s d T) {p : CStr} {i : Nat}
    (h : (write_target s d p).1 = some i) : Ready s (write_target s d p).2 d T i p := by
  unfold write_target at h ⊢
  cases hf : find_file s p with
  | some k =>
      rw [hf] at h
      obtain rfl := Option.some.inj h
      obtain ⟨⟨e, he, -⟩, -⟩ := (find_file_some g.named).mp hf
      have hr := free_sets g (i := k) he
      refine ⟨slotAt_lt he, onDisk_mounted g.mounted hr, rfl, rfl, rfl, ?_, ?_, ?_,
        freed_inv g he hr, Or.inl hf⟩
      · rw [onDisk_disk]
        exact hr.same.sectors
      · intro x hlo hhi
        exact onDisk_table_bytes g.mounted hr hlo hhi
      · exact onDisk_slots g.mounted hr
  | none =>
      rw [hf] at h
      obtain ⟨hlt, hslot⟩ := find_free_some h
      refine ⟨hlt, g.mounted, rfl, rfl, rfl, rfl, fun _ _ _ => rfl, fun _ => rfl, ?_,
        Or.inr ⟨hf, hslot⟩⟩
      rw [Volume.erase_none (v := volume s d) hslot]
      exact g.inv

/-! ### The metadata flush -/

/-- The medium after the two metadata writes. -/
def flushed (T : Nat) (sectors m : Store) (bm ft : Nat) : Store :=
  (sectors.blit SECTOR_SIZE (bitmapSectors T * SECTOR_SIZE) m bm).blit
    ((1 + bitmapSectors T) * SECTOR_SIZE) (8 * SECTOR_SIZE) m ft

theorem flush_disk (h : Mounted s d T) :
    (flush_metadata s d).disks d =
      { s.disks d with
        ops := (s.disks d).ops + 2
        sectors := flushed T (s.disks d).sectors s.mem s.bitmap_buf s.file_table } := by
  have hsmall : bitmapSectors T < 2 ^ 32 := by have := h.small; omega
  simp only [flush_metadata, Sys.setDisk, if_true, h.sb]
  rw [h.bitmap, show (Superblock.forDevice T).bitmap_block_count = bitmapSectors T from rfl,
    BLOCKDEV_API.write_sectors_reliable h.reliable hsmall,
    show (Superblock.forDevice T).file_table_block_count = 8 from rfl,
    BLOCKDEV_API.write_sectors_reliable (by exact h.reliable) (by omega)]
  simp only [flushed, show (Superblock.forDevice T).bitmap_start_lba = 1 from rfl,
    show (Superblock.forDevice T).file_table_start_lba = 1 + bitmapSectors T from rfl,
    Nat.one_mul, h.bitmap]

theorem flush_mounted (h : Mounted s d T) : Mounted (flush_metadata s d) d T where
  api := h.api
  active := h.active
  sb := h.sb
  reliable := by
    rw [flush_disk h]
    exact h.reliable
  bitmap := by
    rw [flush_disk h]
    exact h.bitmap
  blocks := by
    rw [flush_disk h]
    exact h.blocks
  covered := h.covered
  small := h.small
  buffers := ⟨h.buffers.1, h.buffers.2, h.buffers.3, h.buffers.4, h.buffers.5, h.buffers.6⟩

theorem flush_volume (h : Mounted s d T) : volume (flush_metadata s d) d = volume s d := by
  unfold volume
  rw [flush_disk h]
  rfl

/-- The data area is behind the metadata. -/
theorem flushed_data {sectors m : Store} {bm ft x : Nat} (hx : SECTOR_SIZE * dataStart T ≤ x) :
    flushed T sectors m bm ft x = sectors x := by
  rw [dataStart_eq] at hx
  unfold SECTOR_SIZE at *
  unfold flushed SECTOR_SIZE
  rw [Store.blit_out (by omega), Store.blit_out (by omega)]

theorem flushed_super {sectors m : Store} {bm ft x : Nat} (hx : x < SECTOR_SIZE) :
    flushed T sectors m bm ft x = sectors x := by
  unfold flushed SECTOR_SIZE at *
  rw [Store.blit_out (by omega), Store.blit_out (by omega)]

theorem flushed_bitmap {sectors m : Store} {bm ft k : Nat} (hk : k < SECTOR_SIZE * bitmapSectors T) :
    flushed T sectors m bm ft (SECTOR_SIZE + k) = m (bm + k) := by
  unfold flushed SECTOR_SIZE at *
  rw [Store.blit_out (by omega), Store.blit_in (by omega) (by omega)]
  exact congrArg m (by omega)

theorem flushed_table {sectors m : Store} {bm ft k : Nat} (hk : k < 8 * SECTOR_SIZE) :
    flushed T sectors m bm ft (SECTOR_SIZE * (1 + bitmapSectors T) + k) = m (ft + k) := by
  unfold flushed SECTOR_SIZE at *
  rw [Store.blit_in (by omega) (by omega)]
  exact congrArg m (by omega)

/--
The medium holds what the memory holds: the superblock, the first 4096 bytes of the
file table, and the bits of the data blocks.
-/
structure Synced (s : Sys) (d T : Nat) : Prop where
  super : Superblock.load (s.disks d).sectors 0 = Superblock.forDevice T
  table : ∀ k, k < 8 * SECTOR_SIZE →
    (s.disks d).sectors (SECTOR_SIZE * (1 + bitmapSectors T) + k) = s.mem (s.file_table + k)
  bits : ∀ b, dataStart T ≤ b → b < T →
    (s.disks d).sectors.bit SECTOR_SIZE b = s.mem.bit s.bitmap_buf b

theorem load_congr {m m' : Store} (h : ∀ x, x < 56 → m x = m' x) :
    Superblock.load m 0 = Superblock.load m' 0 := by
  have hle : ∀ a k, a + k ≤ 56 → m.le a k = m'.le a k :=
    fun a k hak => Store.le_congr fun x _ hx => h x (by omega)
  unfold Superblock.load
  rw [hle 0 4 (by omega), hle (0 + 4) 4 (by omega), hle (0 + 8) 8 (by omega),
    hle (0 + 16) 8 (by omega), hle (0 + 24) 8 (by omega), hle (0 + 32) 8 (by omega),
    hle (0 + 40) 8 (by omega), hle (0 + 48) 8 (by omega)]

/-- A flush puts the medium in step with the memory. -/
theorem flush_synced (h : Mounted s d T)
    (hsuper : Superblock.load (s.disks d).sectors 0 = Superblock.forDevice T) :
    Synced (flush_metadata s d) d T where
  super := by
    rw [flush_disk h]
    have hx : ∀ x, x < 56 → flushed T (s.disks d).sectors s.mem s.bitmap_buf s.file_table x
        = (s.disks d).sectors x := fun x hx => flushed_super (by unfold SECTOR_SIZE; omega)
    exact (load_congr hx).trans hsuper
  table := fun k hk => by
    rw [flush_disk h]
    exact flushed_table hk
  bits := fun b _ hb => by
    rw [flush_disk h]
    exact Store.bit_congr (flushed_bitmap (bit_byte h.covered hb))

/-! ### The temporary buffer -/

/-- The page allocation of a mounted file system. -/
theorem alloc_page_eq (h : Mounted s d T) (n : Nat) :
    s.alloc_page n = ((s.pmm.alloc_page (toInt n)).1,
      { s with pmm := (s.pmm.alloc_page (toInt n)).2 }) := by
  unfold Sys.alloc_page
  rw [if_pos h.api]

/-- A page allocation leaves everything mounted. -/
theorem alloc_mounted (h : Mounted s d T) (n : Nat) : Mounted (s.alloc_page n).2 d T := by
  rw [alloc_page_eq h]
  exact
    { h with
      buffers :=
        { h.buffers with
          bitmap_used := fun x hlo hhi => Pmm.alloc_page_mono (h.buffers.bitmap_used x hlo hhi)
          table_used := Pmm.alloc_page_mono h.buffers.table_used } }

/-- A temporary buffer of `n` pages, allocated and apart from the two buffers. -/
structure Temp (s : Sys) (T temp n : Nat) : Prop where
  aligned : temp % 4096 = 0
  pos : 0 < n
  clear : ∀ x, InBuffers s T x → x < temp ∨ temp + 4096 * n ≤ x

theorem temp_of_alloc (h : Mounted s d T) {blocks : Nat} (htail : TailSafe s blocks)
    (htemp : (s.alloc_page (temp_pages blocks)).1 ≠ 0) :
    Temp (s.alloc_page (temp_pages blocks)).2 T (s.alloc_page (temp_pages blocks)).1
      (temp_pages blocks) := by
  rw [alloc_page_eq h] at htemp ⊢
  have hclear := fun x hx => temp_avoids h htail htemp (x := x) hx
  rcases Pmm.alloc_page_spec s.pmm (toInt (temp_pages blocks)) with ⟨h0, -⟩ | ⟨r, ha⟩
  · exact absurd h0 htemp
  refine ⟨?_, ?_, hclear⟩
  · show (s.pmm.alloc_page _).1 % 4096 = 0
    rw [ha.addr_eq]
    omega
  · have := ha.pos
    rw [toInt_temp_pages] at this
    omega

/-- Freeing the temporary buffer frees no page of the two buffers. -/
theorem free_mounted (h : Mounted s d T) {temp n : Nat} (ht : Temp s T temp n) :
    Mounted (s.free_page temp) d T := by
  have hne : ∀ x, InBuffers s T x → x / 4096 ≠ temp / 4096 := by
    intro x hx
    have := ht.clear x hx
    have := ht.aligned
    have := ht.pos
    omega
  unfold Sys.free_page
  rw [if_pos h.api]
  exact
    { h with
      buffers :=
        { h.buffers with
          bitmap_used := fun x hlo hhi => by
            show (s.pmm.free_page temp).used _ = true
            rw [Pmm.used_free_page (hne x (Or.inl ⟨hlo, hhi⟩))]
            exact h.buffers.bitmap_used x hlo hhi
          table_used := by
            show (s.pmm.free_page temp).used _ = true
            rw [Pmm.used_free_page (hne s.file_table (Or.inr ⟨Nat.le_refl _, by
              unfold tableBytes FileEntrySize MAX_FILES
              omega⟩))]
            exact h.buffers.table_used } }

/-- Memory and medium may change outside the buffers and the device's bookkeeping. -/
theorem change_mounted (h : Mounted s d T) (m : Store) (dev : BLOCKDEV_API)
    (hr : dev.io = (s.disks d).io) (hb : dev.bitmap = (s.disks d).bitmap)
    (ht : dev.total_blocks = (s.disks d).total_blocks) :
    Mounted ({ s with mem := m }.setDisk d dev) d T := by
  refine ⟨h.api, h.active, h.sb, ?_, ?_, ?_, h.covered, h.small,
    ⟨h.buffers.1, h.buffers.2, h.buffers.3, h.buffers.4, h.buffers.5, h.buffers.6⟩⟩
  · intro n
    simp only [Sys.setDisk, if_true, hr]
    exact h.reliable n
  · simp only [Sys.setDisk, if_true, hb]
    exact h.bitmap
  · simp only [Sys.setDisk, if_true, ht]
    exact h.blocks

theorem volume_congr (h : Mounted s d T) (m : Store) (dev : BLOCKDEV_API)
    (hb : dev.bitmap = (s.disks d).bitmap) (hf : dev.free_blocks = (s.disks d).free_blocks)
    (hm : ∀ x, InBuffers s T x → m x = s.mem x) :
    (∀ i, (volume ({ s with mem := m }.setDisk d dev) d).slot i = (volume s d).slot i) ∧
      (∀ b, b < T → (volume ({ s with mem := m }.setDisk d dev) d).bit b = (volume s d).bit b) ∧
      (volume ({ s with mem := m }.setDisk d dev) d).free = (volume s d).free := by
  refine ⟨fun i => slots_congr (fun x hlo hhi => hm x (Or.inr ⟨hlo, hhi⟩)) i, fun b hb' => ?_, ?_⟩
  · show m.bit (({ s with mem := m }.setDisk d dev).disks d).bitmap b = _
    simp only [Sys.setDisk, if_true, hb]
    refine Store.bit_congr (hm _ (Or.inl ?_))
    rw [h.bitmap]
    have := bit_byte h.covered hb'
    omega
  · simp only [volume, Sys.setDisk, if_true, hf]

/-- Volumes with the same slots, the same bits below `T` and the same counter obey the law alike. -/
theorem inv_congr {v w : Volume} {lo : Nat} (hs : ∀ i, w.slot i = v.slot i)
    (hb : ∀ b, b < T → w.bit b = v.bit b) (hf : w.free = v.free) (h : v.Extents lo T) :
    w.Extents lo T := by
  have hclear : w.clear T = v.clear T := Volume.clear_congr hb
  have hslot : w.slot = v.slot := funext hs
  refine ⟨?_, ?_, fun b hb' => ?_, ?_⟩
  · rw [hslot]
    exact h.inside
  · rw [hslot]
    exact h.disjoint
  · rw [hslot, hb b hb']
    exact h.bits b hb'
  · rw [hf, hclear]
    exact h.free

end Eke
