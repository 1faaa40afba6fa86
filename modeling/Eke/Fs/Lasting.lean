/-
What a call that returns 0 has done to the device.

A write and a delete end with both metadata areas on the medium and the data of the file where its
slot says, a mount with the device's own bit map and file table in memory: provided no sector
operation of the call fails, since the file system would not notice, and what the call moves
around does not overlap.  Over a run that is `device_errors`.
-/
import Eke.Lib.Throughout
import Eke.Fs.Issuing

namespace Eke

variable {s s' : Sys} {d i n : Nat}

/-! ### The metadata areas -/

namespace Superblock

/-- The two areas can be read and written in one go and do not overlap. -/
structure Disjoint (sb : Superblock) : Prop where
  bitmap : sb.bitmap_block_count < 2 ^ 32
  table : sb.file_table_block_count < 2 ^ 32
  apart : sb.bitmap_start_lba + sb.bitmap_block_count ≤ sb.file_table_start_lba ∨
    sb.file_table_start_lba + sb.file_table_block_count ≤ sb.bitmap_start_lba

/-- Block `b` is in one of them. -/
def InMetadata (sb : Superblock) (b : Nat) : Prop :=
  sb.bitmap_start_lba ≤ b ∧ b < sb.bitmap_start_lba + sb.bitmap_block_count ∨
    sb.file_table_start_lba ≤ b ∧ b < sb.file_table_start_lba + sb.file_table_block_count

/-- Slot `i` is in the sectors of the table. -/
def HasSlot (sb : Superblock) (i : Nat) : Prop := FileEntrySize * (i + 1) ≤ sb.file_table_block_count * SECTOR_SIZE

end Superblock

/-- The bit map and the file table in memory are on the medium. -/
structure Flushed (s : Sys) (d : Nat) : Prop where
  bitmap : ∀ k, k < s.active_sb.bitmap_block_count * SECTOR_SIZE →
    (s.disks d).sectors (s.active_sb.bitmap_start_lba * SECTOR_SIZE + k) = s.mem ((s.disks d).bitmap + k)
  table : ∀ k, k < s.active_sb.file_table_block_count * SECTOR_SIZE →
    (s.disks d).sectors (s.active_sb.file_table_start_lba * SECTOR_SIZE + k) = s.mem (s.file_table + k)

/-- A flush that is not disturbed. -/
theorem flush_quiet (hdis : s.active_sb.Disjoint) (hquiet : (s.disks d).Quiet 2) :
    (flush_metadata s d).disks d = { s.disks d with
      ops := (s.disks d).ops + 1 + 1
      sectors := ((s.disks d).sectors.blit (s.active_sb.bitmap_start_lba * SECTOR_SIZE)
        (s.active_sb.bitmap_block_count * SECTOR_SIZE) s.mem (s.disks d).bitmap).blit
        (s.active_sb.file_table_start_lba * SECTOR_SIZE) (s.active_sb.file_table_block_count * SECTOR_SIZE) s.mem
        s.file_table } := by
  unfold flush_metadata
  dsimp only
  rw [setDisk_self, BLOCKDEV_API.write_sectors_ok (hquiet.first (by omega)) hdis.bitmap,
    BLOCKDEV_API.write_sectors_ok (by exact hquiet 1 (by omega)) hdis.table]

theorem flush_flushed (hdis : s.active_sb.Disjoint) (hquiet : (s.disks d).Quiet 2) :
    Flushed (flush_metadata s d) d ∧
      ∀ x, ¬ s.active_sb.InMetadata (x / SECTOR_SIZE) →
        ((flush_metadata s d).disks d).sectors x = (s.disks d).sectors x := by
  have hapart := hdis.apart
  have hdisk := flush_quiet hdis hquiet
  refine ⟨⟨fun k hk => ?_, fun k hk => ?_⟩, fun x hx => ?_⟩
  · rw [hdisk]
    change k < s.active_sb.bitmap_block_count * SECTOR_SIZE at hk
    show Store.blit _ _ _ _ _ (s.active_sb.bitmap_start_lba * SECTOR_SIZE + k) =
      s.mem ((s.disks d).bitmap + k)
    unfold SECTOR_SIZE at *
    rw [Store.blit_out (by omega), Store.blit_in (by omega) (by omega)]
    exact congrArg s.mem (by omega)
  · rw [hdisk]
    change k < s.active_sb.file_table_block_count * SECTOR_SIZE at hk
    show Store.blit _ _ _ _ _ (s.active_sb.file_table_start_lba * SECTOR_SIZE + k) = s.mem (s.file_table + k)
    rw [Store.blit_in (by omega) (by omega)]
    exact congrArg s.mem (by omega)
  · rw [hdisk]
    unfold Superblock.InMetadata at hx
    unfold SECTOR_SIZE at *
    show Store.blit _ _ _ _ _ x = _
    rw [Store.blit_out (by omega), Store.blit_out (by omega)]

/-! ### Deleting -/

/-- What a delete that returns 0 has to leave behind. -/
def DeleteLasts (s s' : Sys) (path : CStr) : Prop :=
  ∃ d i, s.active_dev = some d ∧ find_file s path = some i ∧ Flushed s' d ∧ s'.active_sb.HasSlot i ∧
    slotAt s'.mem s'.file_table i = none

theorem delete_lasts {path : CStr}
    (hact : s.active_dev = some d) (hfind : find_file s path = some i)
    (hdis : s.active_sb.Disjoint) (hslot : s.active_sb.HasSlot i) (hquiet : (s.disks d).Quiet 2) :
    DeleteLasts s (flush_metadata (cleared s d i) d) path := by
  obtain ⟨hflushed, -⟩ := flush_flushed (s := cleared s d i) (d := d) hdis
    ((cleared_free s d i).quiet (by rwa [Nat.zero_add]))
  refine ⟨d, i, hact, hfind, hflushed, hslot, ?_⟩
  show slotAt (Store.set (Store.set _ (s.file_table + FileEntrySize * i + 44) 0)
    (s.file_table + FileEntrySize * i) 0) s.file_table i = none
  rw [slotAt_clear, if_pos rfl]

/-! ### Writing -/

/-- What a write that returns 0 has to leave behind. -/
def WriteLasts (s s' : Sys) (path : CStr) (buf : Store) (bytes : Nat) : Prop :=
  ∃ d i start, s.active_dev = some d ∧ Flushed s' d ∧ s'.active_sb.HasSlot i ∧
    slotAt s'.mem s'.file_table i = some {
      name := path.chars.take 31, size := bytes, start_block := start, block_count := blocks_for bytes } ∧
    ∀ k, k < bytes → (s'.disks d).sectors (start * SECTOR_SIZE + k) = buf k

/-- The metadata areas are out of the way of a write of `bytes` bytes to `path`. -/
structure Clear (s : Sys) (d : Nat) (path : CStr) (bytes : Nat) : Prop where
  disjoint : s.active_sb.Disjoint
  short : bytes < 2 ^ 32
  blocks : (s.disks d).total_blocks ≤ 2 ^ 32
  marked : ∀ b, b < (s.disks d).total_blocks → s.active_sb.InMetadata b → s.mem.bit (s.disks d).bitmap b = true
  extent : ∀ i, find_file s path = some i → ∀ b, s.active_sb.InMetadata b →
    ¬ Run (FileEntry.start_block s.mem (s.entry i)) (FileEntry.block_count s.mem (s.entry i)) b
  slot : ∀ i, find_file s path = some i ∨ find_file s path = none ∧ find_free s = some i → s.active_sb.HasSlot i

theorem found_lt {p : Nat → Bool} (h : (List.range MAX_FILES).find? p = some i) : i < MAX_FILES :=
  List.mem_range.mp (List.mem_of_find?_eq_some h)

/-- The slot of a write, and what freeing the old extent leaves alone. -/
theorem write_target_keeps {path : CStr} (h : (write_target s d path).1 = some i) :
    i < MAX_FILES ∧ (find_file s path = some i ∨ find_file s path = none ∧ find_free s = some i) ∧
      SameDev (s.disks d) ((write_target s d path).2.disks d) ∧
      ∀ b, (∀ j, find_file s path = some j →
          ¬ Run (FileEntry.start_block s.mem (s.entry j)) (FileEntry.block_count s.mem (s.entry j)) b) →
        (write_target s d path).2.mem.bit (s.disks d).bitmap b = s.mem.bit (s.disks d).bitmap b := by
  unfold write_target at h ⊢
  cases hfind : find_file s path with
  | some j =>
      rw [hfind] at h
      cases h
      obtain ⟨hsame, hbits⟩ := spmm_free_contiguous_keeps s.mem (s.disks d)
        (FileEntry.start_block s.mem (s.entry i)) (FileEntry.block_count s.mem (s.entry i))
      have hstart : FileEntry.start_block s.mem (s.entry i) < 2 ^ 32 := Store.le_lt 4 _
      have hcount : FileEntry.block_count s.mem (s.entry i) < 2 ^ 32 := Store.le_lt 4 _
      refine ⟨found_lt hfind, Or.inl rfl, ?_, fun b hb => hbits (by omega) b (hb i rfl)⟩
      rw [onDisk_disk]
      exact hsame
  | none =>
      rw [hfind] at h
      have hfree : find_free s = some i := h
      exact ⟨found_lt hfree, Or.inr ⟨rfl, hfree⟩, SameDev.refl _, fun _ _ => rfl⟩

/-- The blocks a write goes to are none of the metadata's. -/
theorem Clear.off_metadata {path : CStr} {bytes : Nat} (hclear : Clear s d path bytes)
    (htarget : (write_target s d path).1 = some i) (hstart : startOf s d path bytes ≠ 0) :
    startOf s d path bytes + blocks_for bytes ≤ 2 ^ 32 ∧
      ∀ b, Run (startOf s d path bytes) (blocks_for bytes) b → ¬ s.active_sb.InMetadata b := by
  obtain ⟨-, -, hsame, hbits⟩ := write_target_keeps htarget
  have hrun : ClearRun (write_target s d path).2.mem ((write_target s d path).2.disks d).bitmap
      ((write_target s d path).2.disks d).total_blocks (blocks_for bytes) (startOf s d path bytes) :=
    spmm_alloc_contiguous_run hstart
  have hle := hrun.le
  rw [hsame.total_blocks] at hle
  refine ⟨Nat.le_trans hle hclear.blocks, fun b hb hmeta => ?_⟩
  have hfree := hrun.clear (b - startOf s d path bytes) (by have := hb.1; have := hb.2; omega)
  rw [Nat.add_sub_cancel' hb.1, hsame.bitmap, hbits b fun j hj => hclear.extent j hj b hmeta,
    hclear.marked b (Nat.lt_of_lt_of_le hb.2 hle) hmeta] at hfree
  cases hfree

/-- The state of a write when it flushes. -/
def filled (s : Sys) (d i : Nat) (path : CStr) (buf : Store) (bytes blocks start_block temp : Nat) : Sys :=
  let mem := (s.mem.fill temp (blocks * SECTOR_SIZE % 2 ^ 32) 0).blit temp bytes buf 0
  let s' := ({ s with mem := mem }.setDisk d ((s.disks d).write_sectors start_block blocks mem temp).2).free_page temp
  { s' with mem := update_entry s'.mem (s'.entry i) path bytes start_block blocks }

theorem write_data_filled (s : Sys) (d i : Nat) (path : CStr) (buf : Store) (bytes blocks start_block temp : Nat) :
    write_data s d i path buf bytes blocks start_block temp =
      flush_metadata (filled s d i path buf bytes blocks start_block temp) d := rfl

theorem free_page_frame (s : Sys) (addr : Nat) : s.free_page addr = { s with pmm := (s.free_page addr).pmm } := by
  unfold Sys.free_page
  split
  · rfl
  · rfl

/-- The data on the medium and the slot in memory before the flush. -/
theorem filled_spec (path : CStr) (buf : Store) (temp : Nat) {bytes blocks start : Nat} (hi : i < MAX_FILES)
    (hbytes : bytes < 2 ^ 32) (hblocks : blocks < 2 ^ 32) (hstart : start < 2 ^ 32)
    (hfit : bytes ≤ blocks * SECTOR_SIZE) (hio : (s.disks d).io (s.disks d).ops = none) :
    let s' := filled s d i path buf bytes blocks start temp
    s'.active_sb = s.active_sb ∧ s'.file_table = s.file_table ∧ Issues s s' d 1 ∧
      slotAt s'.mem s'.file_table i = some {
        name := path.chars.take 31, size := bytes, start_block := start, block_count := blocks } ∧
      ∀ k, k < bytes → (s'.disks d).sectors (start * SECTOR_SIZE + k) = buf k := by
  intro s'
  have hs' : s' = filled s d i path buf bytes blocks start temp := rfl
  unfold filled at hs'
  dsimp only at hs'
  rw [BLOCKDEV_API.write_sectors_ok hio hblocks, free_page_frame] at hs'
  rw [hs']
  refine ⟨rfl, rfl, .set_disk rfl rfl rfl, ?_, fun k hk => ?_⟩
  · show slotAt (update_entry _ (s.file_table + FileEntrySize * i) path bytes start blocks) s.file_table i = _
    rw [slotAt_update_entry hi hbytes hstart hblocks, if_pos rfl]
  · simp only [setDisk_self]
    rw [Store.blit_in (by omega) (by omega), Store.blit_in (by omega) (by omega)]
    exact congrArg buf (by omega)

/-- The allocators leave the superblock in use alone. -/
theorem placed_sb (s : Sys) (d : Nat) (path : CStr) (bytes n : Nat) :
    ((placed s d path bytes).alloc_page n).2.active_sb = s.active_sb := by
  have htarget : (write_target s d path).2.active_sb = s.active_sb := by
    unfold write_target
    split
    · rfl
    · rfl
  unfold Sys.alloc_page
  split
  · exact htarget
  · exact htarget

theorem write_lasts {path : CStr} {buf : Store} {bytes temp : Nat} (hact : s.active_dev = some d)
    (htarget : (write_target s d path).1 = some i) (hstart : startOf s d path bytes ≠ 0)
    (hclear : Clear s d path bytes) (hquiet : (s.disks d).Quiet 3) :
    WriteLasts s (write_data ((placed s d path bytes).alloc_page (temp_pages (blocks_for bytes))).2 d i path buf bytes
      (blocks_for bytes) (startOf s d path bytes) temp) path buf bytes := by
  obtain ⟨hi, hslot, -, -⟩ := write_target_keeps htarget
  obtain ⟨hend, hoff⟩ := hclear.off_metadata htarget hstart
  obtain ⟨hcount, hfit⟩ := blocks_for_bounds hclear.short
  have hpos := blocks_for_pos bytes
  rw [write_data_filled]
  have hissues : Issues s ((placed s d path bytes).alloc_page (temp_pages (blocks_for bytes))).2 d 0 :=
    (placed_issues s d path bytes).trans (.of_disks (alloc_page_disks _ _) d)
  have hsb := placed_sb s d path bytes (temp_pages (blocks_for bytes))
  generalize ((placed s d path bytes).alloc_page (temp_pages (blocks_for bytes))).2 = s₁ at hissues hsb ⊢
  have hquiet₁ : (s₁.disks d).Quiet 3 := hissues.quiet (by rwa [Nat.zero_add])
  obtain ⟨hsb₂, hft₂, hissues₂, hslot₂, hdata⟩ := filled_spec (s := s₁) (d := d) path buf temp
    hi hclear.short (by omega) (show startOf s d path bytes < 2 ^ 32 by omega) hfit
    (hquiet₁.first (by omega))
  generalize filled s₁ d i path buf bytes (blocks_for bytes) (startOf s d path bytes) temp = s₂ at *
  have hsuper : s₂.active_sb = s.active_sb := hsb₂.trans hsb
  obtain ⟨hflushed, hkeep⟩ := flush_flushed (s := s₂) (d := d) (by rw [hsuper]; exact hclear.disjoint)
    (hissues₂.quiet hquiet₁)
  refine ⟨d, i, startOf s d path bytes, hact, hflushed, ?_, hslot₂, fun k hk => ?_⟩
  · show s₂.active_sb.HasSlot i
    rw [hsuper]
    exact hclear.slot i hslot
  · rw [hkeep, hdata k hk]
    rw [hsuper]
    refine hoff _ ?_
    unfold SECTOR_SIZE Run at *
    omega

/-! ### Mounting -/

/-- What a mount that returns 0 has to leave behind: the device's own metadata in memory. -/
structure MountLasts (s : Sys) (d : Nat) : Prop where
  active : s.active_dev = some d
  super : s.active_sb = Superblock.load (s.disks d).sectors 0
  buffers : s.bitmap_buf ≠ 0 ∧ s.file_table ≠ 0
  bitmap : (s.disks d).bitmap = s.bitmap_buf
  bits : ∀ b, b < 4096 * s.active_sb.bitmap_block_count → s.mem.bit s.bitmap_buf b =
    (decide (b < s.active_sb.data_start_lba ∧ b < s.active_sb.total_blocks) ||
      (s.disks d).sectors.bit (SECTOR_SIZE * s.active_sb.bitmap_start_lba) b)
  table : ∀ k, k < s.active_sb.file_table_block_count * SECTOR_SIZE →
    s.mem (s.file_table + k) = (s.disks d).sectors (s.active_sb.file_table_start_lba * SECTOR_SIZE + k)

/-- The buffers are there and hold what is read into them apart. -/
structure Buffered (s : Sys) (sb : Superblock) : Prop where
  bitmap : sb.bitmap_block_count < 2 ^ 32
  table : sb.file_table_block_count < 2 ^ 32
  bitmap_ne : (buffered s sb).bitmap_buf ≠ 0
  table_ne : (buffered s sb).file_table ≠ 0
  apart : (buffered s sb).bitmap_buf + SECTOR_SIZE * sb.bitmap_block_count ≤ (buffered s sb).file_table ∨
    (buffered s sb).file_table + sb.file_table_block_count * SECTOR_SIZE ≤ (buffered s sb).bitmap_buf

theorem mount_lasts (hquiet : (s.disks d).Quiet (prepareOps (s.disks d) + 2))
    (hroom : Buffered s (superblockOf (s.disks d))) : MountLasts (eke_fs_mount s (some d)).2 d := by
  have hprep : 0 < prepareOps (s.disks d) := by
    unfold prepareOps
    split
    · omega
    · omega
  have hio := hquiet.first (by omega)
  obtain ⟨-, hsb, hbuf, htab⟩ := mount_accepted_fields hio
  obtain ⟨sectors, heq, hsuper⟩ := mount_accepted hio
  have hsuper := hsuper fun k hk => hquiet k (by omega)
  have hactive := mount_active_dev s d
  rw [if_pos hio] at hactive
  rw [← buffered_bitmap] at hbuf
  rw [heq] at hsb hbuf htab hactive ⊢
  dsimp only at hsb hbuf htab hactive ⊢
  have hstart : Issues s (started s d { s.disks d with
      ops := (s.disks d).ops + prepareOps (s.disks d), sectors := sectors } (superblockOf (s.disks d))) d
      (prepareOps (s.disks d)) := .set_disk rfl rfl rfl
  have hsb₀ : (started s d { s.disks d with
      ops := (s.disks d).ops + prepareOps (s.disks d), sectors := sectors } (superblockOf (s.disks d))).active_sb
      = superblockOf (s.disks d) := rfl
  have hsectors : ((started s d { s.disks d with
      ops := (s.disks d).ops + prepareOps (s.disks d), sectors := sectors } (superblockOf (s.disks d))).disks d).sectors
      = sectors := by
    show ((s.setDisk d _).disks d).sectors = sectors
    rw [setDisk_self]
  generalize started s d _ (superblockOf (s.disks d)) = s₀ at *
  have hquiet₀ : (s₀.disks d).Quiet (1 + 1) := hstart.quiet hquiet
  rw [mount_table_buf] at hbuf
  have hb := mount_bitmap_read (s := s₀) (d := d) (hquiet₀.first (by omega)) (by rw [hsb₀]; exact hroom.bitmap)
    (by rw [← mount_bitmap_buf, hbuf]; exact hroom.bitmap_ne)
  have hsb₁ := mount_bitmap_sb s₀ d
  have hquiet₁ : ((mount_bitmap s₀ d).disks d).Quiet 1 := (mount_bitmap_issues s₀ d).quiet hquiet₀
  generalize mount_bitmap s₀ d = s₁ at *
  rw [hsb₀] at hsb₁
  have ht := mount_table_read (s := s₁) (d := d) (hquiet₁.first (by omega)) (by rw [hsb₁]; exact hroom.table)
  have hbuf₂ := mount_table_buf s₁ d
  generalize mount_table s₁ d = s₂ at *
  have hsec : (s₂.disks d).sectors = sectors := by
    rw [ht.disk]
    exact hb.sectors.trans hsectors
  have hapart := hroom.apart
  rw [← hbuf, ← htab] at hapart
  refine ⟨hactive, ?_, ⟨?_, ?_⟩, ?_, fun b hlt => ?_, fun k hk => ?_⟩
  · rw [hsb, hsec, hsuper]
  · rw [hbuf₂, hbuf]
    exact hroom.bitmap_ne
  · rw [htab]
    exact hroom.table_ne
  · rw [ht.disk, hbuf₂]
    exact hb.bitmap
  · rw [hsb] at hlt ⊢
    have hbit : s₂.mem.bit s₂.bitmap_buf b = s₁.mem.bit s₁.bitmap_buf b := by
      rw [hbuf₂]
      refine Store.bit_congr (ht.mem _ ?_)
      rw [hsb₁]
      unfold SECTOR_SIZE at *
      omega
    rw [hbit, hb.bits, hsb₀, if_pos hlt, hsectors, hsec]
  · rw [hsb, ← hsb₁] at hk ⊢
    rw [ht.table k hk, hsec, hb.sectors, hsectors]

/-! ### Every run -/

/-- What a call that returns 0 has left behind. -/
def Lasts (s : Sys) : Request → Prop
  | .mount (some d) => (eke_fs_mount s (some d)).1 = 0 → MountLasts (eke_fs_mount s (some d)).2 d
  | .file (.write (some path) (some buf) bytes) => (eke_fs_write_file s (some path) (some buf) bytes).1 = 0 →
      WriteLasts s (eke_fs_write_file s (some path) (some buf) bytes).2 path buf bytes
  | .file (.delete (some path)) => (eke_fs_delete_file s (some path)).1 = 0 →
      DeleteLasts s (eke_fs_delete_file s (some path)).2 path
  | _ => True

/-- What the call moves, if it comes to that, does not overlap. -/
def Fitting (s : Sys) : Request → Prop
  | .mount (some d) => (s.disks d).io (s.disks d).ops = none → Buffered s (superblockOf (s.disks d))
  | .file (.write (some path) (some buf) bytes) =>
      ∀ d n, s.active_dev = some d → Asks s (.write (some path) (some buf) bytes) n → (s.alloc_page n).1 ≠ 0 →
      Clear s d path bytes
  | .file (.delete (some path)) => ∀ d i, s.active_dev = some d → s.file_table ≠ 0 → find_file s path = some i →
      s.active_sb.Disjoint ∧ s.active_sb.HasSlot i
  | _ => True

theorem lasts_of_spared {r : Request} (hspared : Spared s r) (hfit : Fitting s r) : Lasts s r := by
  cases r with
  | mount dev =>
      cases dev with
      | none => trivial
      | some d =>
          intro hres
          cases hio : (s.disks d).io (s.disks d).ops with
          | none => exact mount_lasts (hspared hio) (hfit hio)
          | some k =>
              rw [mount_refused hio] at hres
              cases hres
  | format dev => trivial
  | file op =>
      cases op with
      | read path buffer max_bytes => trivial
      | write path buffer bytes =>
          cases path with
          | none => trivial
          | some path =>
              cases buffer with
              | none => trivial
              | some buf =>
                  intro hres
                  rcases write_cases s path buf bytes with
                    ⟨d, i, hact, htable, htarget, hstart, htemp, heq⟩ | ⟨-, herr⟩
                  · have hasks : Asks s (.write (some path) (some buf) bytes) (temp_pages (blocks_for bytes)) :=
                      ⟨d, i, hact, htable, htarget, hstart, rfl⟩
                    rw [heq]
                    exact write_lasts hact htarget hstart (hfit d _ hact hasks htemp) (hspared d _ hact hasks htemp)
                  · omega
      | delete path =>
          cases path with
          | none => trivial
          | some path =>
              intro hres
              rcases delete_cases s path with ⟨d, i, hact, htable, hfind, heq⟩ | ⟨-, heq⟩
              · obtain ⟨hdis, hslot⟩ := hfit d i hact htable hfind
                rw [heq]
                exact delete_lasts hact hfind hdis hslot (hspared d i hact htable hfind)
              · rw [heq] at hres
                cases hres

/-- In every run, failures are reported as long as nothing fails that would not be. -/
theorem failures_reported (s : Sys) (rs : List Request) :
    Throughout Request.next Reports s rs ↔ Throughout Request.next Spared s rs := by
  refine Throughout.congr (I := fun _ => True) ?_ (fun _ _ _ _ => trivial) trivial
  rintro s r -
  exact reports_iff s r

/--
**Device errors.**  In a run in which no sector operation fails but the first of a mount, and what
the calls move does not overlap, a failure is reported and a call that returns 0 has done its work.
-/
theorem device_errors (s : Sys) (rs : List Request)
    (h : Throughout Request.next (fun s r => Spared s r ∧ Fitting s r) s rs) :
    Throughout Request.next (fun s r => Reports s r ∧ Lasts s r) s rs := by
  refine Throughout.imp (I := fun _ => True) ?_ (fun _ _ _ _ => trivial) trivial h
  rintro s r - ⟨hspared, hfit⟩
  exact ⟨(reports_iff s r).mpr hspared, lasts_of_spared hspared hfit⟩

/-- The state of a machine that has mounted its blank device. -/
def mountedBlank : Sys := (eke_fs_mount (blank bootPages 16) (some 0)).2

theorem mountedBlank_clear : Clear mountedBlank 0 pathA 3 := by
  have hio : ((blank bootPages 16).disks 0).io ((blank bootPages 16).disks 0).ops = none := rfl
  obtain ⟨-, hsb, -⟩ := mount_accepted_fields hio
  rw [show superblockOf ((blank bootPages 16).disks 0) = Superblock.forDevice 16 from
    superblockOf_blank (by decide)] at hsb
  have hsb : mountedBlank.active_sb = Superblock.forDevice 16 := hsb
  have hblocks : (mountedBlank.disks 0).total_blocks = 16 := by decide
  have hfind : find_file mountedBlank pathA = none := by decide
  have hfree : find_free mountedBlank = some 0 := by decide
  have hbits : ∀ b, b < 10 → mountedBlank.mem.bit (mountedBlank.disks 0).bitmap b = true := by decide
  refine ⟨?_, by decide, ?_, ?_, ?_, ?_⟩
  · rw [hsb]
    exact ⟨by decide, by decide, by decide⟩
  · rw [hblocks]
    decide
  · rw [hsb]
    rintro b - (⟨-, hb⟩ | ⟨-, hb⟩)
    · exact hbits b (Nat.lt_of_lt_of_le hb (by decide))
    · exact hbits b hb
  · rw [hfind]
    intro i h
    cases h
  · rw [hfind, hfree, hsb]
    rintro i (h | ⟨-, h⟩)
    · cases h
    · cases h
      unfold Superblock.HasSlot
      decide

theorem mountedBlank_quiet (n : Nat) : (mountedBlank.disks 0).Quiet n := by
  have hissues : Issues (blank bootPages 16) mountedBlank 0 _ := (mount_accepted_issues rfl).2
  exact hissues.quiet fun _ _ => rfl

/-- A mount of a blank device and a first file. -/
def firstFile : List Request := [.mount (some 0), .file (.write (some pathA) (some forged) 3)]

theorem firstFile_fits : Throughout Request.next (fun s r => Spared s r ∧ Fitting s r) (blank bootPages 16) firstFile := by
  have hactive : mountedBlank.active_dev = some 0 := by
    unfold mountedBlank
    rw [mount_active_dev]
    rfl
  refine ⟨⟨fun _ _ _ => rfl, fun _ => ?_⟩, ⟨fun d n hd _ _ => ?_, fun d n hd _ _ => ?_⟩, trivial⟩
  · rw [show superblockOf ((blank bootPages 16).disks 0) = Superblock.forDevice 16 from superblockOf_blank (by decide)]
    exact ⟨by decide, by decide, by decide, by decide, by decide⟩
  · have hd : mountedBlank.active_dev = some d := hd
    rw [hactive] at hd
    cases hd
    exact mountedBlank_quiet 3
  · have hd : mountedBlank.active_dev = some d := hd
    rw [hactive] at hd
    cases hd
    exact mountedBlank_clear

theorem device_errors_first : Throughout Request.next (fun s r => Reports s r ∧ Lasts s r) (blank bootPages 16) firstFile :=
  device_errors _ _ firstFile_fits

/-- A formatted device of which only the superblock can be read. -/
def worn : Sys :=
  { blank bootPages 16 with
    disks := fun _ =>
      { blankDevice 16 with
        sectors := formatted 16 fun _ => 0
        io := fun n => if n = 0 then none else some 0 } }

/-- Its mount returns 0 without its bit map and its file table. -/
theorem mount_swallows : ¬ Throughout Request.next (fun s r => Reports s r ∧ Lasts s r) worn [.mount (some 0)] := by
  rintro ⟨⟨hreports, -⟩, -⟩
  have hspared : Spared worn (.mount (some 0)) := (reports_iff _ _).mp hreports
  have hsecond := hspared rfl 1 (by omega)
  cases hsecond

end Eke
