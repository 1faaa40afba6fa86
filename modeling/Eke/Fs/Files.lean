/-
Deleting and reading, and the files as byte strings.

`fileOf s d p` is what the file system stores under path `p`: the bytes on the medium
of the extent of the slot that has the name.  `read_file_eq` says that reading returns
exactly that, whatever the temporary buffer is, and `get_size_eq` that its length is
what `eke_fs_get_size` returns, so that everything said about files afterwards is said
about `fileOf`.
-/
import Eke.Fs.Write

namespace Eke

variable {s s' : Sys} {d T : Nat}

/-! ### Deleting -/

structure Deleted (s s' : Sys) (d T i : Nat) (p : CStr) : Prop where
  good : Good s' d T
  table : s'.file_table = s.file_table
  bitmap : s'.bitmap_buf = s.bitmap_buf
  target : find_file s p = some i
  slots : ∀ j, (volume s' d).slot j = if j = i then none else (volume s d).slot j
  sectors : ∀ x, SECTOR_SIZE * dataStart T ≤ x → (s'.disks d).sectors x = (s.disks d).sectors x
  synced : Superblock.load (s.disks d).sectors 0 = Superblock.forDevice T → Synced s' d T

/-- **A delete.**  Either there is no such file and nothing happens, or the slot is emptied. -/
theorem delete_step (g : Good s d T) (p : CStr) :
    eke_fs_delete_file s (some p) = (-1, s) ∧ find_file s p = none ∨
      (eke_fs_delete_file s (some p)).1 = 0 ∧
        ∃ i, Deleted s (eke_fs_delete_file s (some p)).2 d T i p := by
  unfold eke_fs_delete_file
  rw [g.mounted.active]
  dsimp only
  rw [if_neg g.mounted.buffers.table_ne]
  cases hf : find_file s p with
  | none => exact Or.inl ⟨rfl, rfl⟩
  | some i =>
      obtain ⟨⟨e, he, -⟩, -⟩ := (find_file_some g.named).mp hf
      have hr := free_sets g (i := i) he
      have hm := onDisk_mounted g.mounted hr
      have hinv := freed_inv g he hr
      have hslots := onDisk_slots g.mounted hr
      dsimp only
      generalize hs₁ : s.onDisk d (spmm_free_contiguous (FileEntry.start_block s.mem (s.entry i))
        (FileEntry.block_count s.mem (s.entry i)) s.mem (s.disks d)) = s₁ at *
      have htab : s₁.file_table = s.file_table := by rw [← hs₁]; rfl
      have hsec : (s₁.disks d).sectors = (s.disks d).sectors := by
        rw [← hs₁, onDisk_disk]
        exact hr.same.sectors
      set s₂ : Sys := { s₁ with mem := (s₁.mem.set (s.entry i + 44) 0).set (s.entry i) 0 } with hs₂
      have hm₂ : Mounted s₂ d T := { hm with buffers := ⟨hm.buffers.1, hm.buffers.2, hm.buffers.3,
        hm.buffers.4, hm.buffers.5, hm.buffers.6⟩ }
      have hslots₂ : ∀ j, (volume s₂ d).slot j = if j = i then none else (volume s d).slot j := by
        intro j
        show slotAt s₂.mem s₁.file_table j = _
        rw [hs₂, htab, Sys.entry, slotAt_clear]
        split
        · rfl
        · rw [← htab]
          exact hslots j
      have hbits₂ : ∀ b, b < T → (volume s₂ d).bit b = (volume s₁ d).bit b := by
        intro b hb
        have hbyte := bit_byte hm.covered hb
        have hapart := hm.buffers.apart
        have hin := table_slot (s := s₁) (x := (s₁.disks d).bitmap + b / 8) (slotAt_lt he)
        rw [hm.bitmap, htab] at hin
        rw [htab] at hapart
        refine Store.bit_congr ?_
        show ((s₁.mem.set (s.entry i + 44) 0).set (s.entry i) 0) _ = s₁.mem _
        rw [show (s₂.disks d).bitmap = s₁.bitmap_buf from hm.bitmap]
        unfold Sys.entry
        rw [Store.set_out (by omega), Store.set_out (by omega)]
      have hgood : Good s₂ d T := by
        refine ⟨hm₂, inv_congr (v := (volume s₁ d).erase i) ?_ hbits₂ rfl hinv, ?_, ?_⟩
        · intro j
          rw [hslots₂ j]
          unfold Volume.erase
          dsimp only
          split
          · rfl
          · exact (hslots j).symm
        · intro j f hj
          rw [hslots₂ j] at hj
          split at hj
          · cases hj
          · exact g.short j f hj
        · intro j f hj
          rw [hslots₂ j] at hj
          split at hj
          · cases hj
          · exact g.counts j f hj
      have hvol := flush_volume hm₂
      refine Or.inr ⟨rfl, i, ⟨flush_mounted hm₂, ?_, ?_, ?_⟩, htab, ?_, hf, ?_, ?_, ?_⟩
      · rw [hvol]
        exact hgood.inv
      · rw [hvol]
        exact hgood.short
      · rw [hvol]
        exact hgood.counts
      · show s₁.bitmap_buf = s.bitmap_buf
        rw [← hs₁]
        rfl
      · rw [hvol]
        exact hslots₂
      · intro x hx
        rw [flush_disk hm₂]
        show flushed T (s₁.disks d).sectors _ _ _ x = _
        rw [flushed_data hx, hsec]
      · intro hsuper
        refine flush_synced hm₂ ?_
        show Superblock.load (s₁.disks d).sectors 0 = _
        rw [hsec]
        exact hsuper

/-! ### Files -/

/-- The file stored under a path. -/
def fileOf (s : Sys) (d : Nat) (p : CStr) : Option (List Byte) :=
  (find_file s p).map fun i =>
    (List.range (FileEntry.size s.mem (s.entry i))).map fun k =>
      (s.disks d).sectors (FileEntry.start_block s.mem (s.entry i) * SECTOR_SIZE + k)

/-- What reading at most `m` bytes of a file into `buf` returns. -/
def readResult (file : Option (List Byte)) (buf : Store) (m : Nat) : Int × Option Store :=
  match file with
  | none => (-1, some buf)
  | some data =>
    (toInt (min data.length m), some fun x => if x < min data.length m then data.getD x 0 else buf x)

/-- The temporary buffer for reading `p`, if one is needed, is allocated. -/
def ReadOk (s : Sys) (p : CStr) : Prop :=
  ∀ i, find_file s p = some i →
    (s.alloc_page (temp_pages (FileEntry.block_count s.mem (s.entry i)))).1 ≠ 0

/-- The temporary buffer for reading `p` stays clear of the table's tail. -/
def ReadTailSafe (s : Sys) (p : CStr) : Prop :=
  ∀ i, find_file s p = some i → TailSafe s (FileEntry.block_count s.mem (s.entry i))

theorem get_size_eq (h : s.file_table ≠ 0) (p : CStr) :
    eke_fs_get_size s (some p) = ((fileOf s d p).map List.length).getD 0 := by
  unfold eke_fs_get_size fileOf
  dsimp only
  rw [if_neg h]
  cases find_file s p <;> simp

/-- **Reading returns the stored bytes.** -/
theorem read_file_eq (g : Good s d T) {p : CStr} (hok : ReadOk s p) (buf : Store) (m : Nat) :
    ((eke_fs_read_file s (some p) (some buf) m).1, (eke_fs_read_file s (some p) (some buf) m).2.1) =
      readResult (fileOf s d p) buf m := by
  unfold eke_fs_read_file fileOf
  rw [g.mounted.active]
  dsimp only
  rw [if_neg g.mounted.buffers.table_ne]
  cases hf : find_file s p with
  | none => rfl
  | some i =>
      obtain ⟨⟨e, he, -⟩, -⟩ := (find_file_some g.named).mp hf
      obtain ⟨-, hsize, hstart, hcount⟩ := slotAt_some he
      obtain ⟨-, -, hfit⟩ := g.inv.inside i e he
      have hc := g.counts i e he
      have hok' := hok i hf
      simp only [Sys.entry, hcount] at hok'
      simp only [Option.map_some, readResult, List.length_map, List.length_range, Sys.entry, hsize,
        hstart, hcount]
      by_cases h0 : min e.size m = 0
      · rw [if_pos h0, h0, Prod.mk.injEq]
        exact ⟨rfl, congrArg some (funext fun x => (if_neg (by omega)).symm)⟩
      · rw [if_neg h0, if_neg hok', Prod.mk.injEq]
        refine ⟨rfl, congrArg some (funext fun x => ?_)⟩
        have hpos : temp_pages e.block_count ≠ 0 := by
          intro hz
          rw [hz] at hok'
          refine hok' ?_
          rw [alloc_page_eq g.mounted]
          rfl
        have hroom := temp_pages_room hc hpos
        rw [alloc_page_eq g.mounted]
        dsimp only
        rw [hstart, BLOCKDEV_API.read_sectors_reliable g.mounted.reliable (by omega)]
        by_cases hx : x < min e.size m
        · have hfit' : e.size ≤ e.block_count * SECTOR_SIZE := by rwa [Nat.mul_comm]
          rw [if_pos hx, Store.blit_in (by omega) (by omega)]
          show (Store.blit _ _ _ _ _) _ = _
          rw [Store.blit_in (by omega) (by omega), List.getD_eq_getElem?_getD,
            List.getElem?_map, List.getElem?_range (by omega)]
          exact congrArg (s.disks d).sectors (by omega)
        · rw [if_neg hx, Store.blit_out (by omega)]

/-- Reading leaves the volume and the medium as they are. -/
structure Kept (s s' : Sys) (d T : Nat) : Prop where
  good : Good s' d T
  table : s'.file_table = s.file_table
  bitmap : s'.bitmap_buf = s.bitmap_buf
  slots : ∀ j, (volume s' d).slot j = (volume s d).slot j
  bits : ∀ b, b < T → (volume s' d).bit b = (volume s d).bit b
  free : (volume s' d).free = (volume s d).free
  sectors : (s'.disks d).sectors = (s.disks d).sectors
  bytes : ∀ x, InBuffers s T x → s'.mem x = s.mem x

theorem Kept.refl (g : Good s d T) : Kept s s d T :=
  ⟨g, rfl, rfl, fun _ => rfl, fun _ _ => rfl, rfl, rfl, fun _ _ => rfl⟩

theorem read_step (g : Good s d T) {p : CStr} (htail : ReadTailSafe s p) (buf : Store) (m : Nat) :
    Kept s (eke_fs_read_file s (some p) (some buf) m).2.2 d T := by
  unfold eke_fs_read_file
  rw [g.mounted.active]
  dsimp only
  rw [if_neg g.mounted.buffers.table_ne]
  cases hf : find_file s p with
  | none => exact Kept.refl g
  | some i =>
      obtain ⟨⟨e, he, -⟩, -⟩ := (find_file_some g.named).mp hf
      obtain ⟨-, hsize, hstart, hcount⟩ := slotAt_some he
      have hc := g.counts i e he
      have htl := htail i hf
      simp only [Sys.entry, hsize, hcount] at htl ⊢
      by_cases h0 : min e.size m = 0
      · rw [if_pos h0]
        exact Kept.refl g
      rw [if_neg h0]
      have hm₁ := alloc_mounted g.mounted (temp_pages e.block_count)
      have halloc := alloc_page_eq g.mounted (temp_pages e.block_count)
      have hkept₁ : Kept s (s.alloc_page (temp_pages e.block_count)).2 d T := by
        have hvol : volume (s.alloc_page (temp_pages e.block_count)).2 d = volume s d := by
          rw [halloc]
          rfl
        refine ⟨⟨hm₁, ?_, ?_, ?_⟩, ?_, ?_, ?_, ?_, ?_, ?_, ?_⟩
        · rw [hvol]; exact g.inv
        · rw [hvol]; exact g.short
        · rw [hvol]; exact g.counts
        · rw [halloc]
        · rw [halloc]
        · intro j; rw [hvol]
        · intro b _; rw [hvol]
        · rw [hvol]
        · rw [halloc]
        · intro x _; rw [halloc]
      by_cases htemp : (s.alloc_page (temp_pages e.block_count)).1 = 0
      · rw [if_pos htemp]
        exact hkept₁
      rw [if_neg htemp]
      have htmp := temp_of_alloc g.mounted htl htemp
      have hroom := temp_pages_room hc (by have := htmp.pos; omega)
      have hmem₁ : (s.alloc_page (temp_pages e.block_count)).2.mem = s.mem := by rw [halloc]
      rw [hmem₁, hstart]
      generalize (s.alloc_page (temp_pages e.block_count)).1 = temp at *
      generalize (s.alloc_page (temp_pages e.block_count)).2 = s₁ at *
      dsimp only
      rw [BLOCKDEV_API.read_sectors_reliable hm₁.reliable (by omega)]
      dsimp only
      rw [← hmem₁]
      set m₂ := s₁.mem.blit temp (e.block_count * SECTOR_SIZE) (s₁.disks d).sectors
        (e.start_block * SECTOR_SIZE) with hm₂
      set dev : BLOCKDEV_API := { s₁.disks d with ops := (s₁.disks d).ops + 1 } with hdev
      have hbytes : ∀ x, InBuffers s₁ T x → m₂ x = s₁.mem x := by
        intro x hx
        have := htmp.clear x hx
        exact Store.blit_out (by omega)
      have hm₃ := change_mounted hm₁ m₂ dev rfl rfl rfl
      obtain ⟨hs, hb, hfr⟩ := volume_congr hm₁ m₂ dev rfl rfl hbytes
      set s₃ : Sys := { s₁ with mem := m₂ }.setDisk d dev with hs₃
      have hm₄ : Mounted (s₃.free_page temp) d T :=
        free_mounted hm₃ ⟨htmp.1, htmp.2, htmp.3⟩
      have hfree : s₃.free_page temp = { s₃ with pmm := (s₃.free_page temp).pmm } := by
        unfold Sys.free_page
        split <;> rfl
      have hvol : volume (s₃.free_page temp) d = volume s₃ d := by
        rw [hfree]
        rfl
      have hslot : ∀ j, (volume s₃ d).slot j = (volume s d).slot j := fun j =>
        (hs j).trans (hkept₁.slots j)
      show Kept s (s₃.free_page temp) d T
      refine ⟨⟨hm₄, ?_, ?_, ?_⟩, ?_, ?_, ?_, ?_, ?_, ?_, ?_⟩
      · rw [hvol]
        exact inv_congr hs hb hfr hkept₁.good.inv
      · rw [hvol]
        intro j f hj
        exact g.short j f (by rw [← hslot j]; exact hj)
      · rw [hvol]
        intro j f hj
        exact g.counts j f (by rw [← hslot j]; exact hj)
      · rw [hfree]
        exact hkept₁.table
      · rw [hfree]
        exact hkept₁.bitmap
      · intro j
        rw [hvol, hslot]
      · intro b hb'
        rw [hvol, hb b hb', hkept₁.bits b hb']
      · rw [hvol, hfr, hkept₁.free]
      · rw [hfree]
        show (s₃.disks d).sectors = _
        rw [hs₃]
        simp only [Sys.setDisk, if_true]
        exact hkept₁.sectors
      · intro x hx
        rw [hfree]
        have hmem : s₃.mem = m₂ := rfl
        have hx₁ : InBuffers s₁ T x := by
          unfold InBuffers at hx ⊢
          rw [hkept₁.table, hkept₁.bitmap]
          exact hx
        show s₃.mem x = s.mem x
        rw [hmem, hbytes x hx₁, hkept₁.bytes x hx]

end Eke
