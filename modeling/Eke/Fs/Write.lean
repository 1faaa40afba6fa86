/-
`eke_fs_write_file`.

`write_step` is the whole call on its success path: which slot, which extent, what is
on the medium afterwards, and that the invariant holds again.  It is assembled from
the target (`Ready`), the first-fit allocation, the temporary buffer and the tail
`write_data`, each with its own lemma.
-/
import Eke.Fs.Steps

namespace Eke

variable {s s' : Sys} {d T : Nat}

/-! ### The tail of the call -/

/-- What the temporary buffer holds when it is written out: the data, padded with zeros. -/
theorem temp_bytes {m buf : Store} {temp blocks bytes k : Nat}
    (hwrap : blocks * SECTOR_SIZE < 2 ^ 32) (hk : k < blocks * SECTOR_SIZE) :
    ((m.fill temp (blocks * SECTOR_SIZE % 2 ^ 32) 0).blit temp bytes buf 0) (temp + k) =
      if k < bytes then buf k else 0 := by
  rw [Nat.mod_eq_of_lt hwrap]
  by_cases hb : k < bytes
  · rw [if_pos hb, Store.blit_in (by omega) (by omega)]
    exact congrArg buf (by omega)
  · rw [if_neg hb, Store.blit_out (by omega), Store.fill_in (by omega) (by omega)]

/-- The state at `write_data`'s metadata flush. -/
structure AtFlush (s s₅ : Sys) (d T i : Nat) (p : CStr) (buf : Store)
    (bytes blocks start : Nat) : Prop where
  mounted : Mounted s₅ d T
  table : s₅.file_table = s.file_table
  bitmap : s₅.bitmap_buf = s.bitmap_buf
  slots : ∀ j, (volume s₅ d).slot j =
    if j = i then
      some { name := p.chars.take 31, size := bytes, start_block := start, block_count := blocks }
    else (volume s d).slot j
  bits : ∀ b, b < T → (volume s₅ d).bit b = (volume s d).bit b
  free : (volume s₅ d).free = (volume s d).free
  sectors : ∀ x, (s₅.disks d).sectors x =
    if start * SECTOR_SIZE ≤ x ∧ x < start * SECTOR_SIZE + blocks * SECTOR_SIZE then
      if x - start * SECTOR_SIZE < bytes then buf (x - start * SECTOR_SIZE) else 0
    else (s.disks d).sectors x

theorem write_data_spec (i start : Nat) (p : CStr) (buf : Store) (h : Mounted s d T)
    {n temp bytes blocks : Nat} (ht : Temp s T temp n) (hroom : blocks * SECTOR_SIZE ≤ 4096 * n)
    (hwrap : blocks * SECTOR_SIZE < 2 ^ 32) (hbytes : bytes ≤ blocks * SECTOR_SIZE)
    (hstart : start < 2 ^ 32) (hi : i < MAX_FILES) :
    ∃ s₅, write_data s d i p buf bytes blocks start temp = flush_metadata s₅ d ∧
      AtFlush s s₅ d T i p buf bytes blocks start := by
  have hblocks : blocks < 2 ^ 32 := by unfold SECTOR_SIZE at hwrap; omega
  set m₄ := (s.mem.fill temp (blocks * SECTOR_SIZE % 2 ^ 32) 0).blit temp bytes buf 0 with hm₄
  have hkeep : ∀ x, InBuffers s T x → m₄ x = s.mem x := by
    intro x hx
    have := ht.clear x hx
    rw [hm₄, Nat.mod_eq_of_lt hwrap, Store.blit_out (by omega), Store.fill_out (by omega)]
  set dev := ((s.disks d).write_sectors start blocks m₄ temp).2 with hdev
  rw [BLOCKDEV_API.write_sectors_reliable h.reliable hblocks] at hdev
  set s₄ := ({ s with mem := m₄ }.setDisk d dev).free_page temp with hs₄
  have hm₃ := change_mounted h m₄ dev (by rw [hdev]) (by rw [hdev]) (by rw [hdev])
  have ht₃ : Temp ({ s with mem := m₄ }.setDisk d dev) T temp n := ⟨ht.1, ht.2, ht.3⟩
  have hm₄' : Mounted s₄ d T := free_mounted hm₃ ht₃
  have hfree : s₄ = { s with mem := m₄, pmm := s₄.pmm }.setDisk d dev := by
    rw [hs₄, Sys.free_page]
    split <;> rfl
  obtain ⟨hslots, hbits, hfr⟩ := volume_congr h m₄ dev (by rw [hdev]) (by rw [hdev])
    hkeep
  have hmem : s₄.mem = m₄ := by rw [hfree]; rfl
  have hdisk : s₄.disks d = dev := by rw [hfree]; simp [Sys.setDisk]
  have htab : s₄.file_table = s.file_table := by rw [hfree]; rfl
  have hbm : s₄.bitmap_buf = s.bitmap_buf := by rw [hfree]; rfl
  set m₅ := update_entry s₄.mem (s₄.entry i) p bytes start blocks with hm₅
  have hdevbm : dev.bitmap = s.bitmap_buf := by
    rw [hdev]
    exact h.bitmap
  refine ⟨{ s₄ with mem := m₅ }, rfl, ⟨{ hm₄' with buffers := ⟨hm₄'.buffers.1, hm₄'.buffers.2,
    hm₄'.buffers.3, hm₄'.buffers.4, hm₄'.buffers.5, hm₄'.buffers.6⟩ }, htab, hbm, ?_, ?_, ?_, ?_⟩⟩
  · intro j
    show slotAt m₅ s₄.file_table j = _
    rw [hm₅, Sys.entry, slotAt_update_entry hi (by omega) hstart hblocks j]
    split
    · rfl
    · rw [hmem, htab]
      exact hslots j
  · intro b hb
    show m₅.bit (s₄.disks d).bitmap b = s.mem.bit (s.disks d).bitmap b
    rw [hdisk, hdevbm, h.bitmap]
    have hbyte := bit_byte h.covered hb
    refine Store.bit_congr ?_
    have hapart := h.buffers.apart
    have hslot := table_slot (s := s) (x := s.bitmap_buf + b / 8) hi
    rw [hm₅, update_entry_out, hmem]
    · exact hkeep _ (Or.inl (by omega))
    · rw [Sys.entry, htab]
      omega
  · show (s₄.disks d).free_blocks = _
    rw [hdisk, hdev]
    rfl
  · intro x
    show (s₄.disks d).sectors x = _
    rw [hdisk, hdev]
    show ((s.disks d).sectors.blit (start * SECTOR_SIZE) (blocks * SECTOR_SIZE) m₄ temp) x = _
    split
    · rename_i hx
      rw [Store.blit_in hx.1 hx.2, hm₄, temp_bytes hwrap (by omega)]
    · rename_i hx
      exact Store.blit_out (by omega)

/-! ### The call -/

/-- The result of a successful write. -/
structure Written (s s' : Sys) (d T i r : Nat) (p : CStr) (buf : Store) (bytes : Nat) : Prop where
  good : Good s' d T
  table : s'.file_table = s.file_table
  bitmap : s'.bitmap_buf = s.bitmap_buf
  target : find_file s p = some i ∨ find_file s p = none ∧ (volume s d).slot i = none
  chosen : (write_target s d p).1 = some i
  slots : ∀ j, (volume s' d).slot j =
    if j = i then
      some { name := p.chars.take 31, size := bytes, start_block := r, block_count := blocks_for bytes }
    else (volume s d).slot j
  sectors : ∀ x, SECTOR_SIZE * dataStart T ≤ x → (s'.disks d).sectors x =
    if r * SECTOR_SIZE ≤ x ∧ x < r * SECTOR_SIZE + blocks_for bytes * SECTOR_SIZE then
      if x - r * SECTOR_SIZE < bytes then buf (x - r * SECTOR_SIZE) else 0
    else (s.disks d).sectors x
  synced : Superblock.load (s.disks d).sectors 0 = Superblock.forDevice T → Synced s' d T

/-- The entry a write puts in its slot. -/
def newEntry (p : CStr) (bytes r : Nat) : Entry where
  name := p.chars.take 31
  size := bytes
  start_block := r
  block_count := blocks_for bytes

/--
After the allocation: the extent `[r, r + count)` is marked and belongs to nobody yet,
and the slot, still holding its old entry, is out of the extent law.
-/
structure Placed (s s₂ : Sys) (d T i r : Nat) (p : CStr) (bytes : Nat) : Prop where
  mounted : Mounted s₂ d T
  pmm : s₂.pmm = s.pmm
  table : s₂.file_table = s.file_table
  bitmap : s₂.bitmap_buf = s.bitmap_buf
  sectors : (s₂.disks d).sectors = (s.disks d).sectors
  slots : ∀ j, (volume s₂ d).slot j = (volume s d).slot j
  start : r ≤ dataStart T + 2 ^ 30
  data : dataStart T ≤ r
  /-- Any volume with the bits of now and the new entry in the slot obeys the law. -/
  insert : ∀ v : Volume, (∀ b, b < T → v.bit b = (volume s₂ d).bit b) → v.free = (volume s₂ d).free →
    (∀ j, v.slot j = if j = i then some (newEntry p bytes r) else (volume s d).slot j) →
    v.Extents (dataStart T) T

/-- The extent first fit chooses starts below 2^32. -/
theorem first_fit_bound {s₁ : Sys} {i r count : Nat} {p : CStr} (g : Good s d T)
    (hr : Ready s s₁ d T i p) (hcount : count ≤ 2 ^ 23)
    (hrun : ClearRun s₁.mem (s₁.disks d).bitmap T count r)
    (hleast : ∀ k, k < r → ¬ ClearRun s₁.mem (s₁.disks d).bitmap T count k) :
    r ≤ dataStart T + 2 ^ 30 := by
  have hlo := hr.mounted.dataStart_le
  have hslot : ∀ j e, ((volume s₁ d).erase i).slot j = some e → (volume s d).slot j = some e := by
    intro j e he
    rw [← hr.slots j]
    exact (Volume.slot_erase.mp he).2
  have := hr.inv.first_run_le (W := 2 ^ 23) (r := r) (by omega)
    (fun j e he => slotAt_lt (hslot j e he)) (fun j e he => g.counts j e (hslot j e he)) hcount
    hrun.le (fun k hk hkr => by
      by_contra hc
      refine hleast k hkr ⟨hk, by have := hrun.le; omega, fun j hj => ?_⟩
      by_contra hbit
      exact hc ⟨j, hj, eq_true_of_ne_false hbit⟩)
  omega

theorem placed_of_alloc {s₁ : Sys} {i bytes : Nat} {p : CStr} (g : Good s d T)
    (hr : Ready s s₁ d T i p) (hbytes : bytes < 2 ^ 32)
    (hne : (spmm_alloc_contiguous (blocks_for bytes) s₁.mem (s₁.disks d)).1 ≠ 0) :
    Placed s (s₁.onDisk d (spmm_alloc_contiguous (blocks_for bytes) s₁.mem (s₁.disks d)).2) d T i
      (spmm_alloc_contiguous (blocks_for bytes) s₁.mem (s₁.disks d)).1 p bytes := by
  obtain ⟨hcount, hfit⟩ := blocks_for_bounds hbytes
  have hpos := blocks_for_pos bytes
  have hacc : Accurate s₁.mem (s₁.disks d) := (volume_clear hr.mounted.blocks).mp hr.inv.free
  rcases spmm_alloc_contiguous_spec s₁.mem (s₁.disks d) (blocks_for bytes)
    (by rw [hr.mounted.bitmap]; exact hr.mounted.buffers.bitmap_ne) (by omega) hacc with
    ⟨hfail, -⟩ | ⟨hrun, hleast, hsets⟩
  · rw [hfail] at hne
    exact absurd rfl hne
  generalize spmm_alloc_contiguous (blocks_for bytes) s₁.mem (s₁.disks d) = a at *
  rw [hr.mounted.blocks] at hrun hleast
  have hslots₂ : ∀ j, (volume (s₁.onDisk d a.2) d).slot j = (volume s d).slot j := fun j =>
    (onDisk_slots hr.mounted hsets j).trans (hr.slots j)
  have hclear : ∀ b, Run a.1 (blocks_for bytes) b → (volume s₁ d).bit b = false := by
    intro b hb
    have hc := hrun.clear (b - a.1) (by have := hb.1; have := hb.2; omega)
    rwa [show a.1 + (b - a.1) = b by have := hb.1; omega] at hc
  have hle := hrun.le
  refine ⟨onDisk_mounted hr.mounted hsets, hr.pmm, hr.table, hr.bitmap, ?_, hslots₂,
    first_fit_bound g hr hcount hrun hleast, ?_, ?_⟩
  · rw [onDisk_disk, hsets.same.sectors, hr.sectors]
  · by_contra hlt
    have hbit := (hr.inv.bit_iff (b := a.1) (by omega)).mpr (Or.inl (by omega))
    have := hclear a.1 ⟨Nat.le_refl _, by omega⟩
    exact absurd (hbit.symm.trans this) (by decide)
  · intro v hbits hfree hslots
    refine hr.inv.insert (i := i) (e := newEntry p bytes a.1) (by simp [Volume.erase]) hpos hle
      hclear (by rw [Nat.mul_comm]; exact hfit) ?_ ?_ ?_ ?_
    · funext j
      rw [hslots j]
      by_cases hj : j = i
      · simp [Volume.insert, hj]
      · simp [Volume.insert, Volume.erase, hj, hr.slots j]
    · intro b hb
      rw [hbits b (by have := hb.2; dsimp only [newEntry] at this; omega)]
      exact onDisk_bit_in hsets hb
    · intro b hbT hb
      rw [hbits b hbT]
      exact onDisk_bit_out hsets hb
    · rw [hfree, onDisk_free hr.mounted hsets hr.inv.free]
      exact (Volume.clear_congr hbits).symm

/-- Putting the pieces of a write together. -/
theorem written_of_flush {s₂ s₅ : Sys} {i r n bytes : Nat} {p : CStr} {buf : Store} (g : Good s d T)
    (hpl : Placed s s₂ d T i r p bytes)
    (hfl : AtFlush (s₂.alloc_page n).2 s₅ d T i p buf bytes (blocks_for bytes) r)
    (htarget : find_file s p = some i ∨ find_file s p = none ∧ (volume s d).slot i = none)
    (hchosen : (write_target s d p).1 = some i)
    (hcount : blocks_for bytes ≤ 2 ^ 23) :
    Written s (flush_metadata s₅ d) d T i r p buf bytes := by
  have hvol : volume (s₂.alloc_page n).2 d = volume s₂ d := by
    rw [alloc_page_eq hpl.mounted]
    rfl
  have hsec : ((s₂.alloc_page n).2.disks d).sectors = (s.disks d).sectors := by
    rw [alloc_page_eq hpl.mounted, ← hpl.sectors]
  have hslots : ∀ j, (volume s₅ d).slot j =
      if j = i then some (newEntry p bytes r) else (volume s d).slot j := by
    intro j
    rw [hfl.slots j, hvol, hpl.slots j]
    rfl
  have hsectors : ∀ x, (s₅.disks d).sectors x =
      if r * SECTOR_SIZE ≤ x ∧ x < r * SECTOR_SIZE + blocks_for bytes * SECTOR_SIZE then
        if x - r * SECTOR_SIZE < bytes then buf (x - r * SECTOR_SIZE) else 0
      else (s.disks d).sectors x := by
    intro x
    rw [hfl.sectors x, hsec]
  have hvol₅ := flush_volume hfl.mounted
  refine ⟨⟨flush_mounted hfl.mounted, ?_, ?_, ?_⟩, ?_, ?_, htarget, hchosen, ?_, ?_, ?_⟩
  · rw [hvol₅]
    exact hpl.insert _ (fun b hb => by rw [hfl.bits b hb, hvol]) (by rw [hfl.free, hvol]) hslots
  · intro j e he
    rw [hvol₅, hslots j] at he
    split at he
    · obtain rfl := Option.some.inj he
      exact Nat.lt_succ_of_le (List.length_take_le 31 p.chars)
    · exact g.short j e he
  · intro j e he
    rw [hvol₅, hslots j] at he
    split at he
    · obtain rfl := Option.some.inj he
      exact hcount
    · exact g.counts j e he
  · show s₅.file_table = _
    rw [hfl.table, alloc_page_eq hpl.mounted]
    exact hpl.table
  · show s₅.bitmap_buf = _
    rw [hfl.bitmap, alloc_page_eq hpl.mounted]
    exact hpl.bitmap
  · intro j
    rw [hvol₅]
    exact hslots j
  · intro x hx
    rw [flush_disk hfl.mounted]
    show flushed T _ _ _ _ x = _
    rw [flushed_data hx, hsectors x]
  · intro hsuper
    refine flush_synced hfl.mounted ?_
    rw [← hsuper]
    refine load_congr fun x hx => ?_
    have hd := hpl.data
    have h9 := hpl.mounted.dataStart_le
    rw [hsectors x, if_neg (by unfold SECTOR_SIZE; omega)]

/--
**A successful write.**  The file goes to the slot it had or to a free one, on the
first run of clear blocks with the old extent already freed, and the medium holds its
data there, padded to whole sectors.
-/
theorem write_step (g : Good s d T) {p : CStr} {buf : Store} {bytes : Nat}
    (hbytes : bytes < 2 ^ 32) (htail : TailSafe s (blocks_for bytes))
    (hres : (eke_fs_write_file s (some p) (some buf) bytes).1 = 0) :
    ∃ i r, Written s (eke_fs_write_file s (some p) (some buf) bytes).2 d T i r p buf bytes := by
  obtain ⟨hcount, hfit⟩ := blocks_for_bounds hbytes
  unfold eke_fs_write_file at hres ⊢
  rw [g.mounted.active] at hres ⊢
  dsimp only at hres ⊢
  rw [if_neg g.mounted.buffers.table_ne] at hres ⊢
  cases ht : (write_target s d p).1 with
  | none =>
      rw [ht] at hres
      simp at hres
  | some i =>
      have hr := write_target_ready g ht
      rw [ht] at hres
      dsimp only at hres ⊢
      by_cases ha0 : (spmm_alloc_contiguous (blocks_for bytes) (write_target s d p).2.mem
          ((write_target s d p).2.disks d)).1 = 0
      · rw [if_pos ha0] at hres
        simp at hres
      rw [if_neg ha0] at hres ⊢
      have hpl := placed_of_alloc g hr hbytes ha0
      generalize spmm_alloc_contiguous (blocks_for bytes) (write_target s d p).2.mem
        ((write_target s d p).2.disks d) = a at *
      generalize (write_target s d p).2.onDisk d a.2 = s₂ at *
      have htail₂ : TailSafe s₂ (blocks_for bytes) := by
        unfold TailSafe at htail ⊢
        rw [hpl.pmm, hpl.table]
        exact htail
      by_cases htemp : (s₂.alloc_page (temp_pages (blocks_for bytes))).1 = 0
      · rw [if_pos htemp] at hres
        simp at hres
      rw [if_neg htemp]
      have htmp := temp_of_alloc hpl.mounted htail₂ htemp
      obtain ⟨hroom, hwrap⟩ := temp_pages_room hcount (by have := htmp.pos; omega)
      have hdata := g.mounted.dataStart_le
      obtain ⟨s₅, hs₅, hfl⟩ := write_data_spec i a.1 p buf
        (alloc_mounted hpl.mounted _) htmp hroom hwrap hfit
        (by have := hpl.start; omega) hr.lt
      rw [hs₅]
      exact ⟨i, a.1, written_of_flush g hpl hfl hr.target ht hcount⟩

end Eke
