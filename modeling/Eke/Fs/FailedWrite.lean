/-
Writes that fail.

`eke_fs_write_file` frees the extent of an existing file before it knows whether there
is room for the new one, and takes the new extent before it knows whether there is a
page for the temporary buffer.  `failed_write` says exactly which failures leave the
file system as it was: those before the first change, and those after which the bit map
has come back to where it was by accident.

Nothing here needs the medium to work or the bit map to cover the device, so the state
is only required to be mounted (`Open`) and to satisfy the extent invariant.
-/
import Eke.Fs.Contract

namespace Eke

variable {s s' : Sys} {d T i bytes : Nat} {p : CStr} {buf : Store}

/-- A mounted state with both buffers.  Page 0 is the kernel's, so a page is never address 0. -/
structure Open (s : Sys) (d T : Nat) : Prop where
  active : s.active_dev = some d
  table_ne : s.file_table ≠ 0
  bitmap_ne : (s.disks d).bitmap ≠ 0
  blocks : (s.disks d).total_blocks = T
  lt : T < 2 ^ 64
  null_page : s.pmm.used 0 = true

/-- Every slot, every bit, the counter and what every read returns are as they were. -/
structure Untouched (s s' : Sys) (d T : Nat) : Prop where
  table : ∀ x, s.file_table ≤ x → x < s.file_table + tableBytes → s'.mem x = s.mem x
  bits : ∀ b, b < T → (volume s' d).bit b = (volume s d).bit b
  free : (volume s' d).free = (volume s d).free
  reads : ∀ p buf m, reading s' p buf m = reading s p buf m

/-! ### Reads -/

/-- An operation of the sector allocator that leaves the memory alone is invisible to reads. -/
theorem reading_onDisk {r : Store × BLOCKDEV_API} (hmem : r.1 = s.mem)
    (hdev : SameDev (s.disks d) r.2) (hact : s.active_dev = some d) (p : CStr) (buf : Store) (m : Nat) :
    reading (s.onDisk d r) p buf m = reading s p buf m := by
  have hread : ∀ lba count m buffer, (r.2.read_sectors lba count m buffer).1 =
      ((s.disks d).read_sectors lba count m buffer).1 ∧
      (r.2.read_sectors lba count m buffer).2.1 = ((s.disks d).read_sectors lba count m buffer).2.1 := by
    intro lba count m buffer
    unfold BLOCKDEV_API.read_sectors
    rw [hdev.io, hdev.ops, hdev.sectors]
    dsimp only
    split <;> exact ⟨rfl, rfl⟩
  have hfind : find_file (s.onDisk d r) p = find_file s p := by
    unfold find_file
    rw [onDisk_mem, hmem]
    rfl
  have halloc : ∀ n, (s.onDisk d r).alloc_page n =
      ((s.alloc_page n).1, (s.alloc_page n).2.onDisk d r) := by
    intro n
    unfold Sys.alloc_page
    split
    · rename_i hapi
      rw [if_pos (show s.g_api = true from hapi)]
      rfl
    · rename_i hapi
      rw [if_neg (show ¬ s.g_api = true from hapi)]
  have hmem' : ∀ n, (s.alloc_page n).2.mem = s.mem ∧ (s.alloc_page n).2.disks = s.disks := by
    intro n
    unfold Sys.alloc_page
    split <;> exact ⟨rfl, rfl⟩
  unfold reading eke_fs_read_file
  rw [show (s.onDisk d r).active_dev = some d from hact, hact]
  dsimp only
  rw [hfind, show (s.onDisk d r).file_table = s.file_table from rfl]
  by_cases hft : s.file_table = 0
  · rw [if_pos hft, if_pos hft]
  rw [if_neg hft, if_neg hft]
  cases find_file s p with
  | none => rfl
  | some i =>
      dsimp only
      rw [onDisk_mem, hmem, show (s.onDisk d r).entry i = s.entry i from rfl]
      by_cases h0 : min (FileEntry.size s.mem (s.entry i)) m = 0
      · rw [if_pos h0, if_pos h0]
      rw [if_neg h0, if_neg h0, halloc]
      dsimp only
      by_cases ht : (s.alloc_page (temp_pages (FileEntry.block_count s.mem (s.entry i)))).1 = 0
      · rw [if_pos ht, if_pos ht]
      rw [if_neg ht, if_neg ht, onDisk_mem, onDisk_disk, hmem, (hmem' _).1, (hmem' _).2]
      dsimp only [Sys.setDisk]
      rw [(hread _ _ _ _).2]

/-! ### When the bit map comes back -/

/-- One or more operations on the bit map of the open device, all below its last block. -/
structure Moved (s : Sys) (d T : Nat) (r : Store × BLOCKDEV_API) : Prop where
  same : SameDev (s.disks d) r.2
  only : OnlyBits (s.disks d).bitmap T s.mem r.1
  above : ∀ b, T ≤ b → r.1.bit (s.disks d).bitmap b = s.mem.bit (s.disks d).bitmap b
  accurate : Accurate r.1 r.2

theorem Open.accurate (h : Open s d T) (inv : (volume s d).Extents (dataStart T) T) :
    Accurate s.mem (s.disks d) := (volume_clear h.blocks).mp inv.free

/-- The file system is untouched exactly when every bit is back. -/
theorem untouched_iff (h : Open s d T) (inv : (volume s d).Extents (dataStart T) T)
    {r : Store × BLOCKDEV_API} (hr : Moved s d T r) :
    Untouched s (s.onDisk d r) d T ↔
      ∀ b, b < T → r.1.bit (s.disks d).bitmap b = s.mem.bit (s.disks d).bitmap b := by
  have hbit : ∀ b, (volume (s.onDisk d r) d).bit b = r.1.bit (s.disks d).bitmap b := by
    intro b
    rw [← hr.same.bitmap, ← onDisk_disk (s := s) (d := d) (r := r)]
    rfl
  constructor
  · intro hu b hb
    rw [← hbit]
    exact hu.bits b hb
  · intro hback
    have hmem : r.1 = s.mem := by
      refine mem_eq_of_bits hr.only fun b => ?_
      by_cases hb : b < T
      · exact hback b hb
      · exact hr.above b (by omega)
    refine ⟨fun x _ _ => congrFun hmem x, fun b hb => (hbit b).trans (hback b hb), ?_, ?_⟩
    · show ((s.onDisk d r).disks d).free_blocks = (s.disks d).free_blocks
      have hacc := hr.accurate
      have hacc₀ := h.accurate inv
      unfold Accurate at hacc hacc₀
      rw [onDisk_disk, hacc, hacc₀, hmem, hr.same.bitmap, hr.same.total_blocks]
    · exact reading_onDisk hmem hr.same h.active

theorem onDisk_onDisk (s : Sys) (d : Nat) (r r' : Store × BLOCKDEV_API) :
    (s.onDisk d r).onDisk d r' = s.onDisk d r' := by
  unfold Sys.onDisk Sys.setDisk
  simp only [Sys.mk.injEq, true_and, and_true]
  funext i
  by_cases hi : i = d <;> simp [hi]

theorem onDisk_self (s : Sys) (d : Nat) : s.onDisk d (s.mem, s.disks d) = s := by
  have : (fun i => if i = d then s.disks d else s.disks i) = s.disks := by
    funext i
    by_cases hi : i = d <;> simp [hi]
  unfold Sys.onDisk Sys.setDisk
  dsimp only
  rw [this]

/-- A page allocation that fails changes nothing. -/
theorem alloc_failed (h0 : s.pmm.used 0 = true) {n : Nat} (hf : (s.alloc_page n).1 = 0) :
    (s.alloc_page n).2 = s := by
  unfold Sys.alloc_page at hf ⊢
  split at hf
  · rename_i hapi
    rw [if_pos hapi]
    dsimp only at hf ⊢
    rcases Pmm.alloc_page_spec s.pmm (toInt n) with ⟨-, hp⟩ | ⟨k, ha⟩
    · rw [hp]
    · have haddr := ha.addr_eq
      have := ha.avoids h0
      have := ha.pos
      omega
  · rename_i hapi
    rw [if_neg hapi]

/-- Where the old extent is, if the path has one: its first block and its length. -/
def oldExtent (s : Sys) (p : CStr) : Nat × Nat :=
  match find_file s p with
  | some i =>
    (FileEntry.start_block s.mem (s.entry i), FileEntry.block_count s.mem (s.entry i))
  | none => (0, 0)

/-- Block `b` would be free once the old extent is. -/
def FreeAfter (s : Sys) (d : Nat) (p : CStr) (b : Nat) : Prop :=
  s.mem.bit (s.disks d).bitmap b = false ∨ Run (oldExtent s p).1 (oldExtent s p).2 b

/--
The failed writes after which the file system is as before: the call refuses its
arguments or finds the table full; the path owns no blocks and no run is long enough;
or the new extent is the old one, because it has as many blocks and every earlier start
is blocked.
-/
def Harmless (s : Sys) (d : Nat) (path : Option CStr) (buffer : Option Store) (bytes : Nat) : Prop :=
  match path, buffer with
  | some p, some _ =>
    find_file s p = none ∧ find_free s = none ∨
      (oldExtent s p).2 = 0 ∧
        (∀ r, ¬ ClearRun s.mem (s.disks d).bitmap (s.disks d).total_blocks (blocks_for bytes) r) ∨
      (oldExtent s p).2 = blocks_for bytes ∧
        ∀ r, 1 ≤ r → r < (oldExtent s p).1 → ∃ k, k < blocks_for bytes ∧ ¬ FreeAfter s d p (r + k)
  | _, _ => True

theorem Moved.refl (h : Open s d T) (inv : (volume s d).Extents (dataStart T) T) :
    Moved s d T (s.mem, s.disks d) :=
  ⟨SameDev.refl _, OnlyBits.refl _ _ _, fun _ _ => rfl, h.accurate inv⟩

/-- One more operation on the bit map. -/
theorem Moved.sets (h : Open s d T) {r : Store × BLOCKDEV_API} (hr : Moved s d T r) {S : Nat → Prop}
    {v : Bool} {m' : Store} {dev' : BLOCKDEV_API} (hs : Sets S v r.1 r.2 m' dev')
    (hS : ∀ b, S b → b < T) : Moved s d T (m', dev') := by
  have honly := hs.only
  rw [hr.same.bitmap, hr.same.total_blocks, h.blocks] at honly
  refine ⟨hr.same.trans hs.same, hr.only.trans honly, fun b hb => ?_, hs.accurate hr.accurate⟩
  have hout := hs.outside b fun hc => by have := hS b hc; omega
  rw [hr.same.bitmap] at hout
  exact hout.trans (hr.above b hb)

/-- The bits once the old extent, if any, is free. -/
structure Freed (s : Sys) (d T : Nat) (p : CStr) (r : Store × BLOCKDEV_API) : Prop where
  moved : Moved s d T r
  bits : ∀ b, r.1.bit (s.disks d).bitmap b = false ↔ FreeAfter s d p b
  /-- The old extent is marked before, and inside the device. -/
  old : ∀ b, Run (oldExtent s p).1 (oldExtent s p).2 b →
    s.mem.bit (s.disks d).bitmap b = true ∧ 1 ≤ b ∧ b < T

/-- The first half of a write. -/
theorem write_target_freed (h : Open s d T) (inv : (volume s d).Extents (dataStart T) T) (p : CStr) :
    ∃ r, (write_target s d p).2 = s.onDisk d r ∧ Freed s d T p r ∧
      ((write_target s d p).1 = none ↔ find_file s p = none ∧ find_free s = none) := by
  unfold write_target
  cases hf : find_file s p with
  | none =>
      have hold : oldExtent s p = (0, 0) := by
        unfold oldExtent
        rw [hf]
      refine ⟨(s.mem, s.disks d), (onDisk_self s d).symm,
        ⟨Moved.refl h inv, fun b => ?_, fun b hb => ?_⟩, by simp⟩
      · unfold FreeAfter
        rw [hold]
        refine ⟨Or.inl, fun hb => ?_⟩
        rcases hb with hb | hb
        · exact hb
        · unfold Run at hb
          omega
      · rw [hold] at hb
        unfold Run at hb
        omega
  | some i =>
      have hold : oldExtent s p = (FileEntry.start_block s.mem (s.entry i),
          FileEntry.block_count s.mem (s.entry i)) := by
        unfold oldExtent
        rw [hf]
      have hi : i < MAX_FILES := List.mem_range.mp (List.mem_of_find?_eq_some hf)
      have hused : FileEntry.used s.mem (s.entry i) = true :=
        (Bool.and_eq_true _ _ ▸ List.find?_some hf).1
      rw [Sys.entry, slotAt_used hi, Option.isSome_iff_exists] at hused
      obtain ⟨e, he⟩ := hused
      obtain ⟨-, -, hstart, hcount⟩ := slotAt_some he
      rw [← Sys.entry] at hstart hcount
      dsimp only
      rw [hstart, hcount] at hold ⊢
      obtain ⟨hlo, hhi, -⟩ := inv.inside i e he
      have h9 : 9 ≤ dataStart T := by
        rw [dataStart_eq]
        omega
      have hsets := spmm_free_contiguous_sets s.mem (s.disks d) e.start_block e.block_count
        h.bitmap_ne (by omega) (by rw [h.blocks]; exact hhi)
        (by rw [h.blocks]; exact h.lt)
      have hin : ∀ b, Run e.start_block e.block_count b → b < T := fun b hb => by
        unfold Run at hb
        omega
      refine ⟨_, rfl, ⟨(Moved.refl h inv).sets h hsets hin, fun b => ?_, fun b hb => ?_⟩, by simp⟩
      · unfold FreeAfter
        rw [hold]
        by_cases hb : Run e.start_block e.block_count b
        · simp only [hsets.inside b hb, hb, or_true]
        · simp only [hsets.outside b hb, hb, or_false]
      · rw [hold] at hb
        refine ⟨(inv.bit_iff (hin b hb)).mpr (Or.inr ⟨i, e, he, hb⟩), ?_, hin b hb⟩
        unfold Run at hb
        dsimp only at hb
        omega

section AfterFree

variable {r r' : Store × BLOCKDEV_API} {n q : Nat}

/-- A run of clear blocks after the old extent is freed. -/
theorem Freed.clearRun (h : Open s d T) (hr : Freed s d T p r) :
    ClearRun r.1 r.2.bitmap r.2.total_blocks n q ↔
      1 ≤ q ∧ q + n ≤ T ∧ ∀ k, k < n → FreeAfter s d p (q + k) := by
  rw [hr.moved.same.bitmap, hr.moved.same.total_blocks, h.blocks]
  constructor
  · rintro ⟨hpos, hle, hclear⟩
    exact ⟨hpos, hle, fun k hk => (hr.bits _).mp (hclear k hk)⟩
  · rintro ⟨hpos, hle, hfree⟩
    exact ⟨hpos, hle, fun k hk => (hr.bits _).mpr (hfree k hk)⟩

/-- Freeing brings every bit back exactly when there was nothing to free. -/
theorem Freed.back_iff (hr : Freed s d T p r) :
    (∀ b, b < T → r.1.bit (s.disks d).bitmap b = s.mem.bit (s.disks d).bitmap b) ↔
      (oldExtent s p).2 = 0 := by
  constructor
  · intro hback
    by_contra hne
    have hrun : Run (oldExtent s p).1 (oldExtent s p).2 (oldExtent s p).1 := by
      unfold Run
      omega
    obtain ⟨hset, -, hT⟩ := hr.old _ hrun
    rw [← hback _ hT, (hr.bits _).mpr (Or.inr hrun)] at hset
    cases hset
  · intro h0 b _
    rw [Bool.eq_iff_iff, ← not_iff_not, Bool.not_eq_true, Bool.not_eq_true, hr.bits]
    refine ⟨fun hb => ?_, Or.inl⟩
    rcases hb with hb | hb
    · exact hb
    · unfold Run at hb
      omega

/-- No run is long enough even with the old extent free. -/
theorem harmless_no_run (h : Open s d T) (hr : Freed s d T p r)
    (hslot : ¬ (find_file s p = none ∧ find_free s = none))
    (hno : ∀ q, ¬ ClearRun r.1 r.2.bitmap r.2.total_blocks (blocks_for bytes) q) :
    (∀ b, b < T → r.1.bit (s.disks d).bitmap b = s.mem.bit (s.disks d).bitmap b) ↔
      Harmless s d (some p) (some buf) bytes := by
  rw [hr.back_iff]
  constructor
  · intro h0
    refine Or.inr (Or.inl ⟨h0, fun q hq => hno q ((hr.clearRun h).mpr ⟨hq.pos, ?_, fun k hk => ?_⟩)⟩)
    · rw [← h.blocks]
      exact hq.le
    · exact Or.inl (hq.clear k hk)
  · rintro (hfull | ⟨h0, -⟩ | ⟨hlen, -⟩)
    · exact absurd hfull hslot
    · exact h0
    · -- The old extent itself would be such a run.
      have hpos := blocks_for_pos bytes
      have hold := fun k (hk : k < blocks_for bytes) => hr.old ((oldExtent s p).1 + k)
        ⟨by omega, by omega⟩
      refine absurd ((hr.clearRun h).mpr ⟨?_, ?_, fun k hk => ?_⟩) (hno (oldExtent s p).1)
      · have := (hold 0 hpos).2.1
        omega
      · have := (hold (blocks_for bytes - 1) (by omega)).2.2
        omega
      · exact Or.inr ⟨by omega, by omega⟩

/-- The new extent `[q, q + n)` is marked, and then there is no page. -/
theorem harmless_placed (h : Open s d T) (hr : Freed s d T p r)
    (hslot : ¬ (find_file s p = none ∧ find_free s = none))
    (hrun : ClearRun r.1 r.2.bitmap r.2.total_blocks (blocks_for bytes) q)
    (hleast : ∀ k, k < q → ¬ ClearRun r.1 r.2.bitmap r.2.total_blocks (blocks_for bytes) k)
    (hsets : Sets (Run q (blocks_for bytes)) true r.1 r.2 r'.1 r'.2) :
    (∀ b, b < T → r'.1.bit (s.disks d).bitmap b = s.mem.bit (s.disks d).bitmap b) ↔
      Harmless s d (some p) (some buf) bytes := by
  have hpos := blocks_for_pos bytes
  obtain ⟨hq1, hqT, hfree⟩ := (hr.clearRun h).mp hrun
  have hin := hsets.inside
  have hout := hsets.outside
  rw [hr.moved.same.bitmap] at hin hout
  generalize hc : oldExtent s p = old at *
  constructor
  · intro hback
    -- Every block of the new extent was marked, so it is a block of the old one.
    have hnew : ∀ b, Run q (blocks_for bytes) b → Run old.1 old.2 b := by
      intro b hb
      unfold Run at hb
      have hset := hback b (by omega)
      rw [hin b hb] at hset
      have hf := hfree (b - q) (by omega)
      rw [show q + (b - q) = b by omega] at hf
      rcases hf with hf | hf
      · rw [← hset] at hf
        cases hf
      · rwa [hc] at hf
    have hold : ∀ b, Run old.1 old.2 b → Run q (blocks_for bytes) b := by
      intro b hb
      by_contra hnb
      obtain ⟨hset, -, hT⟩ := hr.old b (by rw [hc]; exact hb)
      rw [← hback b hT, hout b hnb, (hr.bits b).mpr (Or.inr (by rw [hc]; exact hb))] at hset
      cases hset
    have hfirst := hnew q ⟨by omega, by omega⟩
    have hlast := hnew (q + (blocks_for bytes - 1)) ⟨by omega, by omega⟩
    unfold Run at hfirst hlast
    have hfirst' := hold old.1 ⟨by omega, by omega⟩
    have hlast' := hold (old.1 + (old.2 - 1)) ⟨by omega, by omega⟩
    unfold Run at hfirst' hlast'
    refine Or.inr (Or.inr ?_)
    rw [hc]
    refine ⟨by omega, fun k hk hkq => ?_⟩
    by_contra hall
    refine hleast k (by omega) ((hr.clearRun h).mpr ⟨hk, by omega, fun j hj => ?_⟩)
    by_contra hj'
    exact hall ⟨j, hj, hj'⟩
  · rintro (hfull | ⟨h0, hno⟩ | ⟨hlen, hblocked⟩)
    · exact absurd hfull hslot
    · rw [hc] at h0
      refine absurd ⟨hq1, by rw [h.blocks]; exact hqT, fun k hk => ?_⟩ (hno q)
      rcases hfree k hk with hf | hf
      · exact hf
      · rw [hc] at hf
        unfold Run at hf
        omega
    · rw [hc] at hlen hblocked
      have hold := fun k (hk : k < blocks_for bytes) => hr.old (old.1 + k)
        (by rw [hc]; exact ⟨by omega, by omega⟩)
      have hqle : ¬ old.1 < q := by
        intro hlt
        refine hleast old.1 hlt ((hr.clearRun h).mpr ⟨?_, ?_, fun k hk => Or.inr ?_⟩)
        · have := (hold 0 hpos).2.1
          omega
        · omega
        · rw [hc]
          exact ⟨by omega, by omega⟩
      have hqge : ¬ q < old.1 := by
        intro hlt
        obtain ⟨k, hk, hnf⟩ := hblocked q hq1 hlt
        exact hnf (hfree k hk)
      have hq : q = old.1 := by omega
      intro b hb
      by_cases hrunb : Run q (blocks_for bytes) b
      · rw [hin b hrunb]
        have := hr.old b (by rw [hc, ← hq, hlen]; exact hrunb)
        exact this.1.symm
      · rw [hout b hrunb, Bool.eq_iff_iff, ← not_iff_not, Bool.not_eq_true, Bool.not_eq_true,
          hr.bits]
        refine ⟨fun hf => ?_, Or.inl⟩
        rcases hf with hf | hf
        · exact hf
        · rw [hc, ← hq, hlen] at hf
          exact absurd hf hrunb

end AfterFree

theorem Untouched.refl (s : Sys) (d T : Nat) : Untouched s s d T :=
  ⟨fun _ _ _ => rfl, fun _ _ => rfl, rfl, fun _ _ _ => rfl⟩

/--
**Which failed writes are atomic.**  A write that returns a negative value leaves the
file system as it was exactly when it is harmless.
-/
theorem failed_write (h : Open s d T) (inv : (volume s d).ExtentInv (dataStart T) T)
    (path : Option CStr) (buffer : Option Store) (bytes : Nat)
    (hneg : (eke_fs_write_file s path buffer bytes).1 < 0) :
    Untouched s (eke_fs_write_file s path buffer bytes).2 d T ↔ Harmless s d path buffer bytes := by
  have hnoop : eke_fs_write_file s path buffer bytes = (-1, s) → Harmless s d path buffer bytes →
      (Untouched s (eke_fs_write_file s path buffer bytes).2 d T ↔
        Harmless s d path buffer bytes) := by
    intro heq hh
    rw [heq]
    exact ⟨fun _ => hh, fun _ => Untouched.refl s d T⟩
  cases path with
  | none => exact hnoop (by simp only [eke_fs_write_file, h.active]) trivial
  | some p =>
      cases buffer with
      | none => exact hnoop (by simp only [eke_fs_write_file, h.active]) trivial
      | some buf =>
          obtain ⟨r, hstate, hr, hslot⟩ := write_target_freed h inv.toExtents p
          unfold eke_fs_write_file at hneg ⊢
          rw [h.active] at hneg ⊢
          dsimp only at hneg ⊢
          rw [if_neg h.table_ne, hstate] at hneg ⊢
          cases ht : (write_target s d p).1 with
          | none =>
              have hfull := hslot.mp ht
              have h0 : (oldExtent s p).2 = 0 := by
                unfold oldExtent
                rw [hfull.1]
              dsimp only
              rw [untouched_iff h inv.toExtents hr.moved, hr.back_iff]
              exact ⟨fun _ => Or.inl hfull, fun _ => h0⟩
          | some i =>
              have hslot' : ¬ (find_file s p = none ∧ find_free s = none) := by
                rw [← hslot, ht]
                simp
              rw [ht] at hneg
              dsimp only at hneg ⊢
              rw [onDisk_mem, onDisk_disk] at hneg ⊢
              have hspec := spmm_alloc_contiguous_spec r.1 r.2 (blocks_for bytes)
                (by rw [hr.moved.same.bitmap]; exact h.bitmap_ne)
                (by have := blocks_for_pos bytes; omega) hr.moved.accurate
              dsimp only at hspec
              generalize spmm_alloc_contiguous (blocks_for bytes) r.1 r.2 = a at *
              rcases hspec with ⟨rfl, hno⟩ | ⟨hrun, hleast, hsets⟩
              · rw [if_pos rfl]
                rw [untouched_iff h inv.toExtents hr.moved]
                exact harmless_no_run h hr hslot' hno
              · have hne : a.1 ≠ 0 := by
                  have := hrun.pos
                  omega
                rw [if_neg hne, onDisk_onDisk] at hneg ⊢
                by_cases htemp : ((s.onDisk d a.2).alloc_page (temp_pages (blocks_for bytes))).1 = 0
                · rw [if_pos htemp, alloc_failed (s := s.onDisk d a.2) h.null_page htemp]
                  have hmoved : Moved s d T a.2 := hr.moved.sets h hsets fun b hb => by
                    have hle := ((hr.clearRun h).mp hrun).2.1
                    unfold Run at hb
                    omega
                  rw [untouched_iff h inv.toExtents hmoved]
                  exact harmless_placed h hr hslot' hrun hleast hsets
                · rw [if_neg htemp] at hneg
                  exact absurd hneg (by simp)

/-- The memory of a mounted device of 16 sectors with one file: `a`, one block, at block 10. -/
def heldMem : Store := fun x =>
  if x = 512 * 4096 then 255 else if x = 512 * 4096 + 1 then 7
  else if x = 513 * 4096 then 97 else if x = 513 * 4096 + 33 then 2
  else if x = 513 * 4096 + 36 then 10 else if x = 513 * 4096 + 40 then 1
  else if x = 513 * 4096 + 44 then 1 else 0

def heldState : Sys where
  mem := heldMem
  pmm := bootPages
  disks := fun _ =>
    { blankDevice 16 with bitmap := 512 * 4096, total_blocks := 16, free_blocks := 5, last_free_block := 1 }
  g_api := true
  active_dev := some 0
  active_sb := Superblock.forDevice 16
  file_table := 513 * 4096
  bitmap_buf := 512 * 4096

theorem held_open : Open heldState 0 16 :=
  ⟨rfl, by decide, by decide, rfl, by decide, by decide⟩

theorem held_slotAt {i : Nat} {e : Entry}
    (he : slotAt heldState.mem heldState.file_table i = some e) :
    i = 0 ∧ e = { name := [97], size := 512, start_block := 10, block_count := 1 } := by
  have hfree : ∀ i, i < MAX_FILES → i ≠ 0 → FileEntry.used heldState.mem (heldState.entry i) = false := by
    decide
  have hi : i = 0 := by
    by_contra hne
    have := hfree i (slotAt_lt he) hne
    rw [Sys.entry, slotAt_used (slotAt_lt he), he] at this
    cases this
  subst hi
  obtain ⟨hname, hsize, hstart, hcount⟩ := slotAt_some he
  refine ⟨rfl, ?_⟩
  cases e
  dsimp only at hname hsize hstart hcount
  rw [Entry.mk.injEq]
  refine ⟨hname.symm.trans ?_, hsize.symm.trans ?_, hstart.symm.trans ?_, hcount.symm.trans ?_⟩
  all_goals decide

theorem held_slot {i : Nat} {e : Entry} (he : (volume heldState 0).slot i = some e) :
    i = 0 ∧ e = { name := [97], size := 512, start_block := 10, block_count := 1 } :=
  held_slotAt he

theorem held_inv : (volume heldState 0).ExtentInv (dataStart 16) 16 := by
  have hslot : (volume heldState 0).slot 0 =
      some { name := [97], size := 512, start_block := 10, block_count := 1 } := by
    show slotAt heldState.mem heldState.file_table 0 = _
    cases he : slotAt heldState.mem heldState.file_table 0 with
    | none =>
        have : FileEntry.used heldState.mem (heldState.entry 0) = true := by decide
        rw [Sys.entry, slotAt_used (by decide), he] at this
        cases this
    | some e => rw [(held_slotAt he).2]
  have hbits : ∀ b, b < 16 → (volume heldState 0).bit b = decide (b < 11) := by decide
  refine ⟨Volume.Extents.of_bit_iff ?_ ?_ ?_ ?_, ?_⟩
  · intro i e he
    obtain ⟨-, rfl⟩ := held_slot he
    decide
  · intro i j e f he hf hij
    exact absurd ((held_slot he).1.trans (held_slot hf).1.symm) hij
  · intro b hb
    rw [hbits b hb, decide_eq_true_eq]
    have hdata : dataStart 16 = 10 := rfl
    constructor
    · intro hlt
      by_cases h10 : b < 10
      · exact Or.inl (by omega)
      · refine Or.inr ⟨0, _, hslot, ?_⟩
        unfold Entry.extent Run
        dsimp only
        omega
    · rintro (hlt | ⟨i, e, he, hrun⟩)
      · omega
      · obtain ⟨-, rfl⟩ := held_slot he
        unfold Entry.extent Run at hrun
        dsimp only at hrun
        omega
  · show 5 = ((Finset.range 16).filter fun b => (volume heldState 0).bit b = false).card
    decide
  · intro i j e f he hf _
    exact (held_slot he).1.trans (held_slot hf).1.symm

/-- Six blocks for a new file are one too many. -/
theorem failed_write_held :
    Untouched heldState (eke_fs_write_file heldState (some pathB) (some forged) 3072).2 0 16 ↔
      Harmless heldState 0 (some pathB) (some forged) 3072 :=
  failed_write held_open held_inv (some pathB) (some forged) 3072 (by decide)

/--
Seven blocks for `a` are refused as well, but by then its block is free: the entry still
points at it.
-/
theorem failed_write_frees :
    Open heldState 0 16 ∧ (volume heldState 0).ExtentInv (dataStart 16) 16 ∧
      (eke_fs_write_file heldState (some pathA) (some forged) 3584).1 = -3 ∧
      ¬ Untouched heldState (eke_fs_write_file heldState (some pathA) (some forged) 3584).2 0 16 := by
  refine ⟨held_open, held_inv, by decide, fun hu => ?_⟩
  have hbit := hu.bits 10 (by decide)
  have hold : (volume heldState 0).bit 10 = true := by decide
  have hnew : (volume (eke_fs_write_file heldState (some pathA) (some forged) 3584).2 0).bit 10
      = false := by decide
  rw [hold, hnew] at hbit
  cases hbit

end Eke
