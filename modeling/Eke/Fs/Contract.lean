/-
What holds in every run, and where it stops holding.

The extent law and the isolation of files hold in every state of a run whose calls keep
their temporary buffer off the tail of the file table.  The machine `blank` shows that
the condition is needed: it has nothing in memory but the two buffers, so the page
allocator hands the page behind the file table to the first write, and a file's
contents turn up as slots of the table.
-/
import Eke.Fs.Isolation

namespace Eke

variable {s s' s₀ : Sys} {d T i bytes : Nat} {p : CStr} {buf : Store}

/-! ### A write to an unused table -/

/-- The state in which a write to a new file reaches the temporary buffer. -/
structure Reaches (s : Sys) (d i blocks : Nat) (p : CStr) : Prop where
  new : find_file s p = none
  free : find_free s = some i
  run : (spmm_alloc_contiguous blocks s.mem (s.disks d)).1 ≠ 0
  temp : (s.pmm.alloc_page (toInt (temp_pages blocks))).1 ≠ 0

/-- An empty file table takes a new file in slot 0. -/
theorem Unused.find (hun : Unused s) (p : CStr) : find_file s p = none ∧ find_free s = some 0 := by
  constructor
  · unfold find_file
    refine List.find?_eq_none.mpr fun i hi => ?_
    rw [hun i (List.mem_range.mp hi)]
    simp
  · unfold find_free
    rw [List.find?_range_eq_some]
    refine ⟨by rw [hun 0 (by decide)]; rfl, by decide, fun j hj => by omega⟩

/-- When the data blocks are clear, the first write has room. -/
theorem sound_start_run (hs : Sound s d T) (hun : Unused s) {count : Nat} (hpos : 0 < count)
    (hle : dataStart T + count ≤ T) : (spmm_alloc_contiguous count s.mem (s.disks d)).1 ≠ 0 := by
  have hm := hs.good.mounted
  have h9 := hm.dataStart_le
  have hacc : Accurate s.mem (s.disks d) := (volume_clear hm.blocks).mp hs.good.inv.free
  rcases spmm_alloc_contiguous_spec s.mem (s.disks d) count
    (by rw [hm.bitmap]; exact hm.buffers.bitmap_ne) (by omega) hacc with ⟨-, hnone⟩ | ⟨hrun, -, -⟩
  · refine absurd ⟨by omega, by rw [hm.blocks]; exact hle, fun k hk => ?_⟩ (hnone (dataStart T))
    by_contra hbit
    rcases (hs.good.inv.bit_iff (b := dataStart T + k) (by omega)).mp (eq_true_of_ne_false hbit) with
      hlt | ⟨i, e, he, -⟩
    · omega
    · rw [hun.slot] at he
      cases he
  · have := hrun.pos
    omega

/-- A new file that reaches its temporary buffer is written. -/
theorem write_new (buf : Store) (hm : Mounted s d T) (h : Reaches s d i (blocks_for bytes) p) :
    ∃ s₂ start, s₂.file_table = s.file_table ∧ s₂.active_dev = s.active_dev ∧
      eke_fs_write_file s (some p) (some buf) bytes =
        (0, write_data s₂ d i p buf bytes (blocks_for bytes) start
          (s.pmm.alloc_page (toInt (temp_pages (blocks_for bytes)))).1) := by
  have htarget : write_target s d p = (some i, s) := by
    unfold write_target
    rw [h.new, h.free]
  have hpage : ∀ r, (s.onDisk d r).alloc_page (temp_pages (blocks_for bytes)) =
      ((s.pmm.alloc_page (toInt (temp_pages (blocks_for bytes)))).1,
        { s.onDisk d r with
          pmm := (s.pmm.alloc_page (toInt (temp_pages (blocks_for bytes)))).2 }) := by
    intro r
    unfold Sys.alloc_page
    rw [if_pos (show (s.onDisk d r).g_api = true from hm.api)]
    rfl
  unfold eke_fs_write_file
  rw [hm.active]
  dsimp only
  rw [if_neg hm.buffers.table_ne, htarget]
  dsimp only
  rw [if_neg h.run, hpage]
  dsimp only
  rw [if_neg h.temp]
  generalize spmm_alloc_contiguous (blocks_for bytes) s.mem (s.disks d) = a
  exact ⟨{ s.onDisk d a.2 with
    pmm := (s.pmm.alloc_page (toInt (temp_pages (blocks_for bytes)))).2 }, a.1, rfl, hm.active, rfl⟩

theorem free_page_same (s : Sys) (addr : Nat) :
    (s.free_page addr).mem = s.mem ∧ (s.free_page addr).file_table = s.file_table ∧
      (s.free_page addr).active_dev = s.active_dev := by
  unfold Sys.free_page
  split <;> exact ⟨rfl, rfl, rfl⟩

theorem write_data_table {blocks start temp : Nat} :
    (write_data s d i p buf bytes blocks start temp).file_table = s.file_table := by
  simp only [write_data, flush_metadata, Sys.setDisk, free_page_same]

theorem write_data_active {blocks start temp : Nat} :
    (write_data s d i p buf bytes blocks start temp).active_dev = s.active_dev := by
  simp only [write_data, flush_metadata, Sys.setDisk, free_page_same]

/-- The contents of a file lie where its temporary buffer was. -/
theorem write_data_mem {blocks start temp k : Nat} (hk : k < bytes)
    (hslot : temp + k < s.entry i ∨ s.entry i + 45 ≤ temp + k) :
    (write_data s d i p buf bytes blocks start temp).mem (temp + k) = buf k := by
  have hmem : (write_data s d i p buf bytes blocks start temp).mem =
      update_entry ((s.mem.fill temp (blocks * SECTOR_SIZE % 2 ^ 32) 0).blit temp bytes buf 0)
        (s.entry i) p bytes start blocks := by
    simp only [write_data, flush_metadata, Sys.setDisk, Sys.entry, free_page_same]
  rw [hmem, update_entry_out (by omega), Store.blit_in (by omega) (by omega)]
  exact congrArg buf (by omega)

/-! ### A machine that has just booted -/

/-- A blank device of `T` sectors. -/
def blankDevice (T : Nat) : BLOCKDEV_API where
  total_sectors := T
  sectors := fun _ => 0
  io := fun _ => none
  ops := 0
  bitmap := 0
  total_blocks := 0
  free_blocks := 0
  last_free_block := 0

/-- A machine with zeroed memory, nothing mounted and only blank devices. -/
def blank (pmm : Pmm) (T : Nat) : Sys where
  mem := fun _ => 0
  pmm := pmm
  disks := fun _ => blankDevice T
  g_api := true
  active_dev := none
  active_sb := Superblock.forDevice 0
  file_table := 0
  bitmap_buf := 0

/-- The page allocator under a kernel image of 2 MB. -/
def bootPages : Pmm := Pmm.init_pmm 0x200000

/-- The same with the page behind the first two in use. -/
def tamePages : Pmm := bootPages.setbit (514 / 64) (514 % 64)

theorem blank_buffers (pmm : Pmm) (hT : T < 2 ^ 63) :
    let a := pmm.alloc_page (toInt (pages_of (bitmapSectors T)))
    let b := a.2.alloc_page (toInt (pages_of 8))
    let s' := formatMount (blank pmm T) 0
    s'.bitmap_buf = a.1 ∧ s'.file_table = b.1 ∧ s'.pmm = b.2 := by
  have hfmt := format_disk (s := blank pmm T) (d := 0) (fun _ => rfl) rfl
  refine mount_allocs (T := T) ?_ ?_ ?_ ?_ ?_
  · intro n
    rw [hfmt]
    rfl
  · rw [hfmt]
    exact formatted_super (show T < 2 ^ 64 by omega)
  · rw [hfmt]
    rfl
  · rw [hfmt]
    rfl
  · rw [hfmt]
    rfl

theorem blank_formattable {pmm : Pmm} (hT : bitmapSectors T < 2 ^ 32)
    (ha : (pmm.alloc_page (toInt (pages_of (bitmapSectors T)))).1 ≠ 0)
    (hb : ((pmm.alloc_page (toInt (pages_of (bitmapSectors T)))).2.alloc_page
      (toInt (pages_of 8))).1 ≠ 0) : Formattable (blank pmm T) 0 T := by
  have hT' : (T / 8 + 512 - 1) / 512 < 2 ^ 32 := hT
  obtain ⟨h1, h2, -⟩ := blank_buffers pmm (T := T) (by omega)
  refine ⟨rfl, fun _ => rfl, rfl, Or.inl ⟨⟨⟨rfl, rfl⟩, ?_, ?_⟩, hT⟩⟩
  · rw [h1]
    exact ha
  · rw [h2]
    exact hb

/-- The file table of a machine with zeroed memory starts out unused. -/
theorem blank_tail {pmm : Pmm} (h : Formattable (blank pmm T) 0 T)
    (hcov : T ≤ 4096 * bitmapSectors T) :
    TailUnused (formatMount (blank pmm T) 0).mem (formatMount (blank pmm T) 0).file_table := by
  intro i hlo hi
  have hm := formatMount_from h hcov
  unfold FileEntry.used
  rw [bne_eq_false_iff_eq, Nat.add_assoc,
    hm.tail _ (by unfold FileEntrySize SECTOR_SIZE; omega)
      (by unfold tableBytes FileEntrySize MAX_FILES at *; omega),
    format_disk h.reliable h.total]
  rfl

theorem blank_unused {pmm : Pmm} (h : Formattable (blank pmm T) 0 T)
    (hcov : T ≤ 4096 * bitmapSectors T) : Unused (formatMount (blank pmm T) 0) :=
  unused_of_tail h hcov (blank_tail h hcov)

/-- A device of 16 sectors: ten of metadata and six data blocks. -/
theorem blank_small {pmm : Pmm} (ha : (pmm.alloc_page (toInt (pages_of 1))).1 ≠ 0)
    (hb : ((pmm.alloc_page (toInt (pages_of 1))).2.alloc_page (toInt (pages_of 8))).1 ≠ 0) :
    Formattable (blank pmm 16) 0 16 ∧ Unused (formatMount (blank pmm 16) 0) := by
  have h : Formattable (blank pmm 16) 0 16 := blank_formattable (by decide) ha hb
  exact ⟨h, blank_unused h (by decide)⟩

def pathA : CStr := ⟨[97], by decide⟩

def pathB : CStr := ⟨[98], by decide⟩

/-- The first write of up to one block on a device of 16 sectors. -/
theorem blank_reaches {pmm : Pmm} (h : Formattable (blank pmm 16) 0 16)
    (htemp : ((formatMount (blank pmm 16) 0).pmm.alloc_page (toInt (temp_pages 1))).1 ≠ 0) :
    Reaches (formatMount (blank pmm 16) 0) 0 0 1 pathA := by
  have hun := blank_unused h (by decide)
  have hs := sound_start h (by decide) hun
  exact ⟨(hun.find pathA).1, (hun.find pathA).2, sound_start_run hs hun (by decide) (by decide), htemp⟩

/-! ### A file whose contents are a slot -/

/--
The contents of a file that reads as slot 61 when it lies behind the table's page:
name `b`, size 5, no blocks, and the `used` byte set.
-/
def forged : Store := fun k => if k = 52 then 98 else if k = 84 then 5 else if k = 96 then 1 else 0

/-- The machine on which the first temporary buffer is the page behind the table. -/
def freshState : Sys := formatMount (blank bootPages 16) 0

def forgedState : Sys := (eke_fs_write_file freshState (some pathA) (some forged) 512).2

theorem fresh_formattable : Formattable (blank bootPages 16) 0 16 ∧ Unused freshState :=
  blank_small (by decide) (by decide)

/-- The write goes through and leaves the file's contents in the table's tail. -/
theorem forged_write : (eke_fs_write_file freshState (some pathA) (some forged) 512).1 = 0 ∧
    forgedState.file_table ≠ 0 ∧ forgedState.active_dev = some 0 ∧
    ∀ k, k < 512 → forgedState.mem (forgedState.file_table + 4096 + k) = forged k := by
  obtain ⟨h, hun⟩ := fresh_formattable
  have hs : Sound freshState 0 16 := sound_start h (by decide) hun
  obtain ⟨-, hft, hpmm⟩ := blank_buffers bootPages (T := 16) (by decide)
  have hft : freshState.file_table = 513 * 4096 := hft.trans (by decide)
  have htemp : (freshState.pmm.alloc_page (toInt (temp_pages 1))).1 = 514 * 4096 := by
    rw [show freshState.pmm = _ from hpmm]
    decide
  have hr : Reaches freshState 0 0 (blocks_for 512) pathA :=
    blank_reaches h (by rw [show formatMount (blank bootPages 16) 0 = freshState from rfl, htemp]; decide)
  obtain ⟨s₂, start, htab, hact, heq⟩ := write_new forged hs.good.mounted hr
  rw [show blocks_for 512 = 1 from rfl, htemp] at heq
  have hstate : forgedState = write_data s₂ 0 0 pathA forged 512 1 start (514 * 4096) :=
    congrArg Prod.snd heq
  refine ⟨congrArg Prod.fst heq, ?_, ?_, fun k hk => ?_⟩
  · rw [hstate, write_data_table, htab, hft]
    decide
  · rw [hstate, write_data_active, hact]
    exact hs.good.mounted.active
  · rw [hstate, write_data_table, htab, hft, show 513 * 4096 + 4096 + k = 514 * 4096 + k by omega]
    refine write_data_mem hk ?_
    rw [Sys.entry, htab, hft]
    omega

/-- Slot 61 of the table is an entry nobody made. -/
theorem forged_slot :
    FileEntry.used forgedState.mem (forgedState.entry 61) = true ∧
      str_eq forgedState.mem (forgedState.entry 61) pathB.chars = true ∧
      FileEntry.start_block forgedState.mem (forgedState.entry 61) = 0 := by
  obtain ⟨-, -, -, hmem⟩ := forged_write
  have hbyte : ∀ j, j < 45 → forgedState.mem (forgedState.entry 61 + j) = forged (52 + j) := by
    intro j hj
    rw [← hmem (52 + j) (by omega)]
    refine congrArg _ ?_
    unfold Sys.entry FileEntrySize
    omega
  have h0 : forgedState.mem (forgedState.entry 61) = 98 := (hbyte 0 (by omega)).trans (by decide)
  have h1 : forgedState.mem (forgedState.entry 61 + 1) = 0 := (hbyte 1 (by omega)).trans (by decide)
  have hstart : forgedState.mem.le (forgedState.entry 61 + 36) 4 = forged.le (52 + 36) 4 :=
    Store.le_congr_at fun j hj => by
      have := hbyte (36 + j) (by omega)
      rwa [← Nat.add_assoc, ← Nat.add_assoc] at this
  refine ⟨?_, ?_, Eq.trans hstart (by decide)⟩
  · unfold FileEntry.used
    rw [hbyte 44 (by omega)]
    decide
  · simp [str_eq, pathB, h0, h1]

/-! ### The extent law -/

/-- **The extent law holds in every state of a run that keeps off the tail.** -/
theorem extent_law (h : Formattable s₀ d T) (hcov : T ≤ 4096 * bitmapSectors T)
    (hun : Unused (formatMount s₀ d))
    (run : Runs (fun s op => op.Short ∧ op.Tame s) (formatMount s₀ d) s) :
    (volume s d).ExtentInv (dataStart T) T := by
  have hs := sound_start h hcov hun
  have hnames : (volume (formatMount s₀ d) d).Distinct := by
    intro i j e f he
    rw [hun.slot] at he
    cases he
  exact ⟨(sound_run (fun op => Op.Short.fits) hs run).good.inv, distinct_run hs hnames run⟩

/-- A machine on which the first write keeps off the tail. -/
def tameState : Sys := formatMount (blank tamePages 16) 0

def tameWrite : Op := .write (some pathA) (some forged) 512

theorem tame_formattable : Formattable (blank tamePages 16) 0 16 ∧ Unused tameState :=
  blank_small (by decide) (by decide)

/-- The first write of up to one block goes through there. -/
theorem tame_step (buf : Store) {n : Nat} (hn : blocks_for n = 1) :
    TailSafe tameState (blocks_for n) ∧
      (eke_fs_write_file tameState (some pathA) (some buf) n).1 = 0 := by
  obtain ⟨h, hun⟩ := tame_formattable
  have hs : Sound tameState 0 16 := sound_start h (by decide) hun
  obtain ⟨-, hft, hpmm⟩ := blank_buffers tamePages (T := 16) (by decide)
  have hft : tameState.file_table = 513 * 4096 := hft.trans (by decide)
  have htemp : (tameState.pmm.alloc_page (toInt (temp_pages 1))).1 = 515 * 4096 := by
    rw [show tameState.pmm = _ from hpmm]
    decide
  have hr : Reaches tameState 0 0 1 pathA :=
    blank_reaches h (by rw [show formatMount (blank tamePages 16) 0 = tameState from rfl, htemp]; decide)
  rw [hn]
  refine ⟨fun _ => Or.inr ?_, ?_⟩
  · rw [htemp, hft]
    decide
  · obtain ⟨s₂, start, -, -, heq⟩ := write_new buf hs.good.mounted (show Reaches tameState 0 0 (blocks_for n) pathA by rw [hn]; exact hr)
    exact congrArg Prod.fst heq

theorem extent_law_tame :
    (volume (tameWrite.exec tameState).2 0).ExtentInv (dataStart 16) 16 := by
  obtain ⟨h, hun⟩ := tame_formattable
  obtain ⟨htail, hok⟩ := tame_step forged (n := 512) (by decide)
  refine extent_law h (by decide) hun (Relation.ReflTransGen.single ?_)
  refine Step.call tameWrite ⟨⟨fun p hp => ?_, by decide⟩, htail⟩ fun _ => hok
  obtain rfl := Option.some.inj hp
  decide

/-- Without the condition a single write breaks the law: slot 61 owns the superblock's block. -/
theorem extent_law_needs_tail :
    Formattable (blank bootPages 16) 0 16 ∧ 16 ≤ 4096 * bitmapSectors 16 ∧ Unused freshState ∧
      Runs (fun _ op => op.Short) freshState forgedState ∧
      ¬ (volume forgedState 0).ExtentInv (dataStart 16) 16 := by
  refine ⟨fresh_formattable.1, by decide, fresh_formattable.2, Relation.ReflTransGen.single ?_, ?_⟩
  · refine Step.call (.write (some pathA) (some forged) 512) ⟨fun p hp => ?_, by decide⟩
      fun _ => forged_write.1
    obtain rfl := Option.some.inj hp
    decide
  · intro hinv
    obtain ⟨hused, -, hstart⟩ := forged_slot
    rw [Sys.entry, slotAt_used (by decide)] at hused
    obtain ⟨e, he⟩ := Option.isSome_iff_exists.mp hused
    obtain ⟨hlo, -, -⟩ := hinv.inside 61 e he
    obtain ⟨-, -, hs, -⟩ := slotAt_some he
    rw [← hs, ← Sys.entry, hstart] at hlo
    exact absurd hlo (by decide)

/-! ### Reading what was written -/

/-- What a write of `data` under `p` promises about the state after it. -/
structure WritePost (s s' : Sys) (p : CStr) (data : List Byte) : Prop where
  stored : Stored s' p data
  others : ∀ q, q ≠ p → SameFor s s' q

/-- What a delete of `p` promises about the state after it. -/
structure DeletePost (s s' : Sys) (p : CStr) : Prop where
  gone : find_file s' p = none ∧ eke_fs_get_size s' (some p) = 0 ∧
    ∀ buf m, reading s' p buf m = (-1, some buf)
  others : ∀ q, q ≠ p → SameFor s s' q

theorem Written.post (g : Good s d T) (hd : (volume s d).Distinct) {r : Nat} {data : List Byte}
    (hw : Written s s' d T i r p buf data.length) (hp : p.chars.length ≤ 31)
    (hlen : data.length < 2 ^ 31) (hbuf : ∀ k, k < data.length → buf k = data.getD k 0) :
    WritePost s s' p data where
  stored := by
    refine stored_of_fileOf hw.good hlen ?_
    rw [hw.fileOf_self g.named hd hp (by omega)]
    refine congrArg some (List.ext_getElem (by simp) fun k hk hk' => ?_)
    simp [hbuf k hk', hk']
  others q hq := sameFor_of_fileOf g hw.good (hw.fileOf_other g hd hp hq)

theorem Deleted.post (g : Good s d T) (hd : (volume s d).Distinct) (hx : Deleted s s' d T i p) :
    DeletePost s s' p where
  gone := by
    have hnone := hx.fileOf_self g.named hd
    have htab := hx.good.mounted.buffers.table_ne
    refine ⟨hnone, ?_, fun buf m => ?_⟩
    · simp only [eke_fs_get_size, hnone, if_neg htab]
    · simp only [reading, eke_fs_read_file, hx.good.mounted.active, hnone, if_neg htab]
  others q hq := sameFor_of_fileOf g hx.good (hx.fileOf_other g hd hq)

/--
**Reading after writing.**  In every state of a run that keeps off the tail, a write
that goes through stores its data under its path, a delete removes its path, and
neither touches another path.
-/
theorem read_after_write (h : Formattable s₀ d T) (hcov : T ≤ 4096 * bitmapSectors T)
    (hun : Unused (formatMount s₀ d))
    (run : Runs (fun s op => op.Short ∧ op.Tame s) (formatMount s₀ d) s) :
    (∀ p data buf, 1 ≤ p.chars.length → p.chars.length ≤ 31 → data.length < 2 ^ 31 →
      (∀ k, k < data.length → buf k = data.getD k 0) → TailSafe s (blocks_for data.length) →
      (eke_fs_write_file s (some p) (some buf) data.length).1 = 0 →
      WritePost s (eke_fs_write_file s (some p) (some buf) data.length).2 p data) ∧
    ∀ p, (eke_fs_delete_file s (some p)).1 = 0 →
      DeletePost s (eke_fs_delete_file s (some p)).2 p := by
  have hs₀ := sound_start h hcov hun
  have hnames : (volume (formatMount s₀ d) d).Distinct := by
    intro i j e f he
    rw [hun.slot] at he
    cases he
  have g := (sound_run (fun op => Op.Short.fits) hs₀ run).good
  have hd := distinct_run hs₀ hnames run
  refine ⟨fun p data buf _ hp hlen hbuf htail hok => ?_, fun p hok => ?_⟩
  · obtain ⟨i, r, hw⟩ := write_step g (by omega) htail hok
    exact hw.post g hd hp hlen hbuf
  · rcases delete_step g p with ⟨heq, -⟩ | ⟨-, i, hx⟩
    · rw [heq] at hok
      cases hok
    · exact hx.post g hd

theorem read_after_write_tame :
    WritePost tameState (eke_fs_write_file tameState (some pathA) (some forged) 3).2 pathA
      [0, 0, 0] := by
  obtain ⟨h, hun⟩ := tame_formattable
  obtain ⟨htail, hok⟩ := tame_step forged (n := 3) (by decide)
  exact (read_after_write h (by decide) hun Relation.ReflTransGen.refl).1 pathA [0, 0, 0] forged
    (by decide) (by decide) (by decide) (by decide) htail hok

/--
Without the condition a write of `a` changes what reading `b` returns: before it there
is no such file, after it there is.
-/
theorem read_after_write_needs_tail :
    Formattable (blank bootPages 16) 0 16 ∧ 16 ≤ 4096 * bitmapSectors 16 ∧ Unused freshState ∧
      (eke_fs_write_file freshState (some pathA) (some forged) 512).1 = 0 ∧ pathB ≠ pathA ∧
      reading freshState pathB forged 0 = (-1, some forged) ∧
      reading forgedState pathB forged 0 = (0, some forged) := by
  obtain ⟨h, hun⟩ := fresh_formattable
  have hs : Sound freshState 0 16 := sound_start h (by decide) hun
  obtain ⟨hok, hft, hactive, -⟩ := forged_write
  refine ⟨h, by decide, hun, hok, ?_, ?_, ?_⟩
  · intro hc
    have := congrArg CStr.chars hc
    exact absurd this (by decide)
  · simp only [reading, eke_fs_read_file, hs.good.mounted.active, (hun.find pathB).1,
      if_neg hs.good.mounted.buffers.table_ne]
  · obtain ⟨hused, hname, -⟩ := forged_slot
    have hfound : ∃ j, find_file forgedState pathB = some j := by
      refine Option.isSome_iff_exists.mp ?_
      unfold find_file
      rw [List.find?_isSome]
      exact ⟨61, by decide, by rw [hused, hname]; rfl⟩
    obtain ⟨j, hj⟩ := hfound
    simp only [reading, eke_fs_read_file, hactive, hj, if_neg hft, Nat.min_zero, if_true]

end Eke
