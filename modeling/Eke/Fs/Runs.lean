/-
Runs of the file system.

A run starts from a device that was just formatted and mounted and makes one call
after the other.  `Sound` is what holds in every state of a run: the invariant the
single calls keep, a name for each file, and a medium in step with the memory.  The
guard of a run says which calls it may make.  The two guards used later differ in one
thing only: `Op.Short` is about the arguments, `Op.Tame` also keeps the temporary
buffer off the tail of the file table, and only under the second does `Sound` survive.
-/
import Mathlib.Logic.Relation
import Eke.Fs.Files
import Eke.Fs.Mount

namespace Eke

/-! ### Calls -/

/-- A call that goes to the medium. -/
inductive Op
  | write (path : Option CStr) (buffer : Option Store) (bytes : Nat)
  | delete (path : Option CStr)
  | read (path : Option CStr) (buffer : Option Store) (max_bytes : Nat)

namespace Op

/-- The result of the call and the state after it. -/
def exec (s : Sys) : Op → Int × Sys
  | write path buffer bytes => eke_fs_write_file s path buffer bytes
  | delete path => eke_fs_delete_file s path
  | read path buffer max_bytes =>
    let r := eke_fs_read_file s path buffer max_bytes
    (r.1, r.2.2)

/-- Only a write has to succeed for the run to go on. -/
def MustSucceed : Op → Prop
  | write _ _ _ => True
  | _ => False

/-- The length of what is written fits `FileEntry.size`. -/
def Fits : Op → Prop
  | write _ _ bytes => bytes < 2 ^ 32
  | _ => True

/-- A path of 1 to 31 characters and fewer than 2^31 bytes. -/
def Short : Op → Prop
  | write path _ bytes =>
    (∀ p, path = some p → 1 ≤ p.chars.length ∧ p.chars.length ≤ 31) ∧ bytes < 2 ^ 31
  | _ => True

/-- The temporary buffer of the call, if it gets one, stays clear of the table's tail. -/
def Tame (s : Sys) : Op → Prop
  | write _ _ bytes => TailSafe s (blocks_for bytes)
  | delete _ => True
  | read path _ _ => ∀ p, path = some p → ReadTailSafe s p

theorem Short.fits {op : Op} (h : op.Short) : op.Fits := by
  cases op with
  | write path buffer bytes => exact Nat.lt_trans h.2 (by omega)
  | delete _ => trivial
  | read _ _ _ => trivial

end Op

/-- One call of a run. -/
inductive Step (guard : Sys → Op → Prop) (s : Sys) : Sys → Prop
  | call (op : Op) (allowed : guard s op) (ok : op.MustSucceed → (op.exec s).1 = 0) :
      Step guard s (op.exec s).2

/-- Any number of calls. -/
abbrev Runs (guard : Sys → Op → Prop) : Sys → Sys → Prop := Relation.ReflTransGen (Step guard)

/-! ### What a run keeps -/

/-- The state between two calls. -/
structure Sound (s : Sys) (d T : Nat) : Prop where
  good : Good s d T
  synced : Synced s d T

variable {s s' s₀ : Sys} {d T i r bytes m : Nat} {p q : CStr} {buf : Store}

theorem Kept.synced (h : Kept s s' d T) (hs : Synced s d T) : Synced s' d T where
  super := by
    rw [h.sectors]
    exact hs.super
  table := fun k hk => by
    have htb : 8 * SECTOR_SIZE ≤ tableBytes := by decide
    rw [h.sectors, h.table, hs.table k hk, h.bytes _ (Or.inr ⟨by omega, by omega⟩)]
  bits := fun b hlo hhi => by
    rw [h.sectors, hs.bits b hlo hhi, h.bitmap]
    refine Store.bit_congr (h.bytes _ (Or.inl ?_)).symm
    have := bit_byte h.good.mounted.covered hhi
    omega

/--
What a call of a run can do.  Every call that fits and keeps off the tail is a write
that went through, a delete that found its file, or leaves the files as they are.
-/
theorem step_cases (g : Good s d T) {K : Op → Prop} (hK : ∀ op, K op → op.Fits)
    (step : Step (fun s op => K op ∧ op.Tame s) s s') :
    (∃ p buf bytes i r, K (.write (some p) (some buf) bytes) ∧ Written s s' d T i r p buf bytes) ∨
      (∃ p i, Deleted s s' d T i p) ∨ Kept s s' d T := by
  obtain ⟨op, ⟨hop, htame⟩, ok⟩ := step
  cases op with
  | write path buffer bytes =>
      have hok : (eke_fs_write_file s path buffer bytes).1 = 0 := ok trivial
      cases path with
      | none =>
          simp only [eke_fs_write_file, g.mounted.active] at hok
          cases hok
      | some p =>
          cases buffer with
          | none =>
              simp only [eke_fs_write_file, g.mounted.active] at hok
              cases hok
          | some buf =>
              obtain ⟨i, r, hw⟩ := write_step g (hK _ hop) htame hok
              exact Or.inl ⟨p, buf, bytes, i, r, hop, hw⟩
  | delete path =>
      cases path with
      | none =>
          have : (Op.exec s (.delete none)).2 = s := by
            simp only [Op.exec, eke_fs_delete_file, g.mounted.active]
          rw [this]
          exact Or.inr (Or.inr (Kept.refl g))
      | some p =>
          rcases delete_step g p with ⟨heq, -⟩ | ⟨-, i, hd⟩
          · rw [show (Op.exec s (.delete (some p))).2 = s by simp only [Op.exec, heq]]
            exact Or.inr (Or.inr (Kept.refl g))
          · exact Or.inr (Or.inl ⟨p, i, hd⟩)
  | read path buffer m =>
      cases path with
      | none =>
          have : (Op.exec s (.read none buffer m)).2 = s := by
            simp only [Op.exec, eke_fs_read_file, g.mounted.active]
          rw [this]
          exact Or.inr (Or.inr (Kept.refl g))
      | some p =>
          cases buffer with
          | none =>
              have : (Op.exec s (.read (some p) none m)).2 = s := by
                simp only [Op.exec, eke_fs_read_file, g.mounted.active]
              rw [this]
              exact Or.inr (Or.inr (Kept.refl g))
          | some buf => exact Or.inr (Or.inr (read_step g (htame p rfl) buf m))

/-- **Step.**  A call that fits and keeps off the tail leaves the state sound. -/
theorem sound_step {K : Op → Prop} (hK : ∀ op, K op → op.Fits) (hs : Sound s d T)
    (step : Step (fun s op => K op ∧ op.Tame s) s s') : Sound s' d T := by
  rcases step_cases hs.good hK step with ⟨p, buf, bytes, i, r, -, hw⟩ | ⟨p, i, hd⟩ | hk
  · exact ⟨hw.good, hw.synced hs.synced.super⟩
  · exact ⟨hd.good, hd.synced hs.synced.super⟩
  · exact ⟨hk.good, hk.synced hs.synced⟩

/-- **Run.** -/
theorem sound_run {K : Op → Prop} (hK : ∀ op, K op → op.Fits) (hs : Sound s d T)
    (run : Runs (fun s op => K op ∧ op.Tame s) s s') : Sound s' d T := by
  induction run with
  | refl => exact hs
  | tail _ step ih => exact sound_step hK ih step

/-! ### Names -/

/-- The name a short path leaves in its slot is the path. -/
theorem take_short (h : p.chars.length ≤ 31) : p.chars.take 31 = p.chars :=
  List.take_of_length_le h

theorem Written.distinct (hw : Written s s' d T i r p buf bytes) (hn : Named s)
    (hp : p.chars.length ≤ 31) (h : (volume s d).Distinct) : (volume s' d).Distinct := by
  refine h.insert (i := i) (e := newEntry p bytes r) (fun j f hj hf => ?_) hw.slots
  show f.name ≠ p.chars.take 31
  rw [take_short hp]
  rcases hw.target with hfound | ⟨hnone, -⟩
  · obtain ⟨⟨e, he, hname⟩, -⟩ := (find_file_some hn).mp hfound
    intro hc
    exact hj (h j i f e hf he (hc.trans hname.symm))
  · exact (find_file_none hn).mp hnone j f hf

theorem distinct_step (g : Good s d T) (h : (volume s d).Distinct)
    (step : Step (fun s op => op.Short ∧ op.Tame s) s s') : (volume s' d).Distinct := by
  rcases step_cases g (fun op => Op.Short.fits) step with
    ⟨p, buf, bytes, i, r, hshort, hw⟩ | ⟨p, i, hd⟩ | hk
  · exact hw.distinct g.named (hshort.1 p rfl).2 h
  · exact h.erase hd.slots
  · intro j k f e hj hk' hfe
    rw [hk.slots] at hj hk'
    exact h j k f e hj hk' hfe

theorem distinct_run (hs : Sound s d T) (h : (volume s d).Distinct)
    (run : Runs (fun s op => op.Short ∧ op.Tame s) s s') : (volume s' d).Distinct := by
  induction run with
  | refl => exact h
  | tail run step ih => exact distinct_step (sound_run (fun op => Op.Short.fits) hs run).good ih step

/-! ### The start of a run -/

/-- Format the device and mount it. -/
def formatMount (s : Sys) (d : Nat) : Sys := (eke_fs_mount (eke_fs_format s (some d)).2 (some d)).2

/-- The mount allocates both buffers, and the page allocator has the pages. -/
def FirstMount (s s' : Sys) : Prop :=
  (s.bitmap_buf = 0 ∧ s.file_table = 0) ∧ s'.bitmap_buf ≠ 0 ∧ s'.file_table ≠ 0

/-- A device that can be formatted and mounted. -/
structure Formattable (s : Sys) (d T : Nat) : Prop where
  api : s.g_api = true
  reliable : (s.disks d).Reliable
  total : (s.disks d).total_sectors = T
  /-- The buffers are new, or those of an earlier mount and large enough. -/
  buffers : FirstMount s (formatMount s d) ∧ bitmapSectors T < 2 ^ 32 ∨
    Buffers (formatMount s d) (SECTOR_SIZE * bitmapSectors T) ∧ bitmapSectors T ≤ 2 ^ 23

/-- All slots of the file table are unused. -/
def Unused (s : Sys) : Prop := ∀ i, i < MAX_FILES → FileEntry.used s.mem (s.entry i) = false

theorem Unused.slot (h : Unused s) (i : Nat) : (volume s d).slot i = none := by
  by_cases hi : i < MAX_FILES
  · have := h i hi
    rw [Sys.entry, slotAt_used hi] at this
    simpa [volume] using this
  · exact slotAt_ge (by omega)

/-- The slots that end behind the table's page are unused. -/
def TailUnused (m : Store) (ft : Nat) : Prop :=
  ∀ i, 60 ≤ i → i < MAX_FILES → FileEntry.used m (ft + FileEntrySize * i) = false

/-- A volume with no entries obeys the law when the metadata blocks are the marked ones. -/
theorem empty_extents {v : Volume} {lo hi : Nat} (hs : ∀ i, v.slot i = none)
    (hb : ∀ b, b < hi → v.bit b = decide (b < lo)) (hf : v.free = v.clear hi) :
    v.Extents lo hi := by
  refine Volume.Extents.of_bit_iff ?_ ?_ ?_ hf
  · intro i e he
    rw [hs] at he
    cases he
  · intro i j e f he
    rw [hs] at he
    cases he
  · intro b hb'
    rw [hb b hb', decide_eq_true_eq]
    refine ⟨Or.inl, ?_⟩
    rintro (h | ⟨i, e, he, -⟩)
    · exact h
    · rw [hs] at he
      cases he

theorem Formattable.lt_2_32 (h : Formattable s₀ d T) : bitmapSectors T < 2 ^ 32 := by
  rcases h.buffers with ⟨-, h32⟩ | ⟨-, h23⟩
  · exact h32
  · omega

theorem formatted_disk (h : Formattable s₀ d T) :
    ((eke_fs_format s₀ (some d)).2.disks d).sectors = formatted T (s₀.disks d).sectors := by
  rw [format_disk h.reliable h.total]
  simp [Sys.setDisk]

theorem formatMount_from (h : Formattable s₀ d T) (hcov : T ≤ 4096 * bitmapSectors T) :
    MountedFrom (eke_fs_format s₀ (some d)).2 (formatMount s₀ d) d T := by
  have hT : T < 2 ^ 63 := by
    have := h.lt_2_32
    omega
  have hfmt := format_disk h.reliable h.total
  have hrel : ((eke_fs_format s₀ (some d)).2.disks d).Reliable := by
    intro n
    rw [hfmt]
    simp only [Sys.setDisk, if_true]
    exact h.reliable n
  have hsuper : Superblock.load ((eke_fs_format s₀ (some d)).2.disks d).sectors 0
      = Superblock.forDevice T := by
    rw [formatted_disk h]
    exact formatted_super (by omega)
  have hapi : (eke_fs_format s₀ (some d)).2.g_api = true := by
    rw [hfmt]
    exact h.api
  rcases h.buffers with ⟨⟨⟨hb0, hf0⟩, hb, hf⟩, h32⟩ | ⟨hbuf, hsmall⟩
  · obtain ⟨hbuf, hsmall⟩ := fresh_buffers hrel hsuper hapi (by rw [hfmt]; exact hb0)
      (by rw [hfmt]; exact hf0) h32 hb hf
    exact (mount_spec hapi hrel hsuper hcov hsmall hbuf).2
  · exact (mount_spec hapi hrel hsuper hcov hsmall hbuf).2

/-- After a format the first 60 slots are unused whatever was in memory. -/
theorem unused_of_tail (h : Formattable s₀ d T) (hcov : T ≤ 4096 * bitmapSectors T)
    (htail : TailUnused (formatMount s₀ d).mem (formatMount s₀ d).file_table) :
    Unused (formatMount s₀ d) := by
  intro i hi
  by_cases hk : i < 60
  · have hm := formatMount_from h hcov
    unfold FileEntry.used
    rw [bne_eq_false_iff_eq, Sys.entry, Nat.add_assoc,
      hm.table _ (by unfold FileEntrySize SECTOR_SIZE; omega), formatted_disk h]
    exact formatted_zero (by unfold SECTOR_SIZE; omega)
      (by rw [dataStart_eq]; unfold SECTOR_SIZE FileEntrySize at *; omega)
  · exact htail i (by omega) hi

/-- **Start.**  A freshly formatted and mounted device with an unused file table is sound. -/
theorem sound_start (h : Formattable s₀ d T) (hcov : T ≤ 4096 * bitmapSectors T)
    (hun : Unused (formatMount s₀ d)) : Sound (formatMount s₀ d) d T := by
  have hm := formatMount_from h hcov
  have h32 := h.lt_2_32
  have hsec : ((formatMount s₀ d).disks d).sectors = formatted T (s₀.disks d).sectors := by
    rw [hm.sectors, formatted_disk h]
  have hzero : ∀ b, b < T →
      ((formatMount s₀ d).disks d).sectors.bit SECTOR_SIZE b = false := by
    intro b hb
    have := bit_byte hcov hb
    rw [hsec]
    unfold Store.bit
    rw [formatted_zero (by omega) (by rw [dataStart_eq, Nat.mul_add]; omega)]
    simp
  have hbits : ∀ b, b < T →
      (formatMount s₀ d).mem.bit (formatMount s₀ d).bitmap_buf b = decide (b < dataStart T) := by
    intro b hb
    have hz := hzero b hb
    rw [hm.bits b hb]
    rw [hm.sectors] at hz
    rw [hz, Bool.or_false]
  refine ⟨⟨hm.mounted, ?_, ?_, ?_⟩, ⟨?_, ?_, ?_⟩⟩
  · refine empty_extents hun.slot (fun b hb => ?_) ((volume_clear hm.mounted.blocks).mpr hm.free)
    rw [← hbits b hb, ← hm.mounted.bitmap]
    rfl
  · intro i e he
    rw [hun.slot] at he
    cases he
  · intro i e he
    rw [hun.slot] at he
    cases he
  · rw [hsec]
    exact formatted_super (by omega)
  · intro k hk
    rw [hm.table k hk, hm.sectors]
  · intro b hlo hhi
    rw [hzero b hhi, hbits b hhi]
    simpa using hlo

end Eke
