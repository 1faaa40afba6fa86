/-
After a reboot.

What survives is the medium.  In a sound state it holds the superblock, the first 4096
bytes of the file table and the bits of the data blocks, so a mount brings back every
slot below 60 and every bit the bit map's sectors have room for.  Slots 60 to 63 lie in
the last 256 bytes of the table, which neither the flush nor the mount transfers, and
a device whose sector count is 1 to 7 over a multiple of 4096 has blocks without a bit
on the medium; the two conditions of this file are these two limits.
-/
import Eke.Fs.Contract

namespace Eke

variable {s s' s₀ b : Sys} {d T i : Nat} {p : CStr} {buf : Store}

/-- The state in which device `d` is mounted again, its medium as `s` left it. -/
structure Rebooted (s b : Sys) (d T : Nat) : Prop where
  medium : (b.disks d).sectors = (s.disks d).sectors
  api : b.g_api = true
  reliable : (b.disks d).Reliable
  /-- The buffers are new, or those of another device's mount and large enough. -/
  buffers : FirstMount b (eke_fs_mount b (some d)).2 ∨
    Buffers (eke_fs_mount b (some d)).2 (SECTOR_SIZE * bitmapSectors T)

/-- The state after the mount. -/
def remount (b : Sys) (d : Nat) : Sys := (eke_fs_mount b (some d)).2

theorem remount_from (hs : Sound s d T) (h : Rebooted s b d T) :
    (eke_fs_mount b (some d)).1 = 0 ∧ MountedFrom b (remount b d) d T := by
  have hm := hs.good.mounted
  have hsuper : Superblock.load (b.disks d).sectors 0 = Superblock.forDevice T := by
    rw [h.medium]
    exact hs.synced.super
  have hsmall := hm.small
  rcases h.buffers with ⟨⟨hb0, hf0⟩, hb, hf⟩ | hbuf
  · exact mount_spec h.api h.reliable hsuper hm.covered hsmall
      (fresh_buffers h.reliable hsuper h.api hb0 hf0 (by omega) hb hf).1
  · exact mount_spec h.api h.reliable hsuper hm.covered hsmall hbuf

/-- The bits after the mount of any device, also one whose bit map is too short. -/
theorem remount_bit (hrel : (b.disks d).Reliable)
    (hsuper : Superblock.load (b.disks d).sectors 0 = Superblock.forDevice T)
    (h32 : bitmapSectors T < 2 ^ 32) (hbm : (remount b d).bitmap_buf ≠ 0) {k : Nat} (hk : k < T)
    (hout : (remount b d).bitmap_buf + k / 8 < (remount b d).file_table) :
    (remount b d).mem.bit (remount b d).bitmap_buf k =
      (decide (k < dataStart T) ||
        if k < 4096 * bitmapSectors T then (b.disks d).sectors.bit SECTOR_SIZE k
        else b.mem.bit (remount b d).bitmap_buf k) :=
  mount_bit hrel hsuper h32 hbm hk (Or.inl hout)

/-! ### The bit map -/

/-- In a sound state the metadata blocks are marked. -/
theorem Good.metadata (g : Good s d T) {k : Nat} (hk : k < dataStart T) (hT : k < T) :
    (volume s d).bit k = true := (g.inv.bit_iff hT).mpr (Or.inl hk)

theorem volume_bit (hm : Mounted s d T) (k : Nat) :
    (volume s d).bit k = s.mem.bit s.bitmap_buf k := by
  rw [← hm.bitmap]
  rfl

theorem remount_bits (hs : Sound s d T) (h : Rebooted s b d T) {k : Nat} (hk : k < T) :
    (volume (remount b d) d).bit k = (volume s d).bit k := by
  have hm := (remount_from hs h).2
  rw [volume_bit hm.mounted, hm.bits k hk, h.medium]
  by_cases hlow : k < dataStart T
  · rw [hs.good.metadata hlow hk, decide_eq_true hlow, Bool.true_or]
  · rw [hs.synced.bits k (by omega) hk, volume_bit hs.good.mounted, decide_eq_false hlow,
      Bool.false_or]

theorem remount_free (hs : Sound s d T) (h : Rebooted s b d T) :
    (volume (remount b d) d).free = (volume s d).free := by
  have hm := (remount_from hs h).2
  have hfree := (volume_clear hm.mounted.blocks).mpr hm.free
  rw [hfree, hs.good.inv.free]
  exact Volume.clear_congr fun k hk => remount_bits hs h hk

/-! ### The file table -/

theorem slotAt_unused {m : Store} {ft : Nat} (h : FileEntry.used m (ft + FileEntrySize * i) = false) :
    slotAt m ft i = none := by
  unfold slotAt
  rw [h]
  simp

/-- Slots of two tables whose bytes agree, wherever the tables are. -/
theorem slotAt_move {m m' : Store} {ft ft' : Nat}
    (h : ∀ k, k < FileEntrySize * i + 45 → m (ft + k) = m' (ft' + k)) :
    slotAt m ft i = slotAt m' ft' i := by
  have hle : ∀ k, k ≤ 41 → m.le (ft + FileEntrySize * i + k) 4 = m'.le (ft' + FileEntrySize * i + k) 4 := by
    intro k hk
    refine Store.le_congr_at fun j hj => ?_
    rw [Nat.add_assoc, Nat.add_assoc, Nat.add_assoc, Nat.add_assoc]
    exact h _ (by omega)
  have hname : ∀ n k, k + n ≤ 45 → cstr m (ft + FileEntrySize * i + k) n =
      cstr m' (ft' + FileEntrySize * i + k) n := by
    intro n
    induction n with
    | zero => intro k _; rfl
    | succ n ih =>
        intro k hk
        have hb := h (FileEntrySize * i + k) (by omega)
        have ih := ih (k + 1) (by omega)
        rw [← Nat.add_assoc, ← Nat.add_assoc] at hb ih
        simp only [cstr, hb, ih]
  have hused := h (FileEntrySize * i + 44) (by omega)
  have hn := hname 32 0 (by omega)
  rw [← Nat.add_assoc, ← Nat.add_assoc] at hused
  simp only [Nat.add_zero] at hn
  unfold slotAt FileEntry.used FileEntry.size FileEntry.start_block FileEntry.block_count
  rw [hused, hn, hle 32 (by omega), hle 36 (by omega), hle 40 (by omega)]

/-- **The slots survive**, the tail being empty before and after. -/
theorem remount_slots (hs : Sound s d T) (h : Rebooted s b d T) (htail : TailUnused s.mem s.file_table)
    (htail' : TailUnused b.mem (remount b d).file_table) (i : Nat) :
    (volume (remount b d) d).slot i = (volume s d).slot i := by
  have hm := (remount_from hs h).2
  by_cases hi : i < 60
  · refine slotAt_move fun k hk => ?_
    have hk : k < 8 * SECTOR_SIZE := by
      unfold FileEntrySize SECTOR_SIZE at *
      omega
    rw [hm.table k hk, h.medium, hs.synced.table k hk]
  · by_cases hi' : i < MAX_FILES
    · have hk : FileEntrySize * i + 44 < tableBytes := by
        unfold tableBytes FileEntrySize MAX_FILES at *
        omega
      have hbyte := hm.tail (FileEntrySize * i + 44) (by unfold FileEntrySize SECTOR_SIZE; omega) hk
      have hused : FileEntry.used (remount b d).mem
          ((remount b d).file_table + FileEntrySize * i) = false := by
        have := htail' i (by omega) hi'
        unfold FileEntry.used at this ⊢
        rw [Nat.add_assoc] at this ⊢
        rw [hbyte]
        exact this
      exact (slotAt_unused hused).trans (slotAt_unused (htail i (by omega) hi')).symm
    · exact (slotAt_ge (by omega)).trans (slotAt_ge (by omega)).symm

/-- The state after the remount is as good as before the reboot. -/
theorem remount_good (hs : Sound s d T) (h : Rebooted s b d T) (htail : TailUnused s.mem s.file_table)
    (htail' : TailUnused b.mem (remount b d).file_table) : Good (remount b d) d T := by
  have hslots := remount_slots hs h htail htail'
  refine ⟨(remount_from hs h).2.mounted, inv_congr hslots (fun k hk => remount_bits hs h hk)
    (remount_free hs h) hs.good.inv, fun i e he => ?_, fun i e he => ?_⟩
  · rw [hslots] at he
    exact hs.good.short i e he
  · rw [hslots] at he
    exact hs.good.counts i e he

/-- States with the same slots find the same slot for a path. -/
theorem find_file_congr (hn : Named s) (hn' : Named s')
    (h : ∀ i, slotAt s'.mem s'.file_table i = slotAt s.mem s.file_table i) :
    find_file s' p = find_file s p := by
  cases hf : find_file s p with
  | none =>
      refine (find_file_none hn').mpr fun i e he => ?_
      rw [h] at he
      exact (find_file_none hn).mp hf i e he
  | some i =>
      obtain ⟨hmatch, hfirst⟩ := (find_file_some hn).mp hf
      refine (find_file_some hn').mpr ⟨?_, fun j e hj he => ?_⟩
      · rw [h]
        exact hmatch
      · rw [h] at he
        exact hfirst j e hj he

/-- The file under a path, when slots and medium are the same. -/
theorem fileOf_congr (hn : Named s) (hn' : Named s')
    (h : ∀ i, slotAt s'.mem s'.file_table i = slotAt s.mem s.file_table i)
    (hsec : (s'.disks d).sectors = (s.disks d).sectors) : fileOf s' d p = fileOf s d p := by
  have hfind := find_file_congr (p := p) hn hn' h
  cases hf : find_file s p with
  | none =>
      unfold fileOf
      rw [hfind, hf]
      rfl
  | some i =>
      obtain ⟨⟨e, he, -⟩, -⟩ := (find_file_some hn).mp hf
      rw [fileOf_found hf he, fileOf_found (hfind.trans hf) ((h i).trans he), hsec]

/-- The list of files is read off the slots. -/
theorem list_files_eq (hft : s.file_table ≠ 0) :
    eke_fs_list_files s = (List.range MAX_FILES).filterMap fun i =>
      (slotAt s.mem s.file_table i).map fun e => (e.name, e.size) := by
  unfold eke_fs_list_files
  rw [if_neg hft, ← List.filterMap_eq_map, List.filterMap_filter]
  refine List.filterMap_congr fun i hi => ?_
  rw [Sys.entry, slotAt_used (List.mem_range.mp hi)]
  cases he : slotAt s.mem s.file_table i with
  | none => rfl
  | some e =>
      obtain ⟨hname, hsize, -, -⟩ := slotAt_some he
      simp [Sys.entry, hname, hsize]

/-! ### The two laws -/

/--
**The file table survives a remount** when slots 60 to 63 are unused before the reboot
and in the memory the table is mounted to.
-/
theorem table_survives (h : Formattable s₀ d T) (hcov : T ≤ 4096 * bitmapSectors T)
    (hnew : TailUnused (formatMount s₀ d).mem (formatMount s₀ d).file_table)
    (run : Runs (fun s op => op.Fits ∧ op.Tame s) (formatMount s₀ d) s)
    (boot : Rebooted s b d T) (htail : TailUnused s.mem s.file_table)
    (htail' : TailUnused b.mem (remount b d).file_table) :
    (eke_fs_mount b (some d)).1 = 0 ∧ eke_fs_list_files (remount b d) = eke_fs_list_files s ∧
      ∀ p, SameFor s (remount b d) p := by
  have hs := sound_run (fun _ h => h) (sound_start h hcov (unused_of_tail h hcov hnew)) run
  have g' := remount_good hs boot htail htail'
  have hslots := remount_slots hs boot htail htail'
  obtain ⟨hok, hm⟩ := remount_from hs boot
  refine ⟨hok, ?_, fun p => sameFor_of_fileOf hs.good g' ?_⟩
  · rw [list_files_eq g'.mounted.buffers.table_ne, list_files_eq hs.good.mounted.buffers.table_ne]
    exact List.filterMap_congr fun i _ => congrArg (Option.map _) (hslots i)
  · exact fileOf_congr hs.good.named g'.named hslots (hm.sectors.trans boot.medium)

/-- The machine after a power cycle, with `v` in every byte of memory. -/
def powerCycle (s : Sys) (v : Byte) : Sys :=
  { s with
    mem := fun _ => v
    pmm := bootPages
    active_dev := none
    file_table := 0
    bitmap_buf := 0 }

@[simp] theorem powerCycle_disks (s : Sys) (v : Byte) : (powerCycle s v).disks = s.disks := rfl

@[simp] theorem powerCycle_bit (s : Sys) (v : Byte) (a k : Nat) :
    (powerCycle s v).mem.bit a k = v.getLsbD (k % 8) := rfl

/-- The buffers of the first mount after a power cycle. -/
theorem powerCycle_buffers (hapi : s.g_api = true) (hrel : (s.disks d).Reliable)
    (hsuper : Superblock.load (s.disks d).sectors 0 = Superblock.forDevice T)
    (hone : bitmapSectors T = 1) (v : Byte) :
    (remount (powerCycle s v) d).bitmap_buf = 512 * 4096 ∧
      (remount (powerCycle s v) d).file_table = 513 * 4096 := by
  obtain ⟨hb, hf, -⟩ := mount_allocs (s := powerCycle s v) (d := d) hrel hsuper hapi rfl rfl
  rw [hone] at hb hf
  refine ⟨hb.trans ?_, hf.trans ?_⟩
  · show (bootPages.alloc_page (toInt (pages_of 1))).1 = _
    decide
  · show ((bootPages.alloc_page (toInt (pages_of 1))).2.alloc_page (toInt (pages_of 8))).1 = _
    decide

theorem powerCycle_rebooted (hs : Sound s d T) (hone : bitmapSectors T = 1) (v : Byte) :
    Rebooted s (powerCycle s v) d T where
  medium := rfl
  api := hs.good.mounted.api
  reliable := hs.good.mounted.reliable
  buffers := by
    obtain ⟨hb, hf⟩ := powerCycle_buffers hs.good.mounted.api hs.good.mounted.reliable
      hs.synced.super hone v
    refine Or.inl ⟨⟨rfl, rfl⟩, ?_, ?_⟩
    · rw [show (eke_fs_mount (powerCycle s v) (some d)).2.bitmap_buf = _ from hb]
      decide
    · rw [show (eke_fs_mount (powerCycle s v) (some d)).2.file_table = _ from hf]
      decide

/-- The state after the first write on the tame machine. -/
def tameWritten : Sys := (tameWrite.exec tameState).2

theorem tameWritten_run : Runs (fun s op => op.Fits ∧ op.Tame s) tameState tameWritten := by
  obtain ⟨htail, hok⟩ := tame_step forged (n := 512) (by decide)
  exact Relation.ReflTransGen.single (Step.call tameWrite ⟨by show 512 < 2 ^ 32; decide, htail⟩ fun _ => hok)

/-- It wrote slot 0 and left the others unused. -/
theorem tameWritten_tail : TailUnused tameWritten.mem tameWritten.file_table := by
  obtain ⟨h, hun⟩ := tame_formattable
  have hs : Sound tameState 0 16 := sound_start h (by decide) hun
  obtain ⟨htail, hok⟩ := tame_step forged (n := 512) (by decide)
  obtain ⟨i, r, hw⟩ := write_step hs.good (by decide) htail hok
  have hi : some 0 = some i := by
    rw [← hw.chosen]
    unfold write_target
    rw [(hun.find pathA).1, (hun.find pathA).2]
  obtain rfl := Option.some.inj hi
  intro j hlo hj
  rw [slotAt_used hj]
  have := hw.slots j
  rw [if_neg (by omega), hun.slot] at this
  rw [show slotAt tameWritten.mem tameWritten.file_table j = none from this]
  rfl

theorem table_survives_tame :
    eke_fs_list_files (remount (powerCycle tameWritten 0) 0) = eke_fs_list_files tameWritten := by
  obtain ⟨h, hun⟩ := tame_formattable
  have hs := sound_run (fun _ h => h) (sound_start h (by decide) hun) tameWritten_run
  exact (table_survives h (by decide) (blank_tail h (by decide)) tameWritten_run
    (powerCycle_rebooted hs (by decide) 0) tameWritten_tail fun i _ _ => rfl).2.1

/--
Without the conditions the table does not survive: nothing was ever written, and after
a power cycle with ones in memory slot 63 is a file.
-/
theorem table_survives_needs_tail :
    Formattable (blank bootPages 16) 0 16 ∧ 16 ≤ 4096 * bitmapSectors 16 ∧ Unused freshState ∧
      Rebooted freshState (powerCycle freshState 1) 0 16 ∧ eke_fs_list_files freshState = [] ∧
      eke_fs_list_files (remount (powerCycle freshState 1) 0) ≠ [] := by
  obtain ⟨h, hun⟩ := fresh_formattable
  have hs : Sound freshState 0 16 := sound_start h (by decide) hun
  have hboot := powerCycle_rebooted hs (by decide) 1
  have hm := (remount_from hs hboot).2
  refine ⟨h, by decide, hun, hboot, ?_, fun hc => ?_⟩
  · rw [list_files_eq hs.good.mounted.buffers.table_ne, List.filterMap_eq_nil_iff]
    intro i _
    rw [show slotAt freshState.mem freshState.file_table i = none from hun.slot (d := 0) i]
    rfl
  · rw [list_files_eq hm.mounted.buffers.table_ne, List.filterMap_eq_nil_iff] at hc
    have hnone := hc 63 (by decide)
    have hused := hm.tail (FileEntrySize * 63 + 44) (by decide) (by decide)
    rw [Option.map_eq_none_iff] at hnone
    have : FileEntry.used (remount (powerCycle freshState 1) 0).mem
        ((remount (powerCycle freshState 1) 0).file_table + FileEntrySize * 63) = false := by
      rw [slotAt_used (by decide), hnone]
      rfl
    unfold FileEntry.used at this
    rw [Nat.add_assoc, hused] at this
    exact absurd this (by decide)

/-- The sector counts whose bit map has a bit for every block. -/
theorem covered_iff : T ≤ 4096 * bitmapSectors T ↔ T % 4096 = 0 ∨ 8 ≤ T % 4096 := by
  show T ≤ 4096 * ((T / 8 + 512 - 1) / 512) ↔ _
  omega

/--
**The bit map survives a remount** unless the device has 1 to 7 sectors more than a
multiple of 4096.
-/
theorem bitmap_survives (h : Formattable s₀ d T) (hT : T % 4096 = 0 ∨ 8 ≤ T % 4096)
    (hnew : TailUnused (formatMount s₀ d).mem (formatMount s₀ d).file_table)
    (run : Runs (fun s op => op.Fits ∧ op.Tame s) (formatMount s₀ d) s)
    (boot : Rebooted s b d T) :
    (∀ k, k < T → (volume (remount b d) d).bit k = (volume s d).bit k) ∧
      (volume (remount b d) d).free = (volume s d).free ∧ T ≤ 4096 * bitmapSectors T := by
  have hcov := covered_iff.mpr hT
  have hs := sound_run (fun _ h => h) (sound_start h hcov (unused_of_tail h hcov hnew)) run
  exact ⟨fun k hk => remount_bits hs boot hk, remount_free hs boot, hcov⟩

theorem bitmap_survives_tame :
    (∀ k, k < 16 → (volume (remount (powerCycle tameWritten 1) 0) 0).bit k = (volume tameWritten 0).bit k) ∧
      (volume (remount (powerCycle tameWritten 1) 0) 0).free = (volume tameWritten 0).free := by
  obtain ⟨h, hun⟩ := tame_formattable
  have hs := sound_run (fun _ h => h) (sound_start h (by decide) hun) tameWritten_run
  obtain ⟨hbits, hfree, -⟩ := bitmap_survives h (by decide) (blank_tail h (by decide)) tameWritten_run
    (powerCycle_rebooted hs (by decide) 1)
  exact ⟨hbits, hfree⟩

/-- A device with one sector more than a multiple of 4096, formatted and mounted. -/
def oddState : Sys := formatMount (blank bootPages 4097) 0

theorem odd_formattable : Formattable (blank bootPages 4097) 0 4097 :=
  blank_formattable (by decide) (by decide) (by decide)

theorem odd_mounted : oddState.bitmap_buf = 512 * 4096 ∧ oddState.file_table = 513 * 4096 := by
  obtain ⟨hb, hf, -⟩ := blank_buffers bootPages (T := 4097) (by decide)
  exact ⟨hb.trans (by decide), hf.trans (by decide)⟩

/-- What the first mount of the device leaves behind, on the medium and for its last block. -/
theorem odd_first :
    Superblock.load (oddState.disks 0).sectors 0 = Superblock.forDevice 4097 ∧
      (oddState.disks 0).Reliable ∧ oddState.g_api = true ∧
      oddState.mem.bit oddState.bitmap_buf 4096 = false := by
  have h := odd_formattable
  have hfmt := format_disk h.reliable h.total
  have hrel : ((eke_fs_format (blank bootPages 4097) (some 0)).2.disks 0).Reliable := by
    intro n
    rw [hfmt]
    rfl
  have hsuper : Superblock.load ((eke_fs_format (blank bootPages 4097) (some 0)).2.disks 0).sectors 0
      = Superblock.forDevice 4097 := by
    rw [formatted_disk h]
    exact formatted_super (by decide)
  obtain ⟨hbm, hft⟩ := odd_mounted
  have hne : oddState.bitmap_buf ≠ 0 := by
    rw [hbm]
    decide
  obtain ⟨hsec, hio, hapi⟩ := mount_medium hrel hsuper (by decide) hne
  have hbit := mount_bit hrel hsuper (by decide) hne (k := 4096) (by decide) (by
    rw [show (eke_fs_mount _ _).2.bitmap_buf = _ from hbm, show (eke_fs_mount _ _).2.file_table = _ from hft]
    decide)
  refine ⟨?_, ?_, ?_, hbit.trans ?_⟩
  · rw [show (oddState.disks 0).sectors = _ from hsec]
    exact hsuper
  · intro n
    rw [show (oddState.disks 0).io = _ from hio]
    exact hrel n
  · rw [show oddState.g_api = _ from hapi, hfmt]
    rfl
  · rw [if_neg (by decide), hfmt]
    unfold Store.bit
    decide

/--
On such a device the last block has no bit on the medium: it is free when the device is
first mounted and used when it is mounted after a power cycle with ones in memory.
-/
theorem bitmap_survives_needs_room :
    Formattable (blank bootPages 4097) 0 4097 ∧
      (powerCycle oddState 1).disks 0 = oddState.disks 0 ∧
      FirstMount (powerCycle oddState 1) (remount (powerCycle oddState 1) 0) ∧
      oddState.mem.bit oddState.bitmap_buf 4096 = false ∧
      (remount (powerCycle oddState 1) 0).mem.bit (remount (powerCycle oddState 1) 0).bitmap_buf 4096
        = true := by
  obtain ⟨hsuper, hrel, hapi, hfirst⟩ := odd_first
  obtain ⟨hbm, hft⟩ := powerCycle_buffers hapi hrel hsuper (by decide) 1
  have hne : (remount (powerCycle oddState 1) 0).bitmap_buf ≠ 0 := by
    rw [hbm]
    decide
  refine ⟨odd_formattable, by rw [powerCycle_disks], ⟨⟨rfl, rfl⟩, hne, ?_⟩, hfirst, ?_⟩
  · rw [hft]
    decide
  · rw [← powerCycle_disks oddState 1] at hrel hsuper
    refine (remount_bit hrel hsuper (by decide) hne (by decide) ?_).trans ?_
    · rw [hbm, hft]
      decide
    · rw [if_neg (by decide), powerCycle_bit]
      decide

end Eke
