/-
The sector operations a call issues.

Every device counts its sector operations, so what a call issued is what lies between the count
before it and the count after it.  Of all of them the file system looks at the result of one only,
the first read of a mount.
-/
import Eke.Fs.PageUse
import Eke.Fs.Mounting

namespace Eke

/-- A call of the file system. -/
inductive Request
  | mount (dev : Option Nat)
  | format (dev : Option Nat)
  | file (op : Op)

namespace Request

/-- The result of the call and the state after it. -/
def exec (s : Sys) : Request → Int × Sys
  | mount dev => eke_fs_mount s dev
  | format dev => eke_fs_format s dev
  | file op => op.exec s

def next (s : Sys) (r : Request) : Sys := (r.exec s).2

end Request

variable {s s₁ s₂ s' : Sys} {d n m : Nat}

/-! ### Counting -/

/-- Between two states, `n` operations of device `d` and none of another. -/
structure Issues (s s' : Sys) (d n : Nat) : Prop where
  others : ∀ e, e ≠ d → s'.disks e = s.disks e
  io : (s'.disks d).io = (s.disks d).io
  ops : (s'.disks d).ops = (s.disks d).ops + n

theorem Issues.of_disks (h : s'.disks = s.disks) (d : Nat) : Issues s s' d 0 :=
  ⟨fun e _ => by rw [h], by rw [h], by rw [h]; rfl⟩

theorem Issues.set_disk {dev : BLOCKDEV_API} (h : s'.disks = (s.setDisk d dev).disks)
    (hio : dev.io = (s.disks d).io) (hops : dev.ops = (s.disks d).ops + n) : Issues s s' d n where
  others := fun e he => by rw [h, setDisk_other _ _ he]
  io := by rw [h, setDisk_self, hio]
  ops := by rw [h, setDisk_self, hops]

theorem Issues.trans (h : Issues s s₁ d n) (h' : Issues s₁ s₂ d m) : Issues s s₂ d (n + m) where
  others := fun e he => (h'.others e he).trans (h.others e he)
  io := h'.io.trans h.io
  ops := by rw [h'.ops, h.ops, Nat.add_assoc]

theorem Issues.quiet (h : Issues s s' d n) (hq : (s.disks d).Quiet (n + m)) : (s'.disks d).Quiet m := by
  intro k hk
  rw [h.io, h.ops, Nat.add_assoc]
  exact hq (n + k) (by omega)

/-- A sector operation between the two states failed. -/
def Fails (s s' : Sys) : Prop :=
  ∃ e k, (s.disks e).ops ≤ k ∧ k < (s'.disks e).ops ∧ (s.disks e).io k ≠ none

theorem Issues.fails_iff (h : Issues s s' d n) : ¬ Fails s s' ↔ (s.disks d).Quiet n := by
  constructor
  · intro hno k hk
    by_contra hfail
    exact hno ⟨d, (s.disks d).ops + k, by omega, by rw [h.ops]; omega, hfail⟩
  · rintro hquiet ⟨e, k, hlo, hhi, hfail⟩
    by_cases he : e = d
    · subst he
      rw [h.ops] at hhi
      have hok := hquiet (k - (s.disks e).ops) (by omega)
      rw [Nat.add_sub_cancel' hlo] at hok
      exact hfail hok
    · rw [h.others e he] at hhi
      omega

/-! ### The sector allocator issues nothing -/

theorem onDisk_issues {r : Store × BLOCKDEV_API} (h : SameDev (s.disks d) r.2) : Issues s (s.onDisk d r) d 0 :=
  .set_disk rfl h.io h.ops

theorem mark_used_same (b : Nat) (m : Store) (dev : BLOCKDEV_API) : SameDev dev (spmm_mark_used b m dev).2 := by
  unfold spmm_mark_used
  split
  · exact SameDev.refl dev
  · split
    · split
      · exact ⟨rfl, rfl, rfl, rfl, rfl, rfl⟩
      · exact SameDev.refl dev
    · exact SameDev.refl dev

theorem init_ops (m : Store) (dev : BLOCKDEV_API) (bm T : Nat) (all_free : Bool) :
    (spmm_init m dev bm T all_free).2.io = dev.io ∧ (spmm_init m dev bm T all_free).2.ops = dev.ops := by
  unfold spmm_init
  split
  · exact ⟨rfl, rfl⟩
  · split
    · exact ⟨rfl, rfl⟩
    · exact ⟨rfl, rfl⟩

theorem write_target_issues (s : Sys) (d : Nat) (path : CStr) : Issues s (write_target s d path).2 d 0 := by
  unfold write_target
  split
  · exact onDisk_issues (spmm_free_contiguous_keeps _ _ _ _).1
  · exact .of_disks rfl d

theorem alloc_page_disks (s : Sys) (n : Nat) : (s.alloc_page n).2.disks = s.disks := by
  unfold Sys.alloc_page
  split
  · rfl
  · rfl

theorem free_page_disks (s : Sys) (addr : Nat) : (s.free_page addr).disks = s.disks := by
  unfold Sys.free_page
  split
  · rfl
  · rfl

/-! ### The calls -/

theorem format_issues (s : Sys) (d : Nat) : (eke_fs_format s (some d)).1 = 0 ∧
    Issues s (eke_fs_format s (some d)).2 d (formatOps (s.disks d).total_sectors) := by
  obtain ⟨sectors, heq, -⟩ := format_any s d
  rw [heq]
  exact ⟨rfl, .set_disk rfl rfl rfl⟩

theorem mount_bitmap_issues (s : Sys) (d : Nat) : Issues s (mount_bitmap s d) d 1 := by
  have hframe := alloc_bitmap_frame s
  unfold mount_bitmap
  generalize alloc_bitmap s = s₁ at hframe ⊢
  have hdisk : s₁.disks = s.disks := by rw [hframe]
  dsimp only
  rw [BLOCKDEV_API.read_sectors_dev, hdisk]
  obtain ⟨hio, hops⟩ := init_ops ((s.disks d).read_sectors s.active_sb.bitmap_start_lba
    s.active_sb.bitmap_block_count s₁.mem s₁.bitmap_buf).2.1 { s.disks d with ops := (s.disks d).ops + 1 }
    s₁.bitmap_buf s.active_sb.total_blocks false
  generalize spmm_init _ _ s₁.bitmap_buf s.active_sb.total_blocks false = i at hio hops ⊢
  have hloop : SameDev i.2 (loop (fun b (t : Store × BLOCKDEV_API) => spmm_mark_used b t.1 t.2)
      s.active_sb.data_start_lba i).2 :=
    loop_induct (P := fun _ (t : Store × BLOCKDEV_API) => SameDev i.2 t.2) (SameDev.refl _)
      fun k t _ h => h.trans (mark_used_same k t.1 t.2)
  exact .set_disk rfl (hloop.io.trans hio) (hloop.ops.trans hops)

theorem mount_table_issues (s : Sys) (d : Nat) : Issues s (mount_table s d) d 1 := by
  have hdisk : (alloc_table s).disks = s.disks := by rw [alloc_table_frame]
  unfold mount_table
  dsimp only
  rw [BLOCKDEV_API.read_sectors_dev, hdisk]
  exact .set_disk rfl rfl rfl

theorem mount_accepted_issues (h : (s.disks d).io (s.disks d).ops = none) : (eke_fs_mount s (some d)).1 = 0 ∧
    Issues s (eke_fs_mount s (some d)).2 d (prepareOps (s.disks d) + 2) := by
  obtain ⟨sectors, heq, -⟩ := mount_accepted h
  rw [heq]
  refine ⟨rfl, ?_⟩
  have hstart : Issues s (started s d { s.disks d with
      ops := (s.disks d).ops + prepareOps (s.disks d), sectors := sectors } (superblockOf (s.disks d))) d
      (prepareOps (s.disks d)) := .set_disk rfl rfl rfl
  exact (hstart.trans (mount_bitmap_issues _ d)).trans (mount_table_issues _ d)

theorem flush_issues (s : Sys) (d : Nat) : Issues s (flush_metadata s d) d 2 := by
  unfold flush_metadata
  dsimp only
  obtain ⟨sectors₁, h₁⟩ := BLOCKDEV_API.write_sectors_dev (s.disks d) s.active_sb.bitmap_start_lba
    s.active_sb.bitmap_block_count s.mem (s.disks d).bitmap
  obtain ⟨sectors₂, h₂⟩ := BLOCKDEV_API.write_sectors_dev
    ((s.disks d).write_sectors s.active_sb.bitmap_start_lba s.active_sb.bitmap_block_count s.mem (s.disks d).bitmap).2
    s.active_sb.file_table_start_lba s.active_sb.file_table_block_count s.mem s.file_table
  rw [h₂, h₁]
  exact .set_disk rfl rfl rfl

theorem write_data_issues (s : Sys) (d i : Nat) (path : CStr) (buf : Store) (bytes blocks start_block temp : Nat) :
    Issues s (write_data s d i path buf bytes blocks start_block temp) d 3 := by
  unfold write_data
  dsimp only
  refine Issues.trans (n := 1) (m := 2) ?_ (flush_issues _ d)
  obtain ⟨sectors, hwrite⟩ := BLOCKDEV_API.write_sectors_dev (s.disks d) start_block blocks
    ((s.mem.fill temp (blocks * SECTOR_SIZE % 2 ^ 32) 0).blit temp bytes buf 0) temp
  rw [hwrite]
  exact .set_disk (free_page_disks _ _) rfl rfl

/-! ### What a call has to be spared -/

/--
Nothing fails that the call would not report.  Only for the first read of a mount does a failure
come back as an error, apart from a read whose length is negative as an `int` in any case.
-/
def Spared (s : Sys) : Request → Prop
  | .mount (some d) => (s.disks d).io (s.disks d).ops = none → (s.disks d).Quiet (prepareOps (s.disks d) + 2)
  | .format (some d) => (s.disks d).Quiet (formatOps (s.disks d).total_sectors)
  | .file (.read (some path) (some _) max_bytes) => ∀ d i, s.active_dev = some d → s.file_table ≠ 0 →
      find_file s path = some i → min (FileEntry.size s.mem (s.entry i)) max_bytes ≠ 0 →
      min (FileEntry.size s.mem (s.entry i)) max_bytes < 2 ^ 31 →
      (s.alloc_page (temp_pages (FileEntry.block_count s.mem (s.entry i)))).1 ≠ 0 → (s.disks d).Quiet 1
  | .file (.write (some path) (some buf) bytes) =>
      ∀ d n, s.active_dev = some d → Asks s (.write (some path) (some buf) bytes) n → (s.alloc_page n).1 ≠ 0 →
      (s.disks d).Quiet 3
  | .file (.delete (some path)) => ∀ d i, s.active_dev = some d → s.file_table ≠ 0 →
      find_file s path = some i → (s.disks d).Quiet 2
  | _ => True

/-- A call in which a sector operation fails returns an error. -/
def Reports (s : Sys) (r : Request) : Prop := Fails s (r.next s) → (r.exec s).1 < 0

theorem Reports.of_error {r : Request} (h : (r.exec s).1 < 0) : Reports s r := fun _ => h

theorem reports_of_issues {r : Request} (h : Issues s (r.next s) d n) (hres : ¬ (r.exec s).1 < 0) :
    Reports s r ↔ (s.disks d).Quiet n := by
  rw [← h.fails_iff]
  exact ⟨fun hrep hfail => hres (hrep hfail), fun hno hfail => absurd hfail hno⟩

theorem mount_reports (s : Sys) (d : Nat) : Reports s (.mount (some d)) ↔ Spared s (.mount (some d)) := by
  simp only [Spared]
  by_cases hio : (s.disks d).io (s.disks d).ops = none
  · obtain ⟨hres, hissues⟩ := mount_accepted_issues hio
    rw [forall_prop_of_true hio]
    exact reports_of_issues hissues (by rw [Request.exec, hres]; decide)
  · obtain ⟨k, hk⟩ := Option.ne_none_iff_exists'.mp hio
    refine ⟨fun _ h => absurd h hio, fun _ => .of_error ?_⟩
    rw [Request.exec, mount_refused hk]
    show (-1 : Int) < 0
    decide

theorem format_reports (s : Sys) (d : Nat) : Reports s (.format (some d)) ↔ Spared s (.format (some d)) := by
  obtain ⟨hres, hissues⟩ := format_issues s d
  exact reports_of_issues hissues (by rw [Request.exec, hres]; decide)

/-! ### What the file operations come to -/

/-- The state of a delete when it flushes: the extent free and the slot cleared. -/
def cleared (s : Sys) (d i : Nat) : Sys :=
  let s' := s.onDisk d (spmm_free_contiguous (FileEntry.start_block s.mem (s.entry i))
    (FileEntry.block_count s.mem (s.entry i)) s.mem (s.disks d))
  { s' with mem := (s'.mem.set (s.entry i + 44) 0).set (s.entry i) 0 }

theorem delete_cases (s : Sys) (path : CStr) :
    (∃ d i, s.active_dev = some d ∧ s.file_table ≠ 0 ∧ find_file s path = some i ∧
      eke_fs_delete_file s (some path) = (0, flush_metadata (cleared s d i) d)) ∨
    ((∀ d i, s.active_dev = some d → s.file_table ≠ 0 → find_file s path ≠ some i) ∧
      eke_fs_delete_file s (some path) = (-1, s)) := by
  unfold eke_fs_delete_file
  cases hact : s.active_dev with
  | none => exact Or.inr ⟨fun d i h => (by cases h), rfl⟩
  | some d =>
      dsimp only
      by_cases htable : s.file_table = 0
      · rw [if_pos htable]
        exact Or.inr ⟨fun e i _ h => absurd htable h, rfl⟩
      rw [if_neg htable]
      cases hfind : find_file s path with
      | none => exact Or.inr ⟨fun e i _ _ h => (by cases h), rfl⟩
      | some i => exact Or.inl ⟨d, i, rfl, htable, rfl, rfl⟩

theorem cleared_free (s : Sys) (d i : Nat) : Issues s (cleared s d i) d 0 :=
  .set_disk rfl (spmm_free_contiguous_keeps _ _ _ _).1.io (spmm_free_contiguous_keeps _ _ _ _).1.ops

theorem cleared_issues (s : Sys) (d i : Nat) : Issues s (flush_metadata (cleared s d i) d) d 2 :=
  (cleared_free s d i).trans (flush_issues _ d)

theorem delete_reports (s : Sys) (path : CStr) :
    Reports s (.file (.delete (some path))) ↔ Spared s (.file (.delete (some path))) := by
  simp only [Spared]
  rcases delete_cases s path with ⟨d, i, hact, htable, hfind, heq⟩ | ⟨hnot, heq⟩
  · have hissues : Issues s (Request.next s (.file (.delete (some path)))) d 2 := by
      rw [Request.next, Request.exec, Op.exec, heq]
      exact cleared_issues s d i
    rw [reports_of_issues hissues (by rw [Request.exec, Op.exec, heq]; exact Int.lt_irrefl 0)]
    refine ⟨fun h e j he _ _ => ?_, fun h => h d i hact htable hfind⟩
    rw [hact] at he
    cases he
    exact h
  · refine ⟨fun _ d i hact htable hfind => absurd hfind (hnot d i hact htable), fun _ => .of_error ?_⟩
    rw [Request.exec, Op.exec, heq]
    show (-1 : Int) < 0
    decide

/-- The state of a read after its one sector operation. -/
theorem read_cases (s : Sys) (path : CStr) (buf : Store) (max_bytes : Nat) :
    (∃ d i, s.active_dev = some d ∧ s.file_table ≠ 0 ∧ find_file s path = some i ∧
      min (FileEntry.size s.mem (s.entry i)) max_bytes ≠ 0 ∧
      (s.alloc_page (temp_pages (FileEntry.block_count s.mem (s.entry i)))).1 ≠ 0 ∧
      (eke_fs_read_file s (some path) (some buf) max_bytes).1 =
        toInt (min (FileEntry.size s.mem (s.entry i)) max_bytes) ∧
      Issues s (eke_fs_read_file s (some path) (some buf) max_bytes).2.2 d 1) ∨
    ((∀ d i, s.active_dev = some d → s.file_table ≠ 0 → find_file s path = some i →
        min (FileEntry.size s.mem (s.entry i)) max_bytes ≠ 0 →
        (s.alloc_page (temp_pages (FileEntry.block_count s.mem (s.entry i)))).1 = 0) ∧
      (eke_fs_read_file s (some path) (some buf) max_bytes).2.2.disks = s.disks) := by
  unfold eke_fs_read_file
  cases hact : s.active_dev with
  | none => exact Or.inr ⟨fun d i h => (by cases h), rfl⟩
  | some d =>
      dsimp only
      by_cases htable : s.file_table = 0
      · rw [if_pos htable]
        exact Or.inr ⟨fun e i _ h => absurd htable h, rfl⟩
      rw [if_neg htable]
      cases hfind : find_file s path with
      | none => exact Or.inr ⟨fun e i _ _ h => (by cases h), rfl⟩
      | some i =>
          dsimp only
          by_cases hread : min (FileEntry.size s.mem (s.entry i)) max_bytes = 0
          · rw [if_pos hread]
            refine Or.inr ⟨fun e j _ _ h hne => ?_, rfl⟩
            cases h
            exact absurd hread hne
          rw [if_neg hread]
          have hdisks := alloc_page_disks s (temp_pages (FileEntry.block_count s.mem (s.entry i)))
          by_cases htemp : (s.alloc_page (temp_pages (FileEntry.block_count s.mem (s.entry i)))).1 = 0
          · rw [if_pos htemp]
            refine Or.inr ⟨fun e j _ _ h _ => ?_, hdisks⟩
            cases h
            exact htemp
          · rw [if_neg htemp]
            refine Or.inl ⟨d, i, rfl, htable, rfl, hread, htemp, rfl, ?_⟩
            dsimp only
            rw [BLOCKDEV_API.read_sectors_dev, hdisks]
            exact .set_disk (free_page_disks _ _) rfl rfl

theorem fails_of_disks (h : s'.disks = s.disks) : ¬ Fails s s' :=
  (Issues.of_disks h 0).fails_iff.mpr fun k hk => absurd hk (Nat.not_lt_zero k)

theorem toInt_neg {n : Nat} (h : 2 ^ 31 ≤ n) (h32 : n < 2 ^ 32) : toInt n < 0 := by
  unfold toInt
  rw [BitVec.toInt_eq_toNat_cond, BitVec.toNat_ofNat, Nat.mod_eq_of_lt h32, if_neg (by omega)]
  omega

theorem read_reports (s : Sys) (path : CStr) (buf : Store) (max_bytes : Nat) :
    Reports s (.file (.read (some path) (some buf) max_bytes)) ↔
      Spared s (.file (.read (some path) (some buf) max_bytes)) := by
  simp only [Spared]
  rcases read_cases s path buf max_bytes with ⟨d, i, hact, htable, hfind, hread, htemp, hres, hissues⟩ | ⟨hnot, hsame⟩
  · have hsize : FileEntry.size s.mem (s.entry i) < 2 ^ 32 := Store.le_lt 4 _
    by_cases hlong : 2 ^ 31 ≤ min (FileEntry.size s.mem (s.entry i)) max_bytes
    · refine ⟨fun _ e j he _ hj _ hshort => ?_, fun _ => .of_error ?_⟩
      · rw [hfind] at hj
        cases hj
        omega
      · rw [Request.exec, Op.exec]
        dsimp only
        rw [hres]
        exact toInt_neg hlong (by omega)
    · rw [reports_of_issues (n := 1) hissues]
      · refine ⟨fun h e j he _ _ _ _ _ => ?_, fun h => h d i hact htable hfind hread (by omega) htemp⟩
        rw [hact] at he
        cases he
        exact h
      · rw [Request.exec, Op.exec]
        dsimp only
        rw [hres, toInt_of_lt (by omega)]
        omega
  · refine ⟨fun _ d i hact htable hfind hread _ htemp => absurd (hnot d i hact htable hfind hread) htemp,
      fun _ hfail => absurd hfail (fails_of_disks hsame)⟩

/-- The state of a write after the sector allocator. -/
def placed (s : Sys) (d : Nat) (path : CStr) (bytes : Nat) : Sys :=
  (write_target s d path).2.onDisk d
    (spmm_alloc_contiguous (blocks_for bytes) (write_target s d path).2.mem ((write_target s d path).2.disks d)).2

/-- The block a write starts at, or 0. -/
def startOf (s : Sys) (d : Nat) (path : CStr) (bytes : Nat) : Nat :=
  (spmm_alloc_contiguous (blocks_for bytes) (write_target s d path).2.mem ((write_target s d path).2.disks d)).1

theorem placed_issues (s : Sys) (d : Nat) (path : CStr) (bytes : Nat) : Issues s (placed s d path bytes) d 0 :=
  (write_target_issues s d path).trans (onDisk_issues (spmm_alloc_contiguous_same _ _ _))

/-- The sector allocator leaves the page allocator alone. -/
theorem placed_alloc (s : Sys) (d : Nat) (path : CStr) (bytes n : Nat) :
    ((placed s d path bytes).alloc_page n).1 = (s.alloc_page n).1 := by
  obtain ⟨hpmm, hapi⟩ := write_target_pages s d path
  unfold Sys.alloc_page
  rw [show (placed s d path bytes).g_api = s.g_api from hapi, show (placed s d path bytes).pmm = s.pmm from hpmm]
  split
  · rfl
  · rfl

theorem write_cases (s : Sys) (path : CStr) (buf : Store) (bytes : Nat) :
    (∃ d i, s.active_dev = some d ∧ s.file_table ≠ 0 ∧ (write_target s d path).1 = some i ∧
      startOf s d path bytes ≠ 0 ∧ (s.alloc_page (temp_pages (blocks_for bytes))).1 ≠ 0 ∧
      eke_fs_write_file s (some path) (some buf) bytes =
        (0, write_data ((placed s d path bytes).alloc_page (temp_pages (blocks_for bytes))).2 d i path buf bytes
          (blocks_for bytes) (startOf s d path bytes) (s.alloc_page (temp_pages (blocks_for bytes))).1)) ∨
    ((∀ d n, s.active_dev = some d → Asks s (.write (some path) (some buf) bytes) n → (s.alloc_page n).1 = 0) ∧
      (eke_fs_write_file s (some path) (some buf) bytes).1 < 0) := by
  unfold eke_fs_write_file
  cases hact : s.active_dev with
  | none => exact Or.inr ⟨fun d n h => (by cases h), show (-1 : Int) < 0 by decide⟩
  | some d =>
      dsimp only
      by_cases htable : s.file_table = 0
      · rw [if_pos htable]
        exact Or.inr ⟨fun e n _ ⟨_, _, _, hne, _⟩ => absurd htable hne, show (-1 : Int) < 0 by decide⟩
      rw [if_neg htable]
      cases htarget : (write_target s d path).1 with
      | none =>
          refine Or.inr ⟨fun e n _ ⟨e', _, he', _, hi, _⟩ => ?_, show (-2 : Int) < 0 by decide⟩
          rw [hact] at he'
          cases he'
          rw [htarget] at hi
          cases hi
      | some i =>
          dsimp only
          by_cases hstart : startOf s d path bytes = 0
          · refine Or.inr ⟨fun e n _ ⟨e', _, he', _, _, hne, _⟩ => ?_, ?_⟩
            · rw [hact] at he'
              cases he'
              exact absurd hstart hne
            · rw [if_pos (by exact hstart)]
              show (-3 : Int) < 0
              decide
          rw [if_neg (by exact hstart)]
          have hplaced := placed_alloc s d path bytes (temp_pages (blocks_for bytes))
          unfold placed at hplaced
          by_cases htemp : (s.alloc_page (temp_pages (blocks_for bytes))).1 = 0
          · refine Or.inr ⟨fun e n _ ⟨_, _, _, _, _, _, hn⟩ => hn ▸ htemp, ?_⟩
            rw [if_pos (hplaced.trans htemp)]
            show (-1 : Int) < 0
            decide
          · rw [if_neg (by rw [hplaced]; exact htemp)]
            exact Or.inl ⟨d, i, rfl, htable, htarget, hstart, htemp, by rw [hplaced]; rfl⟩

theorem write_cases_issues (s : Sys) (d i : Nat) (path : CStr) (buf : Store) (bytes temp : Nat) :
    Issues s (write_data ((placed s d path bytes).alloc_page (temp_pages (blocks_for bytes))).2 d i path buf bytes
      (blocks_for bytes) (startOf s d path bytes) temp) d 3 := by
  have halloc : Issues (placed s d path bytes)
      ((placed s d path bytes).alloc_page (temp_pages (blocks_for bytes))).2 d 0 :=
    .of_disks (alloc_page_disks _ _) d
  rw [show 3 = 0 + 0 + 3 from rfl]
  exact ((placed_issues s d path bytes).trans halloc).trans (write_data_issues _ _ _ _ _ _ _ _ _)

theorem write_reports (s : Sys) (path : CStr) (buf : Store) (bytes : Nat) :
    Reports s (.file (.write (some path) (some buf) bytes)) ↔
      Spared s (.file (.write (some path) (some buf) bytes)) := by
  simp only [Spared]
  rcases write_cases s path buf bytes with ⟨d, i, hact, htable, htarget, hstart, htemp, heq⟩ | ⟨hnot, herr⟩
  · have hissues : Issues s (Request.next s (.file (.write (some path) (some buf) bytes))) d 3 := by
      rw [Request.next, Request.exec, Op.exec, heq]
      exact write_cases_issues s d i path buf bytes _
    rw [reports_of_issues hissues (by rw [Request.exec, Op.exec, heq]; exact Int.lt_irrefl 0)]
    refine ⟨fun h e n he _ _ => ?_, fun h => h d _ hact ⟨d, i, hact, htable, htarget, hstart, rfl⟩ htemp⟩
    rw [hact] at he
    cases he
    exact h
  · exact ⟨fun _ d n hact hasks htemp => absurd (hnot d n hact hasks) htemp, fun _ => .of_error herr⟩

/-- A call without a device, a path or a buffer is refused at once. -/
theorem reports_of_same {r : Request} (h : r.next s = s) : Reports s r := by
  intro hfail
  rw [h] at hfail
  exact absurd hfail (fails_of_disks rfl)

theorem Op.Null.spared {op : Op} (h : op.Null) : Spared s (.file op) := by
  cases op with
  | write path buffer bytes => cases path <;> cases buffer <;> simp_all [Op.Null, Spared]
  | delete path => cases path <;> simp_all [Op.Null, Spared]
  | read path buffer max_bytes => cases path <;> cases buffer <;> simp_all [Op.Null, Spared]

/-- **What a call reports.** -/
theorem reports_iff (s : Sys) (r : Request) : Reports s r ↔ Spared s r := by
  cases r with
  | mount dev =>
      cases dev with
      | none => exact ⟨fun _ => trivial, fun _ => reports_of_same rfl⟩
      | some d => exact mount_reports s d
  | format dev =>
      cases dev with
      | none => exact ⟨fun _ => trivial, fun _ => reports_of_same rfl⟩
      | some d => exact format_reports s d
  | file op =>
      rcases op.cases_null with hnull | ⟨path, buf, bytes, rfl⟩ | ⟨path, rfl⟩ | ⟨path, buf, max_bytes, rfl⟩
      · refine ⟨fun _ => hnull.spared, fun _ => reports_of_same ?_⟩
        rw [Request.next, Request.exec, hnull.exec_null]
      · exact write_reports s path buf bytes
      · exact delete_reports s path
      · exact read_reports s path buf max_bytes

end Eke
