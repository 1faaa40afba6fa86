/-
The physical pages of a file operation.

`eke_fs_read_file` and `eke_fs_write_file` take a run of pages for a temporary buffer and give
back an address.  The page allocator frees the page of the address, so of a run of several pages
all but the first stay behind.
-/
import Eke.Fs.FailedWrite

namespace Eke

namespace Pmm

variable {p : Pmm} {n : Int} {addr i : Nat}

theorem used_free_page_self (h : addr / 4096 < MAX_PAGES) : (p.free_page addr).used (addr / 4096) = false := by
  simp only [free_page]
  rw [if_neg (Nat.not_le.mpr h)]
  split
  · rw [used_hint, used_freebit, if_pos rfl]
  · rw [used_freebit, if_pos rfl]

/-- A run that is taken and freed by its address leaves the pages as they were if it is one page. -/
theorem alloc_free_iff {p' : Pmm} {s : Nat} (ha : Allocated p p' n addr s) :
    (∀ i, (p'.free_page addr).used i = p.used i) ↔ n ≤ 1 := by
  have hpos := ha.pos
  have hpage : addr / 4096 = s := by
    have := ha.addr_eq
    omega
  have hmax := (ha.free 0 (by omega)).2
  constructor
  · intro h
    by_contra hmany
    have hsecond := h (s + 1)
    rw [used_free_page (by omega), ha.marked, (ha.free 1 (by omega)).1, Bool.or_false] at hsecond
    exact absurd hsecond (by
      rw [decide_eq_false_iff_not]
      omega)
  · intro hone i
    by_cases hi : i = s
    · have hself : (p'.free_page addr).used (addr / 4096) = false := used_free_page_self (by omega)
      rw [hpage] at hself
      rw [hi, hself]
      exact (ha.free 0 (by omega)).1.symm
    · rw [used_free_page (by omega), ha.marked, decide_eq_false (by omega), Bool.false_or]

/-- A request that takes no page, or one that a single free gives back. -/
def Balanced (p : Pmm) (n : Int) : Prop :=
  (p.alloc_page n).2 = p ∨ n ≤ 1 ∧ (p.alloc_page n).1 ≠ 0

/-- What is left of a request that is freed if it was served. -/
theorem balanced_iff (p : Pmm) (n : Int) :
    (∀ i, (if (p.alloc_page n).1 = 0 then (p.alloc_page n).2 else
      (p.alloc_page n).2.free_page (p.alloc_page n).1).used i = p.used i) ↔ Balanced p n := by
  unfold Balanced
  rcases alloc_page_spec p n with ⟨hzero, hsame⟩ | ⟨s, ha⟩
  · rw [if_pos hzero, hsame]
    exact ⟨fun _ => Or.inl rfl, fun _ _ => rfl⟩
  have hpos := ha.pos
  have hfree : p.used s = false := (ha.free 0 (by omega)).1
  have hmarked : (p.alloc_page n).2.used s = true := by
    rw [ha.marked, hfree, decide_eq_true (by omega)]
    rfl
  have hchanged : (p.alloc_page n).2 ≠ p := by
    intro heq
    rw [heq, hfree] at hmarked
    cases hmarked
  by_cases hzero : (p.alloc_page n).1 = 0
  · rw [if_pos hzero]
    refine ⟨fun h => ?_, fun h => ?_⟩
    · have hbit := h s
      rw [hmarked, hfree] at hbit
      cases hbit
    · exact (h.resolve_left hchanged).2.elim hzero
  · rw [if_neg hzero, alloc_free_iff ha]
    exact ⟨fun h => Or.inr ⟨h, hzero⟩, fun h => (h.resolve_left hchanged).1⟩

end Pmm

variable {s : Sys}

/-- The pages a call asks the page allocator for, if it comes to that. -/
def Asks (s : Sys) : Op → Nat → Prop
  | .read (some path) (some _) max_bytes, n =>
      ∃ d i, s.active_dev = some d ∧ s.file_table ≠ 0 ∧ find_file s path = some i ∧
        min (FileEntry.size s.mem (s.entry i)) max_bytes ≠ 0 ∧
        n = temp_pages (FileEntry.block_count s.mem (s.entry i))
  | .write (some path) (some _) bytes, n =>
      ∃ d i, s.active_dev = some d ∧ s.file_table ≠ 0 ∧ (write_target s d path).1 = some i ∧
        (spmm_alloc_contiguous (blocks_for bytes) (write_target s d path).2.mem
          ((write_target s d path).2.disks d)).1 ≠ 0 ∧
        n = temp_pages (blocks_for bytes)
  | _, _ => False

/-- The request of the file system, which goes nowhere before `eke_fs_init`. -/
def Sys.Balanced (s : Sys) (n : Nat) : Prop := s.g_api = true → s.pmm.Balanced (toInt n)

/-- The pages in use are the same. -/
def SamePages (s s' : Sys) : Prop := ∀ i, s'.pmm.used i = s.pmm.used i

/-- What a request leaves behind if it is freed when it was served. -/
theorem request_iff {s' : Sys} (n : Nat) (h : s'.pmm = (if (s.alloc_page n).1 = 0 then (s.alloc_page n).2 else
    (s.alloc_page n).2.free_page (s.alloc_page n).1).pmm) : SamePages s s' ↔ s.Balanced n := by
  unfold SamePages Sys.Balanced
  rw [h]
  unfold Sys.alloc_page Sys.free_page
  by_cases hapi : s.g_api = true
  · rw [if_pos hapi, forall_prop_of_true hapi, ← Pmm.balanced_iff]
    dsimp only
    split
    · exact Iff.rfl
    · exact Iff.rfl
  · rw [if_neg hapi]
    exact ⟨fun _ hc => absurd hc hapi, fun _ _ => rfl⟩

/-! ### The file operations -/

theorem SamePages.of_pmm {s' : Sys} (h : s'.pmm = s.pmm) : SamePages s s' := fun _ => by rw [h]

/-- Only the address decides what is freed. -/
theorem free_page_pmm (m : Store) (d : Nat) (dev : BLOCKDEV_API) (addr : Nat) :
    (({ s with mem := m }.setDisk d dev).free_page addr).pmm = (s.free_page addr).pmm := by
  by_cases hapi : s.g_api = true
  · simp only [Sys.free_page, Sys.setDisk, if_pos hapi]
  · simp only [Sys.free_page, Sys.setDisk, if_neg hapi]

theorem read_pages (path : CStr) (buf : Store) (max_bytes : Nat) :
    SamePages s (eke_fs_read_file s (some path) (some buf) max_bytes).2.2 ↔
      ∀ n, Asks s (.read (some path) (some buf) max_bytes) n → s.Balanced n := by
  unfold eke_fs_read_file
  cases hact : s.active_dev with
  | none =>
      refine ⟨fun _ n ⟨d, i, hd, _⟩ => ?_, fun _ => .of_pmm rfl⟩
      rw [hact] at hd
      cases hd
  | some d =>
      dsimp only
      by_cases htable : s.file_table = 0
      · rw [if_pos htable]
        exact ⟨fun _ n ⟨_, _, _, hne, _⟩ => absurd htable hne, fun _ => .of_pmm rfl⟩
      rw [if_neg htable]
      cases hfind : find_file s path with
      | none =>
          refine ⟨fun _ n ⟨_, _, _, _, hi, _⟩ => ?_, fun _ => .of_pmm rfl⟩
          rw [hfind] at hi
          cases hi
      | some i =>
          dsimp only
          by_cases hread : min (FileEntry.size s.mem (s.entry i)) max_bytes = 0
          · rw [if_pos hread]
            refine ⟨fun _ n ⟨_, j, _, _, hj, hne, _⟩ => ?_, fun _ => .of_pmm rfl⟩
            rw [hfind] at hj
            cases hj
            exact absurd hread hne
          · rw [if_neg hread]
            refine (request_iff (temp_pages (FileEntry.block_count s.mem (s.entry i))) ?_).trans
              ⟨fun h n ⟨_, j, _, _, hj, _, hn⟩ => ?_, fun h => ?_⟩
            · split
              · rfl
              · exact free_page_pmm _ _ _ _
            · rw [hfind] at hj
              cases hj
              rw [hn]
              exact h
            · exact h _ ⟨d, i, hact, htable, hfind, hread, rfl⟩

/-- The sector allocator takes no pages. -/
theorem write_target_pages (s : Sys) (d : Nat) (path : CStr) :
    (write_target s d path).2.pmm = s.pmm ∧ (write_target s d path).2.g_api = s.g_api := by
  unfold write_target
  split
  · exact ⟨rfl, rfl⟩
  · exact ⟨rfl, rfl⟩

theorem write_data_pmm (s : Sys) (d i : Nat) (path : CStr) (buf : Store) (bytes blocks start_block temp : Nat) :
    (write_data s d i path buf bytes blocks start_block temp).pmm = (s.free_page temp).pmm := by
  rw [← free_page_pmm ((s.mem.fill temp (blocks * SECTOR_SIZE % 2 ^ 32) 0).blit temp bytes buf 0) d
    ((s.disks d).write_sectors start_block blocks
      ((s.mem.fill temp (blocks * SECTOR_SIZE % 2 ^ 32) 0).blit temp bytes buf 0) temp).2 temp]
  rfl

theorem write_pages (path : CStr) (buf : Store) (bytes : Nat) :
    SamePages s (eke_fs_write_file s (some path) (some buf) bytes).2 ↔
      ∀ n, Asks s (.write (some path) (some buf) bytes) n → s.Balanced n := by
  unfold eke_fs_write_file
  cases hact : s.active_dev with
  | none =>
      refine ⟨fun _ n ⟨d, i, hd, _⟩ => ?_, fun _ => .of_pmm rfl⟩
      rw [hact] at hd
      cases hd
  | some d =>
      dsimp only
      by_cases htable : s.file_table = 0
      · rw [if_pos htable]
        exact ⟨fun _ n ⟨_, _, _, hne, _⟩ => absurd htable hne, fun _ => .of_pmm rfl⟩
      rw [if_neg htable]
      obtain ⟨hpmm, hapi⟩ := write_target_pages s d path
      cases htarget : (write_target s d path).1 with
      | none =>
          refine ⟨fun _ n ⟨e, _, hd, _, hi, _⟩ => ?_, fun _ => .of_pmm hpmm⟩
          rw [hact] at hd
          cases hd
          rw [htarget] at hi
          cases hi
      | some i =>
          dsimp only
          generalize hrun : spmm_alloc_contiguous (blocks_for bytes) (write_target s d path).2.mem
            ((write_target s d path).2.disks d) = a
          by_cases hstart : a.1 = 0
          · rw [if_pos hstart]
            refine ⟨fun _ n ⟨e, _, hd, _, _, hne, _⟩ => ?_, fun _ => .of_pmm hpmm⟩
            rw [hact] at hd
            cases hd
            rw [hrun] at hne
            exact absurd hstart hne
          · rw [if_neg hstart]
            -- the request is that of the state before, whose pages and API the state has
            have hsame : ∀ s', SamePages s s' ↔ SamePages ((write_target s d path).2.onDisk d a.2) s' :=
              fun s' => ⟨fun h j => (h j).trans (by rw [← hpmm]; rfl), fun h j => (h j).trans (by rw [← hpmm]; rfl)⟩
            have hbal : ((write_target s d path).2.onDisk d a.2).Balanced (temp_pages (blocks_for bytes)) ↔
                s.Balanced (temp_pages (blocks_for bytes)) := by
              unfold Sys.Balanced
              rw [← hpmm, ← hapi]
              rfl
            refine (hsame _).trans ((request_iff _ ?_).trans (hbal.trans ⟨fun h n hn => ?_, fun h => ?_⟩))
            · split
              · rfl
              · exact write_data_pmm _ _ _ _ _ _ _ _ _
            · obtain ⟨-, -, -, -, -, -, rfl⟩ := hn
              exact h
            · exact h _ ⟨d, i, hact, htable, htarget, by rw [hrun]; exact hstart, rfl⟩

theorem delete_pmm (path : Option CStr) : (eke_fs_delete_file s path).2.pmm = s.pmm := by
  unfold eke_fs_delete_file
  split
  · split
    · rfl
    · split
      · rfl
      · rfl
  · rfl

/-- A call without a path or without its buffer. -/
def Op.Null : Op → Prop
  | write path buffer _ => path = none ∨ buffer = none
  | delete path => path = none
  | read path buffer _ => path = none ∨ buffer = none

/-- It is refused before anything is done. -/
theorem Op.Null.exec_null {op : Op} (h : op.Null) (s : Sys) : op.exec s = (-1, s) := by
  cases op with
  | write path buffer bytes =>
      show eke_fs_write_file s path buffer bytes = _
      unfold eke_fs_write_file
      split
      · simp [Op.Null] at h
      · rfl
  | delete path =>
      show eke_fs_delete_file s path = _
      unfold eke_fs_delete_file
      split
      · simp [Op.Null] at h
      · rfl
  | read path buffer max_bytes =>
      show ((eke_fs_read_file s path buffer max_bytes).1, (eke_fs_read_file s path buffer max_bytes).2.2) = _
      unfold eke_fs_read_file
      split
      · simp [Op.Null] at h
      · rfl

/-- The other calls have what they need. -/
theorem Op.cases_null (op : Op) : op.Null ∨ (∃ path buf bytes, op = .write (some path) (some buf) bytes) ∨
    (∃ path, op = .delete (some path)) ∨ ∃ path buf max_bytes, op = .read (some path) (some buf) max_bytes := by
  cases op with
  | write path buffer bytes => cases path <;> cases buffer <;> simp [Op.Null]
  | delete path => cases path <;> simp [Op.Null]
  | read path buffer max_bytes => cases path <;> cases buffer <;> simp [Op.Null]

theorem Op.Null.asks {op : Op} (h : op.Null) (n : Nat) : ¬ Asks s op n := by
  cases op with
  | write path buffer bytes => cases path <;> cases buffer <;> simp_all [Op.Null, Asks]
  | delete path => exact id
  | read path buffer max_bytes => cases path <;> cases buffer <;> simp_all [Op.Null, Asks]

/-- A file operation leaves the pages in use as they were exactly if what it asks for, if it comes
to that, is refused or is one page. -/
theorem pages_conserved (s : Sys) (op : Op) :
    SamePages s (op.exec s).2 ↔ ∀ n, Asks s op n → s.Balanced n := by
  rcases op.cases_null with hnull | ⟨path, buf, bytes, rfl⟩ | ⟨path, rfl⟩ | ⟨path, buf, max_bytes, rfl⟩
  · exact ⟨fun _ n hn => absurd hn (hnull.asks n), fun _ => .of_pmm (by rw [hnull.exec_null])⟩
  · exact write_pages path buf bytes
  · exact ⟨fun _ n hn => hn.elim, fun _ => .of_pmm (delete_pmm (some path))⟩
  · exact read_pages path buf max_bytes

/-! ### Nine blocks -/

/-- The memory of a mounted device of 32 sectors with one file: `a`, nine blocks, at block 10. -/
def wideMem : Store := fun x =>
  if x = 512 * 4096 ∨ x = 512 * 4096 + 1 then 255 else if x = 512 * 4096 + 2 then 7
  else if x = 513 * 4096 then 97 else if x = 513 * 4096 + 33 then 18
  else if x = 513 * 4096 + 36 then 10 else if x = 513 * 4096 + 40 then 9
  else if x = 513 * 4096 + 44 then 1 else 0

def wideState : Sys :=
  { heldState with
    mem := wideMem
    pmm := bootPages.mark 512 2
    disks := fun _ =>
      { blankDevice 32 with bitmap := 512 * 4096, total_blocks := 32, free_blocks := 13, last_free_block := 1 }
    active_sb := Superblock.forDevice 32 }

theorem wide_open : Open wideState 0 32 :=
  ⟨rfl, by decide, by decide, rfl, by decide, by decide⟩

/-- Reading nine blocks takes two pages and frees one. -/
theorem pages_leaked : Open wideState 0 32 ∧
    ¬ SamePages wideState (Op.exec wideState (.read (some pathA) (some forged) 4608)).2 := by
  refine ⟨wide_open, fun h => ?_⟩
  have hpage := h 515
  revert hpage
  decide

end Eke
