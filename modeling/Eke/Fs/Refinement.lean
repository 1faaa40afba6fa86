/-
The file system is a map from paths to files.

`Files` is what it is for: under some paths a file is stored, and nothing else is.  `Files.Allows` says
what each call may answer and what it makes of the map; only two things are left open there, the order
in which files are listed and whether the device has room for a new one.  `Files.Acts` is one call of
the code, or a restart: the machine loses everything but the medium and mounts the device again.

Everything a user of the file system gets to see in a run is something the map may answer.  The calls of
a run keep off the defects of the code: a temporary buffer is never on the tail of the table, no
allocation fails after an extent was freed or taken, and no slot behind the table's page is in use when
the machine is restarted.
-/
import Eke.Lib.Talks
import Eke.Fs.Remount

namespace Eke

/-- The files under their paths. -/
abbrev Files : Type := CStr → Option (List Byte)

namespace Files

/-! ### What the file system is for -/

inductive Call
  | write (path : Option CStr) (buffer : Option Store) (bytes : Nat)
  | delete (path : Option CStr)
  | read (path : Option CStr) (buffer : Option Store) (max_bytes : Nat)
  | get_size (path : Option CStr)
  | list_files
  | restart

inductive Reply
  | code (r : Int)
  | bytes (r : Int) (buffer : Option Store)
  | size (n : Nat)
  | files (l : List (List Byte × Nat))

/-- `l` lists the files of a map with their sizes, each of them once. -/
structure Lists (l : List (List Byte × Nat)) (m : Files) : Prop where
  once : (l.map Prod.fst).Nodup
  mem : ∀ name n, (name, n) ∈ l ↔ ∃ p data, p.chars = name ∧ m p = some data ∧ data.length = n

/-- A map with room for another path. -/
def Roomy (m : Files) : Prop := ∃ l, Lists l m ∧ l.length < MAX_FILES

/-- `m` with `file` under `p`. -/
def put (m : Files) (p : CStr) (file : Option (List Byte)) : Files := fun q =>
  if q.chars = p.chars then file else m q

/-- The calls a map may be asked, what it may answer, and the map afterwards. -/
inductive Allows (m : Files) : Call → Reply → Files → Prop
  | write_null {path : Option CStr} {buffer : Option Store} {bytes : Nat}
      (null : path = none ∨ buffer = none) : Allows m (.write path buffer bytes) (.code (-1)) m
  | stored {p : CStr} {buf : Store} {bytes : Nat} (room : m p ≠ none ∨ m.Roomy) :
      Allows m (.write (some p) (some buf) bytes) (.code 0) (m.put p (some ((List.range bytes).map buf)))
  | table_full {p : CStr} {buf : Store} {bytes : Nat} (new : m p = none)
      (full : ∃ l, Lists l m ∧ l.length = MAX_FILES) :
      Allows m (.write (some p) (some buf) bytes) (.code (-2)) m
  | device_full {p : CStr} {buf : Store} {bytes : Nat} (new : m p = none) (room : m.Roomy) :
      Allows m (.write (some p) (some buf) bytes) (.code (-3)) m
  | delete_null : Allows m (.delete none) (.code (-1)) m
  | deleted {p : CStr} (there : m p ≠ none) : Allows m (.delete (some p)) (.code 0) (m.put p none)
  | not_there {p : CStr} (none : m p = none) : Allows m (.delete (some p)) (.code (-1)) m
  | read_null {path : Option CStr} {buffer : Option Store} {k : Nat} (null : path = none ∨ buffer = none) :
      Allows m (.read path buffer k) (.bytes (-1) buffer) m
  | read {p : CStr} {buf : Store} {k : Nat} :
      Allows m (.read (some p) (some buf) k)
        (.bytes (readResult (m p) buf k).1 (readResult (m p) buf k).2) m
  | get_size {path : Option CStr} :
      Allows m (.get_size path) (.size (((path.bind m).map List.length).getD 0)) m
  | list_files {l : List (List Byte × Nat)} (lists : Lists l m) : Allows m .list_files (.files l) m
  | restart : Allows m .restart (.code 0) m

/-- The call is no write to the path, and does not delete it. -/
def Call.Spares (p : CStr) : Call → Prop
  | .write path _ _ => path ≠ some p
  | .delete path => path ≠ some p
  | _ => True

/-- A write is stored, or it is refused and changes nothing. -/
theorem Allows.written {m m' : Files} {p : CStr} {buf : Store} {bytes : Nat} {r : Int}
    (h : Allows m (.write (some p) (some buf) bytes) (.code r) m') :
    r = 0 ∧ m' = m.put p (some ((List.range bytes).map buf)) ∨ r ≠ 0 ∧ m' = m := by
  cases h with
  | write_null null => rcases null with hc | hc <;> cases hc
  | stored => exact Or.inl ⟨rfl, rfl⟩
  | table_full => exact Or.inr ⟨by decide, rfl⟩
  | device_full => exact Or.inr ⟨by decide, rfl⟩

/-! ### What the code does -/

/-- A write of a run: it is stored, or it finds no slot, or there is no run for a new file. -/
def Spared (s : Sys) (p : CStr) (r : Int) : Prop := r = 0 ∨ r = -2 ∨ r = -3 ∧ find_file s p = none

/-- The call, its answer, and the state after it. -/
inductive Acts (d T : Nat) (s : Sys) : Call → Reply → Sys → Prop
  | write {path : Option CStr} {buffer : Option Store} {bytes : Nat}
      (short : (Op.write path buffer bytes).Short) (tame : (Op.write path buffer bytes).Tame s)
      (spared : ∀ p buf, path = some p → buffer = some buf →
        Spared s p (eke_fs_write_file s path buffer bytes).1) :
      Acts d T s (.write path buffer bytes) (.code (eke_fs_write_file s path buffer bytes).1)
        (eke_fs_write_file s path buffer bytes).2
  | delete {path : Option CStr} :
      Acts d T s (.delete path) (.code (eke_fs_delete_file s path).1) (eke_fs_delete_file s path).2
  | read {path : Option CStr} {buffer : Option Store} {k : Nat} (tame : (Op.read path buffer k).Tame s)
      (pages : ∀ p, path = some p → ReadOk s p) :
      Acts d T s (.read path buffer k)
        (.bytes (eke_fs_read_file s path buffer k).1 (eke_fs_read_file s path buffer k).2.1)
        (eke_fs_read_file s path buffer k).2.2
  | get_size {path : Option CStr} : Acts d T s (.get_size path) (.size (eke_fs_get_size s path)) s
  | list_files : Acts d T s .list_files (.files (eke_fs_list_files s)) s
  | restart {b : Sys} (boot : Rebooted s b d T) (tail : TailUnused s.mem s.file_table)
      (tail' : TailUnused b.mem (remount b d).file_table) :
      Acts d T s .restart (.code (eke_fs_mount b (some d)).1) (remount b d)

/-- The state of the file system stands for the map. -/
structure Stands (d T : Nat) (s : Sys) (m : Files) : Prop where
  sound : Sound s d T
  distinct : (volume s d).Distinct
  same : ∀ p, fileOf s d p = m p

variable {s s' s₀ b : Sys} {d T i r bytes k : Nat} {p q : CStr} {buf : Store} {m : Files}
  {path : Option CStr} {buffer : Option Store}

/-! ### The list of files -/

theorem cstr_nonzero {st : Store} : ∀ {n a : Nat}, ∀ c ∈ cstr st a n, c ≠ 0 := by
  intro n
  induction n with
  | zero => exact fun c hc => absurd hc List.not_mem_nil
  | succ n ih =>
      intro a c hc
      rw [cstr] at hc
      split at hc
      · exact absurd hc List.not_mem_nil
      · rename_i hne
        rcases List.mem_cons.mp hc with rfl | hrest
        · exact hne
        · exact ih c hrest

/-- An entry's name is a path. -/
theorem entry_path {e : Entry} (he : (volume s d).slot i = some e) : ∃ p : CStr, p.chars = e.name :=
  ⟨⟨e.name, fun c hc => cstr_nonzero c ((slotAt_some he).1 ▸ hc)⟩, rfl⟩

theorem contents_length {e : Entry} {sectors : Store} : (e.contents sectors).length = e.size := by
  rw [Entry.contents, List.length_map, List.length_range]

/-- What is listed for a slot. -/
def listed (s : Sys) (i : Nat) : Option (List Byte × Nat) :=
  (slotAt s.mem s.file_table i).map fun e => (e.name, e.size)

theorem listed_some {x : List Byte × Nat} : listed s i = some x ↔
    ∃ e, slotAt s.mem s.file_table i = some e ∧ (e.name, e.size) = x := Option.map_eq_some_iff

/-- Two slots that are listed under one name are one slot. -/
theorem listed_once (hd : (volume s d).Distinct) (i j : Nat) (name : List Byte)
    (hi : name ∈ (listed s i).map Prod.fst) (hj : name ∈ (listed s j).map Prod.fst) : i = j := by
  obtain ⟨x, hx, rfl⟩ := Option.map_eq_some_iff.mp hi
  obtain ⟨y, hy, hname⟩ := Option.map_eq_some_iff.mp hj
  obtain ⟨e, he, rfl⟩ := listed_some.mp hx
  obtain ⟨f, hf, rfl⟩ := listed_some.mp hy
  exact hd i j e f he hf hname.symm

theorem list_lists (hs : Stands d T s m) : Lists (eke_fs_list_files s) m := by
  have hft := hs.sound.good.mounted.buffers.table_ne
  have heq : eke_fs_list_files s = (List.range MAX_FILES).filterMap (listed s) := list_files_eq hft
  refine ⟨?_, fun name n => ?_⟩
  · rw [heq, List.map_filterMap]
    exact List.nodup_range.filterMap (listed_once hs.distinct)
  · rw [heq, List.mem_filterMap]
    constructor
    · rintro ⟨i, -, hi⟩
      obtain ⟨e, he, hx⟩ := listed_some.mp hi
      obtain ⟨rfl, rfl⟩ := Prod.mk.inj hx
      obtain ⟨p, hp⟩ := entry_path (d := d) he
      refine ⟨p, e.contents (s.disks d).sectors, hp, ?_, contents_length⟩
      rw [← hs.same, fileOf_slot hs.sound.good.named hs.distinct he hp.symm]
    · rintro ⟨p, data, rfl, hp, rfl⟩
      rw [← hs.same] at hp
      rcases slot_cases s d p with hnone | ⟨i, e, he, hname⟩
      · rw [fileOf_none hs.sound.good.named hnone] at hp
        cases hp
      · rw [fileOf_slot hs.sound.good.named hs.distinct he hname] at hp
        obtain rfl := Option.some.inj hp
        refine ⟨i, List.mem_range.mpr (slotAt_lt he), listed_some.mpr ⟨e, he, ?_⟩⟩
        rw [contents_length, hname]

theorem list_length (hft : s.file_table ≠ 0) : (eke_fs_list_files s).length =
    (List.range MAX_FILES).countP fun i => (slotAt s.mem s.file_table i).isSome := by
  rw [list_files_eq hft, List.length_filterMap_eq_countP]
  exact List.countP_congr fun i _ => by rw [Option.isSome_map]

/-- A free slot is room for another path. -/
theorem roomy_of_free (hs : Stands d T s m) (hi : i < MAX_FILES)
    (hfree : slotAt s.mem s.file_table i = none) : m.Roomy := by
  refine ⟨_, list_lists hs, ?_⟩
  rw [list_length hs.sound.good.mounted.buffers.table_ne]
  refine Nat.lt_of_le_of_ne ?_ fun hc => ?_
  · exact Nat.le_trans List.countP_le_length (Nat.le_of_eq List.length_range)
  · have hall := List.countP_eq_length.mp (hc.trans List.length_range.symm) i (List.mem_range.mpr hi)
    rw [hfree] at hall
    cases hall

/-- A table without a free slot has 64 files. -/
theorem full_of_none (hs : Stands d T s m) (hfree : find_free s = none) :
    ∃ l, Lists l m ∧ l.length = MAX_FILES := by
  refine ⟨_, list_lists hs, ?_⟩
  rw [list_length hs.sound.good.mounted.buffers.table_ne, ← List.length_range (n := MAX_FILES)]
  refine List.countP_eq_length.mpr fun i hi => ?_
  rw [List.length_range] at hi
  exact Option.isSome_iff_ne_none.mpr (find_free_none.mp hfree i (List.mem_range.mp hi))

/-! ### One call -/

theorem find_none_iff : find_file s p = none ↔ fileOf s d p = none := Option.map_eq_none_iff.symm

theorem put_self (m : Files) (p : CStr) (file : Option (List Byte)) : m.put p file p = file := if_pos rfl

theorem put_other {file : Option (List Byte)} (h : q ≠ p) : m.put p file q = m q := if_neg (chars_ne h)

/-- Other calls leave the file of a path alone. -/
theorem Allows.spared {c : Call} {a : Reply} {m' : Files} (h : Allows m c a m') (hc : c.Spares p) :
    m' p = m p := by
  cases h with
  | stored => exact put_other fun hp => hc (congrArg some hp.symm)
  | deleted => exact put_other fun hp => hc (congrArg some hp.symm)
  | _ => rfl

/-- A state whose files are those of another, with one file put in place. -/
theorem stands_put {file : Option (List Byte)} (hs : Stands d T s m) (hsound : Sound s' d T)
    (hdist : (volume s' d).Distinct) (hself : fileOf s' d p = file)
    (hother : ∀ q, q ≠ p → fileOf s' d q = fileOf s d q) : Stands d T s' (m.put p file) where
  sound := hsound
  distinct := hdist
  same q := by
    by_cases hq : q = p
    · rw [hq, put_self, hself]
    · rw [put_other hq, hother q hq, hs.same]

/-- A call that leaves the volume as it is. -/
theorem stands_kept (hs : Stands d T s m) (hk : Kept s s' d T) : Stands d T s' m where
  sound := ⟨hk.good, hk.synced hs.sound.synced⟩
  distinct i j e f hi hj hname := by
    rw [hk.slots] at hi hj
    exact hs.distinct i j e f hi hj hname
  same p := (fileOf_congr hs.sound.good.named hk.good.named hk.slots hk.sectors).trans (hs.same p)

/-- A write that went through. -/
theorem stands_written (hs : Stands d T s m) (hw : Written s s' d T i r p buf bytes)
    (hp : p.chars.length ≤ 31) (hbytes : bytes < 2 ^ 31) :
    (m p ≠ none ∨ m.Roomy) ∧ Stands d T s' (m.put p (some ((List.range bytes).map buf))) := by
  have hn := hs.sound.good.named
  refine ⟨?_, ?_⟩
  · rcases hw.target with hfound | ⟨hnone, hfree⟩
    · refine Or.inl fun hc => ?_
      rw [← hs.same, ← find_none_iff, hfound] at hc
      cases hc
    · refine Or.inr (roomy_of_free hs (i := i) ?_ hfree)
      have hchosen := hw.chosen
      unfold write_target at hchosen
      rw [hnone] at hchosen
      exact (find_free_some hchosen).1
  · exact stands_put hs ⟨hw.good, hw.synced hs.sound.synced.super⟩ (hw.distinct hn hp hs.distinct)
      (hw.fileOf_self hn hs.distinct hp (by omega))
      fun q hq => hw.fileOf_other hs.sound.good hs.distinct hp hq

/-- A write that finds no slot, or no run for a new file, changes nothing. -/
theorem write_refused (g : Good s d T) {r : Int} (hr : r = -2 ∨ r = -3 ∧ find_file s p = none)
    (h : (eke_fs_write_file s (some p) (some buf) bytes).1 = r) :
    (eke_fs_write_file s (some p) (some buf) bytes).2 = s ∧ find_file s p = none ∧
      (r = -2 ∧ find_free s = none ∨ r = -3 ∧ ∃ i, find_free s = some i) := by
  have hcode : r = -2 ∨ r = -3 := hr.imp_right And.left
  unfold eke_fs_write_file at h ⊢
  rw [g.mounted.active] at h ⊢
  dsimp only at h ⊢
  rw [if_neg g.mounted.buffers.table_ne] at h ⊢
  unfold write_target at h ⊢
  cases hf : find_file s p with
  | some i =>
      -- An existing file is written, or its extent is lost and the call says -3 or -1.
      exfalso
      rw [hf] at h
      have hne : r = -2 := hr.resolve_right fun h3 => by
        rw [hf] at h3
        cases h3.2
      dsimp only at h
      split at h
      · omega
      · split at h <;> dsimp only at h <;> omega
  | none =>
      rw [hf] at h
      cases hfree : find_free s with
      | none =>
          rw [hfree] at h
          exact ⟨rfl, rfl, Or.inl ⟨h.symm, rfl⟩⟩
      | some i =>
          rw [hfree] at h
          dsimp only at h ⊢
          split at h
          · rename_i hrun
            rw [if_pos hrun]
            exact ⟨rfl, rfl, Or.inr ⟨h.symm, i, rfl⟩⟩
          · exfalso
            split at h <;> dsimp only at h <;> omega

/-- A restart brings back the files. -/
theorem stands_restarted (hs : Stands d T s m) (boot : Rebooted s b d T)
    (htail : TailUnused s.mem s.file_table) (htail' : TailUnused b.mem (remount b d).file_table) : Stands d T (remount b d) m := by
  have g' := remount_good hs.sound boot htail htail'
  have hslots := remount_slots hs.sound boot htail htail'
  have hm := (remount_from hs.sound boot).2
  have hsec : ((remount b d).disks d).sectors = (s.disks d).sectors := hm.sectors.trans boot.medium
  refine ⟨⟨g', ?_, fun k hk => ?_, fun k hlo hhi => ?_⟩, fun i j e f hi hj hname => ?_, fun p => ?_⟩
  · rw [hsec]
    exact hs.sound.synced.super
  · rw [hm.table k hk, hm.sectors]
  · rw [hsec, hs.sound.synced.bits k hlo hhi, ← volume_bit hs.sound.good.mounted, ← volume_bit g'.mounted,
      remount_bits hs.sound boot hhi]
  · rw [hslots] at hi hj
    exact hs.distinct i j e f hi hj hname
  · exact (fileOf_congr hs.sound.good.named g'.named hslots hsec).trans (hs.same p)

theorem write_null (h : path = none ∨ buffer = none) : eke_fs_write_file s path buffer bytes = (-1, s) := by
  unfold eke_fs_write_file
  rcases h with rfl | rfl
  · cases s.active_dev <;> rfl
  · cases s.active_dev <;> cases path <;> rfl

theorem read_null (h : path = none ∨ buffer = none) :
    eke_fs_read_file s path buffer k = (-1, buffer, s) := by
  unfold eke_fs_read_file
  rcases h with rfl | rfl
  · cases s.active_dev <;> rfl
  · cases s.active_dev <;> cases path <;> rfl

/-- A path or a buffer that is a null pointer, or both of them. -/
theorem null_or (path : Option CStr) (buffer : Option Store) :
    (path = none ∨ buffer = none) ∨ ∃ p buf, path = some p ∧ buffer = some buf := by
  cases path with
  | none => exact Or.inl (Or.inl rfl)
  | some p =>
      cases buffer with
      | none => exact Or.inl (Or.inr rfl)
      | some buf => exact Or.inr ⟨p, buf, rfl, rfl⟩

theorem write_allowed (hs : Stands d T s m) (hshort : (Op.write (some p) (some buf) bytes).Short)
    (htame : (Op.write (some p) (some buf) bytes).Tame s)
    (hspared : Spared s p (eke_fs_write_file s (some p) (some buf) bytes).1) :
    ∃ m', m.Allows (.write (some p) (some buf) bytes)
        (.code (eke_fs_write_file s (some p) (some buf) bytes).1) m' ∧
      Stands d T (eke_fs_write_file s (some p) (some buf) bytes).2 m' := by
  have g := hs.sound.good
  rcases hspared with hok | hrefused
  · obtain ⟨i, r, hw⟩ := write_step g hshort.fits htame hok
    obtain ⟨hroom, hstands⟩ := stands_written hs hw (hshort.1 p rfl).2 hshort.2
    rw [hok]
    exact ⟨_, .stored hroom, hstands⟩
  · obtain ⟨hsame, hnone, hwhy⟩ := write_refused g hrefused rfl
    have hnew : m p = none := (hs.same p).symm.trans (find_none_iff.mp hnone)
    rw [hsame]
    rcases hwhy with ⟨hr, hfree⟩ | ⟨hr, i, hfree⟩
    · rw [hr]
      exact ⟨m, .table_full hnew (full_of_none hs hfree), hs⟩
    · rw [hr]
      obtain ⟨hlt, hslot⟩ := find_free_some hfree
      exact ⟨m, .device_full hnew (roomy_of_free hs hlt hslot), hs⟩

theorem delete_allowed (hs : Stands d T s m) (p : CStr) :
    ∃ m', m.Allows (.delete (some p)) (.code (eke_fs_delete_file s (some p)).1) m' ∧
      Stands d T (eke_fs_delete_file s (some p)).2 m' := by
  have g := hs.sound.good
  rcases delete_step g p with ⟨heq, hnone⟩ | ⟨hok, i, hd⟩
  · rw [heq]
    exact ⟨m, .not_there ((hs.same p).symm.trans (find_none_iff.mp hnone)), hs⟩
  · rw [hok]
    refine ⟨_, .deleted fun hc => ?_, stands_put hs ⟨hd.good, hd.synced hs.sound.synced.super⟩
      (hd.distinct hs.distinct) (find_none_iff.mp (hd.fileOf_self g.named hs.distinct))
      fun q hq => hd.fileOf_other g hs.distinct hq⟩
    rw [← hs.same, ← find_none_iff, hd.target] at hc
    cases hc

/-- **Step.**  What a call answers is what the map may answer. -/
theorem acts_allowed {c : Call} {a : Reply} (hs : Stands d T s m) (h : Acts d T s c a s') :
    ∃ m', m.Allows c a m' ∧ Stands d T s' m' := by
  have g := hs.sound.good
  cases h with
  | @write path buffer bytes hshort htame hspared =>
      rcases null_or path buffer with hnull | ⟨p, buf, rfl, rfl⟩
      · rw [write_null hnull]
        exact ⟨m, .write_null hnull, hs⟩
      · exact write_allowed hs hshort htame (hspared p buf rfl rfl)
  | @delete path =>
      cases path with
      | none =>
          have heq : eke_fs_delete_file s none = (-1, s) := by
            simp only [eke_fs_delete_file, g.mounted.active]
          rw [heq]
          exact ⟨m, .delete_null, hs⟩
      | some p => exact delete_allowed hs p
  | @read path buffer k htame hpages =>
      rcases null_or path buffer with hnull | ⟨p, buf, rfl, rfl⟩
      · rw [read_null hnull]
        exact ⟨m, .read_null hnull, hs⟩
      · obtain ⟨hcode, hbytes⟩ := Prod.mk.inj (read_file_eq g (hpages p rfl) buf k)
        rw [hcode, hbytes, hs.same]
        exact ⟨m, .read, stands_kept hs (read_step g (htame p rfl) buf k)⟩
  | @get_size path =>
      refine ⟨m, ?_, hs⟩
      have hsize : eke_fs_get_size s path = ((path.bind m).map List.length).getD 0 := by
        cases path with
        | none => rfl
        | some p => rw [get_size_eq g.mounted.buffers.table_ne (d := d), hs.same, Option.bind_some]
      rw [hsize]
      exact .get_size
  | list_files => exact ⟨m, .list_files (list_lists hs), hs⟩
  | restart boot htail htail' =>
      rw [(remount_from hs.sound boot).1]
      exact ⟨m, .restart, stands_restarted hs boot htail htail'⟩

/-- **Run.** -/
theorem talk_allowed {t : List (Call × Reply)} (hs : Stands d T s m) (run : Talks (Acts d T) s t s') :
    ∃ m', Talks Allows m t m' ∧ Stands d T s' m' := by
  have hstep : ∀ s m c a s', Stands d T s m → Acts d T s c a s' →
      ∃ m', Allows m c a m' ∧ Stands d T s' m' := fun _ _ _ _ _ => acts_allowed
  exact run.simulated hstep hs

/-- A file that no call writes or deletes is still there, whatever else was done. -/
theorem talk_spared {t : List (Call × Reply)} (hs : Stands d T s m) (run : Talks (Acts d T) s t s')
    (hspares : ∀ e ∈ t, e.1.Spares p) : ∃ m', Stands d T s' m' ∧ m' p = m p := by
  obtain ⟨m', hm, hs'⟩ := talk_allowed hs run
  have hstep : ∀ (m : Files) c a m', Call.Spares p c → Allows m c a m' → m' p = m p :=
    fun _ _ _ _ hc h => h.spared hc
  exact ⟨m', hs', hm.keeps (f := fun m : Files => m p) hstep hspares⟩

theorem stands_start (h : Formattable s₀ d T) (hcov : T ≤ 4096 * bitmapSectors T)
    (hnew : TailUnused (formatMount s₀ d).mem (formatMount s₀ d).file_table) :
    Stands d T (formatMount s₀ d) fun _ => none := by
  have hun := unused_of_tail h hcov hnew
  have hs := sound_start h hcov hun
  refine ⟨hs, fun i j e f he => ?_, fun p => fileOf_none hs.good.named fun i e he => ?_⟩
  · rw [hun.slot] at he
    cases he
  · rw [hun.slot] at he
    cases he

end Files

end Eke
