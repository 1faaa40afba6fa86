/-
Files under their paths.

The invariant of a run, read off at the interface: `fileOf` is a partial map from
paths to byte strings, a write updates it at one path, a delete removes one path, and
what `eke_fs_get_size` and `eke_fs_read_file` return is a function of it.  Two things
carry this: a path names at most one slot, and the blocks of two slots are disjoint,
so that the sectors one write puts down are nobody else's.
-/
import Eke.Fs.Runs

namespace Eke

variable {s s' s₀ : Sys} {d T i r bytes m : Nat} {p q : CStr} {buf : Store}

/-! ### The map from paths to files -/

/-- The bytes of an entry's file on a medium. -/
def Entry.contents (e : Entry) (sectors : Store) : List Byte :=
  (List.range e.size).map fun k => sectors (e.start_block * SECTOR_SIZE + k)

theorem contents_congr {e : Entry} {a b : Store}
    (h : ∀ k, k < e.size → a (e.start_block * SECTOR_SIZE + k) = b (e.start_block * SECTOR_SIZE + k)) :
    e.contents a = e.contents b :=
  List.map_congr_left fun k hk => h k (List.mem_range.mp hk)

theorem fileOf_found (hf : find_file s p = some i) {e : Entry} (he : (volume s d).slot i = some e) :
    fileOf s d p = some (e.contents (s.disks d).sectors) := by
  obtain ⟨-, hsize, hstart, -⟩ := slotAt_some he
  unfold fileOf Entry.contents
  rw [hf, Option.map_some, Sys.entry, hsize, hstart]

theorem fileOf_slot (hn : Named s) (h : (volume s d).Distinct) {e : Entry}
    (he : (volume s d).slot i = some e) (hp : e.name = p.chars) :
    fileOf s d p = some (e.contents (s.disks d).sectors) := by
  refine fileOf_found ((find_file_some hn).mpr ⟨⟨e, he, hp⟩, fun j f hj hf hc => ?_⟩) he
  exact absurd (h j i f e hf he (hc.trans hp.symm)) (by omega)

theorem fileOf_none (hn : Named s) (h : ∀ i e, (volume s d).slot i = some e → e.name ≠ p.chars) :
    fileOf s d p = none := by
  unfold fileOf
  rw [(find_file_none hn).mpr h]
  rfl

/-- A path that is no slot's name, or the one slot that has it. -/
theorem slot_cases (s : Sys) (d : Nat) (p : CStr) :
    (∀ i e, (volume s d).slot i = some e → e.name ≠ p.chars) ∨
      ∃ i e, (volume s d).slot i = some e ∧ e.name = p.chars := by
  by_cases h : ∃ i e, (volume s d).slot i = some e ∧ e.name = p.chars
  · exact Or.inr h
  · exact Or.inl fun i e he hc => h ⟨i, e, he, hc⟩

theorem chars_ne (h : q ≠ p) : q.chars ≠ p.chars := by
  intro hc
  cases q
  cases p
  exact h (by simpa using hc)

/-- A byte of a file is behind the metadata. -/
theorem contents_data {e : Entry} (hlo : dataStart T ≤ e.start_block) (k : Nat) :
    SECTOR_SIZE * dataStart T ≤ e.start_block * SECTOR_SIZE + k := by
  have := Nat.mul_le_mul_left SECTOR_SIZE hlo
  rw [Nat.mul_comm e.start_block]
  omega

/-- The slot a write goes to had no other file's name. -/
theorem Written.other_slot (hw : Written s s' d T i r p buf bytes) (hn : Named s) {j : Nat}
    {e : Entry} (he : (volume s d).slot j = some e) (hname : e.name ≠ p.chars) : j ≠ i := by
  rintro rfl
  rcases hw.target with hfound | ⟨-, hfree⟩
  · obtain ⟨⟨f, hf, hfn⟩, -⟩ := (find_file_some hn).mp hfound
    rw [show (volume s d).slot j = some f from hf] at he
    exact hname (Option.some.inj he ▸ hfn)
  · rw [hfree] at he
    cases he

/-- **A write stores its data under its path.** -/
theorem Written.fileOf_self (hw : Written s s' d T i r p buf bytes) (hn : Named s)
    (hd : (volume s d).Distinct) (hp : p.chars.length ≤ 31) (hfit : bytes < 2 ^ 32) :
    fileOf s' d p = some ((List.range bytes).map buf) := by
  have hslot : (volume s' d).slot i = some (newEntry p bytes r) := by
    rw [hw.slots i, if_pos rfl]
    rfl
  rw [fileOf_slot hw.good.named (hw.distinct hn hp hd) hslot (take_short hp)]
  obtain ⟨hlo, -, -⟩ := hw.good.inv.inside i _ hslot
  have hroom := (blocks_for_bounds hfit).2
  refine congrArg some (List.map_congr_left fun k hk => ?_)
  have hk : k < bytes := List.mem_range.mp hk
  have hdata := contents_data hlo k
  simp only [newEntry] at hdata ⊢
  rw [hw.sectors _ hdata, if_pos (by omega), if_pos (by omega)]
  exact congrArg buf (by omega)

/-- **A write leaves every other path's file alone.** -/
theorem Written.fileOf_other (hw : Written s s' d T i r p buf bytes) (g : Good s d T)
    (hd : (volume s d).Distinct) (hp : p.chars.length ≤ 31) (hq : q ≠ p) :
    fileOf s' d q = fileOf s d q := by
  have hd' := hw.distinct g.named hp hd
  have hslot : (volume s' d).slot i = some (newEntry p bytes r) := by
    rw [hw.slots i, if_pos rfl]
    rfl
  rcases slot_cases s d q with hnone | ⟨j, e, he, hname⟩
  · rw [fileOf_none g.named hnone]
    refine fileOf_none hw.good.named fun k f hf => ?_
    rw [hw.slots k] at hf
    split at hf
    · obtain rfl := Option.some.inj hf
      rw [take_short hp]
      exact (chars_ne hq).symm
    · exact hnone k f hf
  · have hji := hw.other_slot g.named he (by rw [hname]; exact chars_ne hq)
    have he' : (volume s' d).slot j = some e := by
      rw [hw.slots j, if_neg hji]
      exact he
    rw [fileOf_slot g.named hd he hname, fileOf_slot hw.good.named hd' he' hname]
    obtain ⟨hlo, -, hsize⟩ := g.inv.inside j e he
    refine congrArg some (contents_congr fun k hk => ?_)
    rw [hw.sectors _ (contents_data hlo k), if_neg]
    -- A sector of both files would be a block of both extents.
    intro hin
    unfold SECTOR_SIZE at hin hsize
    refine hw.good.inv.disjoint j i _ _ he' hslot hji (e.start_block + k / 512) ⟨by omega, by omega⟩
      ⟨?_, ?_⟩
    · simp only [newEntry]
      omega
    · simp only [newEntry]
      omega

theorem Deleted.distinct (hx : Deleted s s' d T i p) (hd : (volume s d).Distinct) :
    (volume s' d).Distinct := hd.erase hx.slots

/-- **A delete removes its path.** -/
theorem Deleted.fileOf_self (hx : Deleted s s' d T i p) (hn : Named s) (hd : (volume s d).Distinct) :
    find_file s' p = none := by
  refine (find_file_none hx.good.named).mpr fun j e he hc => ?_
  obtain ⟨⟨f, hf, hfn⟩, -⟩ := (find_file_some hn).mp hx.target
  have he : (volume s' d).slot j = some e := he
  rw [hx.slots j] at he
  split at he
  · cases he
  · exact absurd (hd j i e f he hf (hc.trans hfn.symm)) (by assumption)

/-- **A delete leaves every other path's file alone.** -/
theorem Deleted.fileOf_other (hx : Deleted s s' d T i p) (g : Good s d T)
    (hd : (volume s d).Distinct) (hq : q ≠ p) : fileOf s' d q = fileOf s d q := by
  rcases slot_cases s d q with hnone | ⟨j, e, he, hname⟩
  · rw [fileOf_none g.named hnone]
    refine fileOf_none hx.good.named fun k f hf => ?_
    rw [hx.slots k] at hf
    split at hf
    · cases hf
    · exact hnone k f hf
  · have hji : j ≠ i := by
      rintro rfl
      obtain ⟨⟨f, hf, hfn⟩, -⟩ := (find_file_some g.named).mp hx.target
      rw [show (volume s d).slot j = some f from hf] at he
      obtain rfl := Option.some.inj he
      exact chars_ne hq (hname.symm.trans hfn)
    have he' : (volume s' d).slot j = some e := by
      rw [hx.slots j, if_neg hji]
      exact he
    rw [fileOf_slot g.named hd he hname, fileOf_slot hx.good.named (hx.distinct hd) he' hname]
    obtain ⟨hlo, -, -⟩ := g.inv.inside j e he
    exact congrArg some (contents_congr fun k _ => hx.sectors _ (contents_data hlo k))

/-! ### The interface -/

/-- What `eke_fs_read_file` returns and leaves in the buffer. -/
def reading (s : Sys) (p : CStr) (buf : Store) (m : Nat) : Int × Option Store :=
  ((eke_fs_read_file s (some p) (some buf) m).1, (eke_fs_read_file s (some p) (some buf) m).2.1)

/-- `data` is stored under `p`: its length and every prefix of it come back. -/
structure Stored (s : Sys) (p : CStr) (data : List Byte) : Prop where
  size : eke_fs_get_size s (some p) = data.length
  read : ∀ buf m, ReadOk s p → reading s p buf m =
    (((min data.length m : Nat) : Int), some fun x => if x < min data.length m then data.getD x 0 else buf x)

/-- The results of `eke_fs_get_size` and `eke_fs_read_file` for `q` are unchanged. -/
structure SameFor (s s' : Sys) (q : CStr) : Prop where
  size : eke_fs_get_size s' (some q) = eke_fs_get_size s (some q)
  read : ∀ buf m, ReadOk s q → ReadOk s' q → reading s' q buf m = reading s q buf m

theorem stored_of_fileOf (g : Good s d T) {data : List Byte} (hlen : data.length < 2 ^ 31)
    (h : fileOf s d p = some data) : Stored s p data where
  size := by
    rw [get_size_eq g.mounted.buffers.table_ne (d := d), h]
    rfl
  read buf m hok := by
    unfold reading
    rw [read_file_eq g hok, h, readResult, toInt_of_lt (by omega)]

theorem sameFor_of_fileOf (g : Good s d T) (g' : Good s' d T) (h : fileOf s' d q = fileOf s d q) :
    SameFor s s' q where
  size := by
    rw [get_size_eq g.mounted.buffers.table_ne (d := d),
      get_size_eq g'.mounted.buffers.table_ne (d := d), h]
  read buf m hok hok' := by
    unfold reading
    rw [read_file_eq g hok, read_file_eq g' hok', h]

end Eke
