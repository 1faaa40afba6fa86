/-
The file table as a list of slots.

`slotAt` reads slot `i` of the table at `ft` the way `Volume` wants it: an entry if
the slot's `used` byte is set, nothing otherwise.  The lemmas say when two memories
show the same slot, what `str_copy` and `update_entry` leave in a slot, and that the
two searches of the file system find what they look for.
-/
import Eke.Fs.EkeFs
import Eke.Fs.Volume

namespace Eke

/-! ### Names -/

theorem cstr_congr {m m' : Store} : ∀ {n a : Nat}, (∀ x, a ≤ x → x < a + n → m x = m' x) →
    cstr m a n = cstr m' a n := by
  intro n
  induction n with
  | zero => intro a _; rfl
  | succ n ih =>
      intro a h
      simp only [cstr]
      rw [h a (Nat.le_refl a) (by omega), ih fun x hx hx' => h x (by omega) (by omega)]

/-- Comparing with a terminated name is comparing the two strings. -/
theorem str_eq_iff {m : Store} : ∀ {p : List Byte} {a n : Nat}, (cstr m a n).length < n →
    (str_eq m a p = true ↔ cstr m a n = p) := by
  intro p
  induction p with
  | nil =>
      intro a n hlt
      cases n with
      | zero => simp at hlt
      | succ n =>
          simp only [str_eq, cstr, beq_iff_eq]
          by_cases h0 : m a = 0 <;> simp [h0]
  | cons c cs ih =>
      intro a n hlt
      cases n with
      | zero => simp at hlt
      | succ n =>
          simp only [str_eq, cstr] at hlt ⊢
          by_cases h0 : m a = 0
          · simp [h0]
          · rw [if_neg h0] at hlt
            simp only [List.length_cons] at hlt
            by_cases hc : m a = c
            · rw [if_neg h0, if_pos hc, if_neg h0, ih (n := n) (by omega), List.cons.injEq]
              exact ⟨fun h => ⟨hc, h⟩, fun h => h.2⟩
            · rw [if_neg h0, if_neg hc, if_neg h0, List.cons.injEq]
              exact ⟨fun h => absurd h Bool.false_ne_true, fun h => absurd h.1 hc⟩

theorem str_copy_out {m : Store} : ∀ {p : List Byte} {room a x : Nat},
    x < a ∨ a + room + 1 ≤ x → (str_copy m a p room) x = m x := by
  intro p
  induction p generalizing m with
  | nil =>
      intro room a x hx
      simp only [str_copy]
      exact Store.set_out (by omega)
  | cons c cs ih =>
      intro room a x hx
      cases room with
      | zero =>
          simp only [str_copy]
          exact Store.set_out (by omega)
      | succ room =>
          simp only [str_copy]
          rw [ih (by omega)]
          exact Store.set_out (by omega)

/-- A copied string reads back, cut off at the room there was. -/
theorem cstr_str_copy {m : Store} : ∀ {p : List Byte} {room a n : Nat}, (∀ c ∈ p, c ≠ 0) →
    room < n → cstr (str_copy m a p room) a n = p.take room := by
  intro p
  induction p generalizing m with
  | nil =>
      intro room a n _ hn
      cases n with
      | zero => omega
      | succ n => simp [str_copy, cstr, Store.set_same]
  | cons c cs ih =>
      intro room a n hnz hn
      cases n with
      | zero => omega
      | succ n =>
          cases room with
          | zero => simp [str_copy, cstr, Store.set_same]
          | succ room =>
              have hhead : (str_copy (m.set a c) (a + 1) cs room) a = c := by
                rw [str_copy_out (by omega)]
                exact Store.set_same
              simp only [str_copy, cstr, hhead, List.take_succ_cons]
              rw [if_neg (hnz c (by simp)), ih (fun c' hc' => hnz c' (by simp [hc'])) (by omega)]

/-! ### Slots -/

/-- Slot `i` of the file table at `ft`. -/
def slotAt (m : Store) (ft i : Nat) : Option Entry :=
  if i < MAX_FILES ∧ FileEntry.used m (ft + FileEntrySize * i) = true then
    some
      { name := cstr m (ft + FileEntrySize * i) 32
        size := FileEntry.size m (ft + FileEntrySize * i)
        start_block := FileEntry.start_block m (ft + FileEntrySize * i)
        block_count := FileEntry.block_count m (ft + FileEntrySize * i) }
  else none

/-- The bytes of a slot that mean something. -/
theorem slotAt_congr {m m' : Store} {ft i : Nat}
    (h : ∀ x, ft + FileEntrySize * i ≤ x → x < ft + FileEntrySize * i + 45 → m x = m' x) :
    slotAt m ft i = slotAt m' ft i := by
  have hname : cstr m (ft + FileEntrySize * i) 32 = cstr m' (ft + FileEntrySize * i) 32 :=
    cstr_congr fun x _ _ => h x (by omega) (by omega)
  have hle : ∀ k, 32 ≤ k → k + 4 ≤ 45 →
      m.le (ft + FileEntrySize * i + k) 4 = m'.le (ft + FileEntrySize * i + k) 4 :=
    fun k _ _ => Store.le_congr fun x _ _ => h x (by omega) (by omega)
  unfold slotAt FileEntry.used FileEntry.size FileEntry.start_block FileEntry.block_count
  simp only [hname, hle 32 (by omega) (by omega), hle 36 (by omega) (by omega),
    hle 40 (by omega) (by omega), h (ft + FileEntrySize * i + 44) (by omega) (by omega)]

theorem slotAt_lt {m : Store} {ft i : Nat} {e : Entry} (h : slotAt m ft i = some e) :
    i < MAX_FILES := by
  unfold slotAt at h
  split at h
  · rename_i hc
    exact hc.1
  · cases h

theorem slotAt_used {m : Store} {ft i : Nat} (hi : i < MAX_FILES) :
    FileEntry.used m (ft + FileEntrySize * i) = (slotAt m ft i).isSome := by
  unfold slotAt
  cases FileEntry.used m (ft + FileEntrySize * i) <;> simp [hi]

/-- What an occupied slot holds. -/
theorem slotAt_some {m : Store} {ft i : Nat} {e : Entry} (h : slotAt m ft i = some e) :
    cstr m (ft + FileEntrySize * i) 32 = e.name ∧
      FileEntry.size m (ft + FileEntrySize * i) = e.size ∧
      FileEntry.start_block m (ft + FileEntrySize * i) = e.start_block ∧
      FileEntry.block_count m (ft + FileEntrySize * i) = e.block_count := by
  unfold slotAt at h
  split at h
  · obtain rfl := Option.some.inj h
    exact ⟨rfl, rfl, rfl, rfl⟩
  · cases h

/-! ### Writing a slot -/

theorem update_entry_out {m : Store} {a bytes start blocks x : Nat} {p : CStr}
    (hx : x < a ∨ a + 45 ≤ x) :
    (update_entry m a p bytes start blocks) x = m x := by
  unfold update_entry
  rw [Store.set_out (by omega), Store.setLe_out (by omega), Store.setLe_out (by omega),
    Store.setLe_out (by omega), str_copy_out (by omega)]

/-- After `update_entry` the slot holds the new entry and the other slots are as before. -/
theorem slotAt_update_entry {m : Store} {ft i bytes start blocks : Nat} {p : CStr}
    (hi : i < MAX_FILES) (hb : bytes < 2 ^ 32) (hs : start < 2 ^ 32) (hc : blocks < 2 ^ 32)
    (j : Nat) :
    slotAt (update_entry m (ft + FileEntrySize * i) p bytes start blocks) ft j =
      if j = i then
        some
          { name := p.chars.take 31, size := bytes, start_block := start, block_count := blocks }
      else slotAt m ft j := by
  by_cases hj : j = i
  · subst hj
    set a := ft + FileEntrySize * j with ha
    have hname : cstr (update_entry m a p bytes start blocks) a 32 = p.chars.take 31 := by
      unfold update_entry
      rw [← cstr_str_copy (m := m) (a := a) (n := 32) p.nonzero (show 31 < 32 by omega)]
      refine cstr_congr fun x _ _ => ?_
      rw [Store.set_out (by omega), Store.setLe_out (by omega), Store.setLe_out (by omega),
        Store.setLe_out (by omega)]
    have hused : FileEntry.used (update_entry m a p bytes start blocks) a = true := by
      unfold FileEntry.used update_entry
      rw [Store.set_same]
      rfl
    have hsize : FileEntry.size (update_entry m a p bytes start blocks) a = bytes := by
      unfold FileEntry.size update_entry
      rw [Store.le_set_out (by omega), Store.le_setLe_out (by omega),
        Store.le_setLe_out (by omega), Store.le_setLe_of_lt (by omega)]
    have hstart : FileEntry.start_block (update_entry m a p bytes start blocks) a = start := by
      unfold FileEntry.start_block update_entry
      rw [Store.le_set_out (by omega), Store.le_setLe_out (by omega),
        Store.le_setLe_of_lt (by omega)]
    have hcount : FileEntry.block_count (update_entry m a p bytes start blocks) a = blocks := by
      unfold FileEntry.block_count update_entry
      rw [Store.le_set_out (by omega), Store.le_setLe_of_lt (by omega)]
    rw [if_pos rfl]
    unfold slotAt
    rw [if_pos ⟨hi, hused⟩, hname, hsize, hstart, hcount]
  · rw [if_neg hj]
    unfold FileEntrySize
    exact slotAt_congr fun x hx hx' => update_entry_out (by unfold FileEntrySize at hx hx'; omega)

/-- Clearing the `used` byte and the name empties the slot and no other. -/
theorem slotAt_clear {m : Store} {ft i : Nat} (j : Nat) :
    slotAt ((m.set (ft + FileEntrySize * i + 44) 0).set (ft + FileEntrySize * i) 0) ft j =
      if j = i then none else slotAt m ft j := by
  by_cases hj : j = i
  · subst hj
    rw [if_pos rfl]
    unfold slotAt FileEntry.used
    rw [Store.set_out (by omega), Store.set_same]
    simp
  · rw [if_neg hj]
    refine slotAt_congr fun x hx hx' => ?_
    unfold FileEntrySize at *
    rw [Store.set_out (by omega), Store.set_out (by omega)]

/-! ### The two searches -/

section Searches

variable {s : Sys} {p : CStr} {i : Nat}

/-- The names of the occupied slots are terminated. -/
def Named (s : Sys) : Prop :=
  ∀ i e, slotAt s.mem s.file_table i = some e → e.name.length < 32

theorem slot_match {e : Entry} (hn : Named s) (hs : slotAt s.mem s.file_table i = some e) :
    str_eq s.mem (s.entry i) p.chars = true ↔ e.name = p.chars := by
  have hname := (slotAt_some hs).1
  have hlen := hn i e hs
  rw [← hname] at hlen ⊢
  exact str_eq_iff hlen

/-- The test of the search, on the slot. -/
theorem slot_test (hn : Named s) (hi : i < MAX_FILES) :
    (FileEntry.used s.mem (s.entry i) && str_eq s.mem (s.entry i) p.chars) = true ↔
      ∃ e, slotAt s.mem s.file_table i = some e ∧ e.name = p.chars := by
  rw [Bool.and_eq_true, Sys.entry, slotAt_used hi, Option.isSome_iff_exists]
  constructor
  · rintro ⟨⟨e, he⟩, heq⟩
    exact ⟨e, he, (slot_match hn he).mp heq⟩
  · rintro ⟨e, he, hname⟩
    exact ⟨⟨e, he⟩, (slot_match hn he).mpr hname⟩

/-- `find_file` is the first slot with the name. -/
theorem find_file_some (hn : Named s) :
    find_file s p = some i ↔ (∃ e, slotAt s.mem s.file_table i = some e ∧ e.name = p.chars) ∧
      ∀ j e, j < i → slotAt s.mem s.file_table j = some e → e.name ≠ p.chars := by
  unfold find_file
  rw [List.find?_range_eq_some, List.mem_range]
  constructor
  · rintro ⟨hmatch, hi, hfirst⟩
    refine ⟨(slot_test hn hi).mp hmatch, fun j e hj he hc => ?_⟩
    have := hfirst j hj
    rw [(slot_test hn (by omega)).mpr ⟨e, he, hc⟩] at this
    cases this
  · rintro ⟨⟨e, he, hname⟩, hfirst⟩
    have hi := slotAt_lt he
    refine ⟨(slot_test hn hi).mpr ⟨e, he, hname⟩, hi, fun j hj => ?_⟩
    rw [Bool.not_eq_true', Bool.eq_false_iff]
    intro hc
    obtain ⟨f, hf, hfn⟩ := (slot_test hn (by omega)).mp hc
    exact hfirst j f hj hf hfn

theorem find_file_none (hn : Named s) :
    find_file s p = none ↔ ∀ i e, slotAt s.mem s.file_table i = some e → e.name ≠ p.chars := by
  unfold find_file
  rw [List.find?_eq_none]
  constructor
  · intro h i e he hc
    exact h i (List.mem_range.mpr (slotAt_lt he)) ((slot_test hn (slotAt_lt he)).mpr ⟨e, he, hc⟩)
  · intro h i hi hc
    obtain ⟨e, he, hname⟩ := (slot_test hn (List.mem_range.mp hi)).mp hc
    exact h i e he hname

theorem find_free_some (h : find_free s = some i) :
    i < MAX_FILES ∧ slotAt s.mem s.file_table i = none := by
  have hi : i < MAX_FILES := List.mem_range.mp (List.mem_of_find?_eq_some h)
  have hu := List.find?_some h
  rw [Sys.entry, slotAt_used hi] at hu
  exact ⟨hi, by simpa using hu⟩

/-- There is no free slot exactly when all 64 are occupied. -/
theorem find_free_none :
    find_free s = none ↔ ∀ i, i < MAX_FILES → slotAt s.mem s.file_table i ≠ none := by
  unfold find_free
  rw [List.find?_eq_none]
  constructor
  · intro h i hi hc
    have := h i (List.mem_range.mpr hi)
    rw [Sys.entry, slotAt_used hi, hc] at this
    simp at this
  · intro h i hi
    rw [Sys.entry, slotAt_used (List.mem_range.mp hi)]
    have := h i (List.mem_range.mp hi)
    cases hs : slotAt s.mem s.file_table i with
    | none => exact absurd hs this
    | some e => simp

end Searches

end Eke
