/-
The entry point in the header of a module.

The header names the place of a function by its offset.  The generator finds it in the function
table, which knows the first 128 functions of the text by their names, prototypes among them.
Which function that is, and where its code starts, is said on the global table and the listing;
nothing is assumed of the other tables, which may be full.
-/
import Eke.Compiler.Calls

namespace Eke

open Gen Store X86

variable {g g' g'' : Gen} {bs : List Byte} {xs ys : List Item} {i : Item}

/-! ### Code that may not fit -/

theorem emit_byte_room {b : Byte} (h : g.code_len < CODE_BUF_SIZE) : g.emit_byte b =
    { g with code_buf := g.code_buf.set g.code_len b, code_len := g.code_len + 1 } := by
  unfold emit_byte
  rw [if_pos h]

/-- The code grows up to the end of the buffer. -/
theorem emit_bytes_min (h : g.code_len ≤ CODE_BUF_SIZE) :
    (g.emit_bytes bs).code_len = min CODE_BUF_SIZE (g.code_len + bs.length) := by
  induction bs generalizing g with
  | nil => exact (Nat.min_eq_right h).symm
  | cons b bs ih =>
      change (emit_bytes bs (emit_byte b g)).code_len = _
      rw [List.length_cons]
      by_cases hlt : g.code_len < CODE_BUF_SIZE
      · have hone : (emit_byte b g).code_len = g.code_len + 1 := by rw [emit_byte_room hlt]
        rw [ih (by omega), hone, Nat.add_right_comm, Nat.add_assoc]
      · have hone : (emit_byte b g).code_len = g.code_len := by
          unfold emit_byte
          rw [if_neg hlt]
        rw [ih (by omega), hone]
        omega

/-- Bytes for which there is room. -/
theorem emit_bytes_there (h : g.code_len + bs.length ≤ CODE_BUF_SIZE) {k : Nat} (hk : k < bs.length) :
    (g.emit_bytes bs).code_buf (g.code_len + k) = bs[k] := by
  induction bs generalizing g k with
  | nil => exact absurd hk (Nat.not_lt_zero k)
  | cons b bs ih =>
      rw [List.length_cons] at h hk
      have hone := emit_byte_room (b := b) (show g.code_len < CODE_BUF_SIZE by omega)
      have hlen : (emit_byte b g).code_len = g.code_len + 1 := by rw [hone]
      change (emit_bytes bs (emit_byte b g)).code_buf _ = _
      cases k with
      | zero =>
          rw [emit_bytes_buf (by omega), hone]
          exact set_same
      | succ k =>
          have hrest := ih (g := emit_byte b g) (by omega) (k := k) (by omega)
          rw [hlen, Nat.add_assoc, Nat.add_comm 1 k] at hrest
          rw [hrest, List.getElem_cons_succ]

theorem emit_item_min (h : g.code_len ≤ CODE_BUF_SIZE) :
    (emit_item i g).code_len = min CODE_BUF_SIZE (g.code_len + i.size) := by
  have hmin := fun bs : List Byte => @emit_bytes_min g bs h
  have hle : ∀ bs : List Byte, (g.emit_bytes bs).code_len ≤ CODE_BUF_SIZE := fun bs => by
    rw [hmin]
    exact Nat.min_le_left _ _
  have hsame : g.code_len = min CODE_BUF_SIZE (g.code_len + 0) := (Nat.min_eq_right h).symm
  cases i with
  | ins i => exact hmin i.bytes
  | jump op l =>
      simp only [emit_item, emit_u32_eq, Item.size]
      rw [emit_bytes_min (by rw [add_fixup_len]; exact hle _), add_fixup_len, hmin, length_leBytes]
      omega
  | test op l =>
      simp only [emit_item, emit_u32_eq, Item.size]
      rw [emit_bytes_min (by rw [add_fixup_len]; exact hle _), add_fixup_len, hmin, length_leBytes]
      omega
  | call name =>
      simp only [emit_item, emit_call_rel, Item.size]
      split
      · rw [emit_u32_eq, emit_bytes_min (hle _), hmin, length_leBytes]
        simp only [List.length_singleton]
        omega
      · rw [emit_u32_eq, emit_bytes_min (by rw [add_fixup_len]; exact hle _), add_fixup_len, hmin,
          length_leBytes]
        simp only [List.length_singleton]
        omega
  | lea s =>
      have hpool : (g.add_to_string_pool s).2.code_len = g.code_len := rfl
      have hlea := @emit_bytes_min (g.add_to_string_pool s).2 [0x48, 0x8D, 0x05] h
      simp only [emit_item, emit_u32_eq, Item.size]
      rw [emit_bytes_min (by rw [add_str_fixup_len, hlea]; exact Nat.min_le_left _ _), add_str_fixup_len,
        hlea, hpool, length_leBytes]
      simp only [List.length_cons, List.length_nil]
      omega
  | func name =>
      simp only [emit_item, register_func]
      split
      · exact hsame
      · exact hsame
  | alloc =>
      simp only [emit_item, alloc_label]
      split
      · exact hsame
      · exact hsame
  | mark l =>
      simp only [emit_item, mark_label]
      split
      · exact hsame
      · exact hsame
  | visit => exact hsame
  | drop => exact hsame
  | skip => exact hsame
  | cut => exact hsame

/-- A listing takes its size, as far as there is room. -/
theorem emit_items_min (h : g.code_len ≤ CODE_BUF_SIZE) :
    (emit_items xs g).code_len = min CODE_BUF_SIZE (g.code_len + size xs) := by
  induction xs generalizing g with
  | nil => exact (Nat.min_eq_right h).symm
  | cons i xs ih =>
      have hone := emit_item_min (i := i) h
      rw [emit_items_cons, ih (by omega), hone, size_cons]
      omega

/-! ### Holes in code that may not fit -/

/-- The holes of the fixups that were added lie in the code that was added; their four bytes do
if there is room left. -/
structure Sited (g g' : Gen) : Prop extends Grown g g' where
  site : ∀ i, g.num_fixups ≤ i → i < g'.num_fixups → g.code_len ≤ (g'.fixups i).patch_pos ∧
    (g'.code_len < CODE_BUF_SIZE → (g'.fixups i).patch_pos + 4 ≤ g'.code_len)
  strSite : ∀ i, g.num_str_fixups ≤ i → i < g'.num_str_fixups →
    g.code_len ≤ (g'.str_fixups i).lea_disp_pos ∧
      (g'.code_len < CODE_BUF_SIZE → (g'.str_fixups i).lea_disp_pos + 4 ≤ g'.code_len)

theorem Sited.trans (h : Sited g g') (h' : Sited g' g'') : Sited g g'' where
  toGrown := h.toGrown.trans h'.toGrown
  site i hi hi' := by
    rcases Nat.lt_or_ge i g'.num_fixups with hlt | hge
    · rw [h'.fix i hlt]
      obtain ⟨hle, hin⟩ := h.site i hi hlt
      exact ⟨hle, fun hroom =>
        Nat.le_trans (hin (Nat.lt_of_le_of_lt h'.len hroom)) h'.len⟩
    · obtain ⟨hle, hin⟩ := h'.site i hge hi'
      exact ⟨Nat.le_trans h.len hle, hin⟩
  strSite i hi hi' := by
    rcases Nat.lt_or_ge i g'.num_str_fixups with hlt | hge
    · rw [h'.strFix i hlt]
      obtain ⟨hle, hin⟩ := h.strSite i hi hlt
      exact ⟨hle, fun hroom =>
        Nat.le_trans (hin (Nat.lt_of_le_of_lt h'.len hroom)) h'.len⟩
    · obtain ⟨hle, hin⟩ := h'.strSite i hge hi'
      exact ⟨Nat.le_trans h.len hle, hin⟩

/-- Code without new holes. -/
theorem Grown.sited (h : Grown g g') (hnum : g'.num_fixups = g.num_fixups)
    (hstr : g'.num_str_fixups = g.num_str_fixups) : Sited g g' :=
  ⟨h, fun i hi hi' => absurd hi' (by omega), fun i hi hi' => absurd hi' (by omega)⟩

theorem emit_bytes_sited : Sited g (g.emit_bytes bs) := emit_bytes_grown.sited (by simp) (by simp)

theorem Sited.refl : Sited g g := Grown.refl.sited rfl rfl

/-- Where room is left, all bytes were emitted. -/
theorem emit_bytes_full (h : (g.emit_bytes bs).code_len < CODE_BUF_SIZE) :
    (g.emit_bytes bs).code_len = g.code_len + bs.length := by
  have hle : g.code_len ≤ CODE_BUF_SIZE := Nat.le_trans emit_bytes_len_le (Nat.le_of_lt h)
  rw [emit_bytes_min hle] at h ⊢
  omega

theorem fixup_sited (f : Fixup → Fixup) : Sited g ((g.add_fixup f).emit_u32 0) where
  toGrown := fixup_grown f
  site i hi hi' := by
    rw [emit_u32_eq] at hi' ⊢
    rw [emit_bytes_num] at hi'
    have hpos : ((g.add_fixup f).fixups i).patch_pos = g.code_len := by
      unfold add_fixup at hi' ⊢
      split
      · rename_i hlt
        rw [if_pos hlt] at hi'
        obtain rfl : i = g.num_fixups := by simp only at hi'; omega
        exact congrArg Fixup.patch_pos (if_pos rfl)
      · rename_i hlt
        rw [if_neg hlt] at hi'
        exact absurd hi' (Nat.not_lt_of_le hi)
    rw [emit_bytes_fixups, hpos]
    refine ⟨Nat.le_refl _, fun hroom => ?_⟩
    rw [emit_bytes_full hroom, add_fixup_len, length_leBytes]
  strSite i hi hi' := by
    rw [emit_u32_eq, emit_bytes_str_num, add_fixup_str_num] at hi'
    exact absurd hi' (Nat.not_lt_of_le hi)

theorem str_fixup_sited (off : Nat) : Sited g ((g.add_str_fixup off).emit_u32 0) where
  toGrown := str_fixup_grown off
  site i hi hi' := by
    rw [emit_u32_eq, emit_bytes_num, add_str_fixup_num] at hi'
    exact absurd hi' (Nat.not_lt_of_le hi)
  strSite i hi hi' := by
    rw [emit_u32_eq] at hi' ⊢
    rw [emit_bytes_str_num] at hi'
    rw [emit_bytes_str_fixups, add_str_fixup_new hi hi']
    refine ⟨Nat.le_refl _, fun hroom => ?_⟩
    rw [emit_bytes_full hroom, add_str_fixup_len, length_leBytes]

theorem emit_item_sited (i : Item) (g : Gen) : Sited g (emit_item i g) := by
  cases i with
  | ins i => exact emit_bytes_sited
  | jump op l => exact emit_bytes_sited.trans (fixup_sited _)
  | test op l => exact emit_bytes_sited.trans (fixup_sited _)
  | call name =>
      simp only [emit_item, emit_call_rel]
      split
      · rw [emit_u32_eq]
        exact emit_bytes_sited.trans emit_bytes_sited
      · exact emit_bytes_sited.trans (fixup_sited _)
  | lea s =>
      have hpool := (add_to_string_pool_grown (g := g) s).sited rfl rfl
      exact (hpool.trans emit_bytes_sited).trans (str_fixup_sited _)
  | func name =>
      refine (emit_item_grown (.func name) g).sited ?_ ?_
      · simp only [emit_item, register_func]
        split <;> rfl
      · simp only [emit_item, register_func]
        split <;> rfl
  | alloc =>
      refine (emit_item_grown .alloc g).sited ?_ ?_
      · simp only [emit_item, alloc_label]
        split <;> rfl
      · simp only [emit_item, alloc_label]
        split <;> rfl
  | mark l =>
      refine (emit_item_grown (.mark l) g).sited ?_ ?_
      · simp only [emit_item, mark_label]
        split <;> rfl
      · simp only [emit_item, mark_label]
        split <;> rfl
  | visit => exact visit_grown.sited rfl rfl
  | drop => exact drop_grown.sited rfl rfl
  | skip => exact skipStore_grown.sited rfl rfl
  | cut => exact Sited.refl

theorem emit_items_sited : ∀ (xs : List Item) (g : Gen), Sited g (emit_items xs g) := by
  intro xs
  induction xs with
  | nil => exact fun g => Sited.refl
  | cons i xs ih => exact fun g => (emit_item_sited i g).trans (ih _)

theorem nop_align_sited : ∀ (n : Nat) (g : Gen), Sited g (nop_align n g) := by
  intro n
  induction n with
  | zero => exact fun g => Sited.refl
  | succ n ih =>
      intro g
      simp only [nop_align]
      split
      · exact (@emit_bytes_sited _ [0x90]).trans (ih _)
      · exact Sited.refl

/-- Bytes for which there was room stand in the finished binary, whatever else was lost. -/
theorem bytes_finished {G : Gen} {F : Store} {start : Nat} (hF : Patched G start F)
    (hfirst : Sited g g') (hnone : g.num_fixups = 0 ∧ g.num_str_fixups = 0) (h64 : 64 ≤ g'.code_len)
    (hroom : g'.code_len + bs.length ≤ CODE_BUF_SIZE) (hG : Sited (g'.emit_bytes bs) G) :
    BytesAt F g'.code_len bs := by
  intro k hk
  have hlen := @emit_bytes_min g' bs (by omega)
  have hbefore : g'.code_len < CODE_BUF_SIZE := by omega
  rw [hF.plain _ (by omega), hG.buf _ (by omega), emit_bytes_there hroom hk]
  · intro j hj
    rcases Nat.lt_or_ge j g'.num_fixups with hlt | hge
    · rw [hG.fix j (by simpa using hlt), emit_bytes_fixups]
      have hin := (hfirst.site j (by omega) hlt).2 hbefore
      omega
    · have hout := (hG.site j (by simpa using hge) hj).1
      omega
  · intro j hj
    rcases Nat.lt_or_ge j g'.num_str_fixups with hlt | hge
    · rw [hG.strFix j (by simpa using hlt), emit_bytes_str_fixups]
      have hin := (hfirst.strSite j (by omega) hlt).2 hbefore
      omega
    · have hout := (hG.strSite j (by simpa using hge) hj).1
      omega

/-! ### The function table -/

/-- What the table keeps of a function. -/
def FuncSym.clip (e : FuncSym) : FuncSym := ⟨e.name.take 63, min CODE_BUF_SIZE e.offset⟩

/-- The table holds the first 128 functions of the listing. -/
theorem items_table : ∀ {xs : List Item} {g : Gen} {p : Nat}, g.code_len = min CODE_BUF_SIZE p →
    (emit_items xs g).func_table =
      g.func_table ++ ((entries p xs).map FuncSym.clip).take (128 - g.func_table.length) := by
  intro xs
  induction xs with
  | nil => intro g p _; simp [entries]
  | cons i xs ih =>
      intro g p hp
      have hlen := emit_item_min (i := i) (show g.code_len ≤ CODE_BUF_SIZE by omega)
      have hnext : (emit_item i g).code_len = min CODE_BUF_SIZE (p + i.size) := by omega
      have hother : (emit_item i g).func_table = g.func_table → entries p (i :: xs) = entries (p + i.size) xs →
          (emit_items (i :: xs) g).func_table =
            g.func_table ++ ((entries p (i :: xs)).map FuncSym.clip).take (128 - g.func_table.length) := by
        intro hsame hentries
        rw [emit_items_cons, ih hnext, hsame, hentries]
      cases i with
      | func name =>
          rw [emit_items_cons, ih hnext]
          simp only [emit_item, register_func, entries, Item.size, Nat.add_zero, List.map_cons]
          split
          · rename_i hlt
            have hroom : 128 - g.func_table.length = 128 - (g.func_table.length + 1) + 1 := by omega
            rw [List.length_append, List.length_singleton, hroom, List.take_succ_cons, List.append_assoc,
              FuncSym.clip, ← hp]
            rfl
          · rename_i hlt
            rw [Nat.sub_eq_zero_of_le (Nat.le_of_not_lt hlt)]
            rfl
      | call name =>
          refine hother ?_ rfl
          simp only [emit_item, emit_call_rel]
          split <;> simp [emit_u32_eq]
      | alloc =>
          refine hother ?_ rfl
          simp only [emit_item, alloc_label]
          split <;> rfl
      | mark l =>
          refine hother ?_ rfl
          simp only [emit_item, mark_label]
          split <;> rfl
      | ins i => exact hother (by simp [emit_item]) rfl
      | jump op l => exact hother (by simp [emit_item, emit_u32_eq]) rfl
      | test op l => exact hother (by simp [emit_item, emit_u32_eq]) rfl
      | lea s => exact hother (by simp [emit_item, emit_u32_eq, add_to_string_pool]) rfl
      | visit => exact hother rfl rfl
      | drop => exact hother rfl rfl
      | skip => exact hother rfl rfl
      | cut => exact hother rfl rfl

/-! ### The functions of a text -/

/-- The first entry of the global table with a property, with what stands in front of it. -/
def FirstEntry (P : Node → Prop) (gt ps : List Node) (d : Node) : Prop :=
  (∃ qs, gt = ps ++ d :: qs) ∧ P d ∧ ∀ q ∈ ps, ¬ P q

/-- How many functions there are, prototypes among them. -/
def functionCount (ps : List Node) : Nat := ps.countP fun q => q.funcName.isSome

/-- The first entry stands in front of every other one. -/
theorem FirstEntry.before {P : Node → Prop} {gt ps ps' qs' : List Node} {d d' : Node}
    (h : FirstEntry P gt ps d) (hgt : gt = ps' ++ d' :: qs') (hd' : P d') : ∃ rs, ps' = ps ++ rs := by
  obtain ⟨⟨qs, rfl⟩, -, hps⟩ := h
  obtain ⟨rs, hrs, -⟩ | ⟨rs, hrs, hqs⟩ := List.append_eq_append_iff.mp hgt
  · exact ⟨rs, hrs⟩
  · cases rs with
    | nil => exact ⟨[], by rw [hrs, List.append_nil, List.append_nil]⟩
    | cons r rs =>
        obtain ⟨rfl, -⟩ := List.cons.inj hqs
        exact absurd hd' (hps d' (by rw [hrs]; simp))

theorem FirstEntry.unique {P : Node → Prop} {gt ps ps' : List Node} {d d' : Node}
    (h : FirstEntry P gt ps d) (h' : FirstEntry P gt ps' d') : ps = ps' := by
  obtain ⟨qs, hqs⟩ := h.1
  obtain ⟨qs', hqs'⟩ := h'.1
  obtain ⟨rs, hrs⟩ := h.before hqs' h'.2.1
  obtain ⟨rs', hrs'⟩ := h'.before hqs h.2.1
  have hlen := congrArg List.length (hrs.trans (congrArg (· ++ rs) hrs'))
  rw [List.length_append, List.length_append] at hlen
  rw [hrs, List.eq_nil_of_length_eq_zero (l := rs) (by omega), List.append_nil]

theorem firstEntry_or {P : Node → Prop} : ∀ gt : List Node,
    (∃ ps d, FirstEntry P gt ps d) ∨ ∀ q ∈ gt, ¬ P q := by
  intro gt
  induction gt with
  | nil => exact .inr nofun
  | cons q gt ih =>
      by_cases hq : P q
      · exact .inl ⟨[], q, ⟨gt, rfl⟩, hq, nofun⟩
      obtain ⟨ps, d, ⟨qs, hqs⟩, hd, hps⟩ | hnone := ih
      · refine .inl ⟨q :: ps, d, ⟨qs, congrArg (q :: ·) hqs⟩, hd, fun r hr => ?_⟩
        rcases List.mem_cons.mp hr with rfl | hr
        · exact hq
        · exact hps r hr
      · refine .inr fun r hr => ?_
        rcases List.mem_cons.mp hr with rfl | hr
        · exact hq
        · exact hnone r hr

section

variable (A : Addresses)

theorem entries_length : ∀ (ps : List Node) (n p : Nat),
    (entries p (table_items A .code ps n)).length = functionCount ps := by
  intro ps
  induction ps with
  | nil => exact fun _ _ => rfl
  | cons q ps ih =>
      intro n p
      simp only [table_items, entries_append, List.length_append, entry_entries, ih, functionCount,
        List.countP_cons]
      cases q.funcName with
      | none => simp
      | some name => simp [Nat.add_comm]

/-- The entries around one of the global table. -/
theorem entries_split (ps qs : List Node) (d : Node) {w : Name} (hd : d.funcName = some w) :
    ∃ E, entries 64 (listing A (ps ++ d :: qs)) =
      entries 64 (listing A ps) ++ ⟨w, 64 + size (listing A ps)⟩ :: E := by
  unfold listing
  rw [table_append, entries_append]
  simp only [table_items, entries_append, entry_entries, hd]
  exact ⟨_, rfl⟩

theorem take_clip {name w : Name} (hw : w.length < 63) (h : name.take 63 = w) : name = w := by
  have hlen := congrArg List.length h
  rw [List.length_take] at hlen
  rw [← h, List.take_of_length_le (by omega)]

theorem clip_name {e : FuncSym} {w : Name} (hw : w.length < 63) (h : decide (e.clip.name = w) = true) :
    e.name = w :=
  take_clip hw (of_decide_eq_true h)

/-! ### Where the code of a function starts -/

variable (gt : List Node) (g : Gen)

/-- Where the code behind the entries `ps` starts. -/
def entryStart (ps : List Node) : Nat := (emit_entries A ps g.reset).code_len

theorem entryStart_eq (ps : List Node) :
    entryStart A g ps = min CODE_BUF_SIZE (64 + size (listing A ps)) := by
  unfold entryStart
  rw [emit_entries_items, emit_items_min (show (64 : Nat) ≤ 65536 by decide)]
  rfl

theorem entryStart_le (ps : List Node) : entryStart A g ps ≤ CODE_BUF_SIZE := by
  rw [entryStart_eq]
  exact Nat.min_le_left _ _

theorem listing_size (ps qs : List Node) (d : Node) (hd : d.funcName.isSome) :
    size (listing A ps) + 4 ≤ size (listing A (ps ++ d :: qs)) := by
  have hentry : ∀ n, 4 ≤ size (entry_items A .code d n) := by
    intro n
    cases d with
    | null => cases hd
    | mk t k ix nx =>
        cases k with
        | func name args body ret localvarbyte argcount =>
            have hpro := prologue_size (BitVec.ofInt 32 localvarbyte + 32)
            simp only [entry_items, size_append]
            omega
        | _ => cases hd
  unfold listing
  rw [table_append]
  simp only [table_items, size_append]
  have := hentry (1 + allocs (table_items A .code ps 1))
  omega

/-- Two functions whose code starts at the same place in front of the end are one. -/
theorem entryStart_inj {ps ps' qs qs' : List Node} {d d' : Node} (h : ps ++ d :: qs = ps' ++ d' :: qs')
    (hd : d.funcName.isSome) (hd' : d'.funcName.isSome) (hstart : entryStart A g ps = entryStart A g ps')
    (hroom : entryStart A g ps < CODE_BUF_SIZE) : ps = ps' ∧ d = d' := by
  have hshort : ∀ {as as' bs bs' : List Node} {c c' : Node}, as ++ c :: bs = as' ++ c' :: bs' →
      c.funcName.isSome → entryStart A g as = entryStart A g as' → entryStart A g as < CODE_BUF_SIZE →
        ¬ as.length < as'.length := by
    intro as as' bs bs' c c' heq hc hsame hlt hlen
    obtain ⟨cs, rfl⟩ : ∃ cs, as' = as ++ c :: cs := by
      obtain ⟨ds, rfl, hds⟩ | ⟨ds, rfl, hds⟩ := List.append_eq_append_iff.mp heq
      · cases ds with
        | nil => simp at hlen
        | cons e ds =>
            obtain ⟨rfl, -⟩ := List.cons.inj hds
            exact ⟨ds, rfl⟩
      · rw [List.length_append] at hlen
        omega
    have hsize := listing_size A as cs c hc
    rw [entryStart_eq] at hsame hlt
    rw [entryStart_eq] at hsame
    omega
  have hlen : ps.length = ps'.length := by
    have h₁ := hshort h hd hstart hroom
    have h₂ := hshort h.symm hd' hstart.symm (hstart ▸ hroom)
    omega
  obtain ⟨hps, hds⟩ := List.append_inj h hlen
  exact ⟨hps, (List.cons.inj hds).1⟩

theorem module_table : (module_code A gt g).func_table =
    ((entries 64 (listing A gt)).map FuncSym.clip).take 128 := by
  rw [module_code_eq, emit_bytes_funcs, nop_align_funcs,
    items_table (p := 64) (show g.reset.code_len = min CODE_BUF_SIZE 64 by rfl)]
  rfl

/-- The function of a name. -/
def Bears (w : Name) (q : Node) : Prop := q.funcName = some w

variable {gt}

/-- A function that the table knows. -/
theorem find_known {ps : List Node} {d : Node} {w : Name} (hw : w.length < 63)
    (h : FirstEntry (Bears w) gt ps d) (hcount : functionCount ps < 128) :
    (module_code A gt g).find_func_offset w = entryStart A g ps := by
  obtain ⟨⟨qs, rfl⟩, hd, hps⟩ := h
  obtain ⟨E, hE⟩ := entries_split A ps qs d hd
  have hlen := entries_length A ps 1 64
  have hroom : 128 - functionCount ps = 128 - functionCount ps - 1 + 1 := by omega
  have hbefore : ((entries 64 (listing A ps)).map FuncSym.clip).find? (fun f => f.name = w) = none := by
    rw [List.find?_eq_none]
    intro f hf heq
    obtain ⟨e, he, rfl⟩ := List.mem_map.mp hf
    obtain ⟨⟨q, hq, hname⟩, -⟩ := table_entry A ps 1 64 e he
    exact hps q hq (hname.trans (congrArg some (clip_name hw heq)))
  unfold find_func_offset
  rw [module_table, hE, List.map_append, List.take_append, List.length_map, hlen, List.find?_append,
    List.take_of_length_le (by rw [List.length_map, hlen]; omega), hbefore, Option.none_or, hroom,
    List.map_cons, List.take_succ_cons, List.find?_cons_of_pos]
  · rw [entryStart_eq]
    rfl
  · simp [FuncSym.clip, List.take_of_length_le (Nat.le_of_lt hw)]

/-- A function that the table does not know. -/
theorem find_unknown {w : Name} (hw : w.length < 63)
    (h : ∀ ps d, FirstEntry (Bears w) gt ps d → 128 ≤ functionCount ps) :
    (module_code A gt g).find_func_offset w = -1 := by
  have hnone : ((((entries 64 (listing A gt)).map FuncSym.clip).take 128).find? fun f => f.name = w) = none := by
    rw [List.find?_eq_none]
    intro f hf heq
    obtain ⟨ps, d, hfirst⟩ | hnever := firstEntry_or (P := Bears w) gt
    · obtain ⟨⟨qs, rfl⟩, hd, hps⟩ := hfirst
      obtain ⟨E, hE⟩ := entries_split A ps qs d hd
      have hlong : 128 ≤ (entries 64 (listing A ps)).length := by
        rw [entries_length]
        exact h ps d ⟨⟨qs, rfl⟩, hd, hps⟩
      rw [hE, List.map_append, List.take_append_of_le_length (by rw [List.length_map]; exact hlong)] at hf
      obtain ⟨e, he, rfl⟩ := List.mem_map.mp (List.mem_of_mem_take hf)
      obtain ⟨⟨q, hq, hname⟩, -⟩ := table_entry A ps 1 64 e he
      exact hps q hq (hname.trans (congrArg some (clip_name hw heq)))
    · obtain ⟨e, he, rfl⟩ := List.mem_map.mp (List.mem_of_mem_take hf)
      obtain ⟨⟨q, hq, hname⟩, -⟩ := table_entry A gt 1 64 e he
      exact hnever q hq (hname.trans (congrArg some (clip_name hw heq)))
  unfold find_func_offset
  rw [module_table, hnone]

/-! ### The prologue of a function -/

/-- The bytes of a prologue. -/
def prologueBytes (local_bytes : BitVec 32) : List Byte :=
  [0x55, 0x48, 0x89, 0xE5] ++
    if BitVec.slt 0 (frameBytes local_bytes) then
      [0x48, 0x81, 0xEC] ++ leBytes 4 (frameBytes local_bytes).toNat
    else []

/-- The prologue of a function of the text. -/
def Node.prologue : Node → List Byte
  | .mk _ (.func _ _ _ _ localvarbyte _) _ _ => prologueBytes (BitVec.ofInt 32 localvarbyte + 32)
  | _ => []

theorem emit_prologue_bytes (n : BitVec 32) : g.emit_prologue n = g.emit_bytes (prologueBytes n) := by
  unfold emit_prologue prologueBytes
  split
  · rw [emit_u32_eq]
    simp only [emit_bytes, List.foldl_append]
    rfl
  · rfl

theorem prologue_nonempty {d : Node} (hd : d.funcName.isSome) : 0 < d.prologue.length := by
  cases d with
  | null => cases hd
  | mk t k ix nx =>
      cases k with
      | func name args body ret localvarbyte argcount =>
          simp only [Node.prologue, prologueBytes, List.length_append, List.length_cons]
          omega
      | _ => cases hd

variable {A}

theorem emit_entries_sited (ps : List Node) : Sited g (emit_entries A ps g) := by
  rw [emit_entries_items]
  exact emit_items_sited _ _

/-- The code of a function begins with its prologue. -/
theorem entry_begins {d : Node} (hd : d.funcName.isSome) (g : Gen) : ∃ g', g'.code_len = g.code_len ∧
    Sited g g' ∧ Sited (g'.emit_bytes d.prologue) (emit_entry A d g) := by
  cases d with
  | null => cases hd
  | mk t k ix nx =>
      cases k with
      | func name args body ret localvarbyte argcount =>
          refine ⟨g.register_func name g.code_len, ?_, emit_item_sited (.func name) g, ?_⟩
          · unfold register_func
            split <;> rfl
          · simp only [emit_entry, Node.prologue]
            rw [← emit_prologue_bytes, gen_items, epilogue_items_eq]
            exact (emit_items_sited _ _).trans (emit_items_sited _ _)
      | _ => cases hd

/-- Where there is room for it, the prologue of a function stands where its code starts. -/
theorem prologue_finished (mod_name : Option Name) (mod_type : BitVec 32) (ps qs : List Node) {d : Node}
    (hd : d.funcName.isSome) (hroom : entryStart A g ps + d.prologue.length ≤ CODE_BUF_SIZE) :
    BytesAt (codegen_x86_emit A (ps ++ d :: qs) mod_name mod_type g).1 (entryStart A g ps) d.prologue ∧
      entryStart A g ps + d.prologue.length ≤
        (codegen_x86_emit A (ps ++ d :: qs) mod_name mod_type g).2.1 := by
  obtain ⟨hF, hlen⟩ := codegen_patched A (ps ++ d :: qs) mod_name mod_type g
  obtain ⟨g', hstart, hfirst, hrest⟩ := entry_begins (A := A) hd (emit_entries A ps g.reset)
  have hstart' : g'.code_len = entryStart A g ps := hstart
  have hall : Sited (g'.emit_bytes d.prologue) (module_code A (ps ++ d :: qs) g) := by
    have hcode : emit_entries A (ps ++ d :: qs) g.reset =
        emit_entries A qs (emit_entry A d (emit_entries A ps g.reset)) := List.foldl_append ..
    unfold module_code
    rw [hcode]
    exact ((hrest.trans (emit_entries_sited _ qs)).trans (nop_align_sited 7 _)).trans emit_bytes_sited
  rw [← hstart'] at hroom ⊢
  refine ⟨bytes_finished hF ((emit_entries_sited g.reset ps).trans hfirst) ⟨rfl, rfl⟩ ?_ hroom hall, ?_⟩
  · exact Nat.le_trans (Nat.le_refl 64) ((emit_entries_sited g.reset ps).trans hfirst).len
  · rw [hlen]
    refine Nat.le_trans (Nat.le_of_eq ?_) hall.len
    rw [emit_bytes_min (by omega)]
    omega

/-! ### The entry that is meant -/

/-- The function has this name and a body. -/
def DefinesName (w : Name) (q : Node) : Prop := Bears w q ∧ q.hasBody = true

/-- The entry of the global table is a function. -/
def Function (q : Node) : Prop := q.funcName.isSome = true

/-- The names of the entry point, the most wanted first. -/
def entryNames : List Name :=
  [['m', 'a', 'i', 'n'], ['m', 'o', 'd', 'u', 'l', 'e', '_', 'i', 'n', 'i', 't'], ['i', 'n', 'i', 't']]

/-- The function `d` behind the entries `ps` is the entry point: it defines the first of the names
that the text defines, or it is the first function of a text that defines none of them. -/
inductive Meant (gt : List Node) : List Name → List Node → Node → Prop
  | default {ps d} : FirstEntry Function gt ps d → Meant gt [] ps d
  | defined {w ws ps d} : FirstEntry (DefinesName w) gt ps d → Meant gt (w :: ws) ps d
  | next {w ws ps d} : (∀ q ∈ gt, ¬ DefinesName w q) → Meant gt ws ps d → Meant gt (w :: ws) ps d

/-- The table leads to the function `d` behind the entries `ps`, and that one is the entry point.
The first function of the name has a body and is among the first 128; or it is the first function
of a text that defines none of the names; or the name is not among the first 128 functions, and no
function defines it. -/
inductive EntryAt (gt : List Node) : List Name → List Node → Node → Prop
  | default {ps d} : FirstEntry Function gt ps d → EntryAt gt [] ps d
  | defined {w ws ps d} : FirstEntry (Bears w) gt ps d → d.hasBody = true → functionCount ps < 128 →
      EntryAt gt (w :: ws) ps d
  | stub {w ws ps d} : FirstEntry Function gt ps d → Bears w d →
      (∀ v ∈ w :: ws, ∀ q ∈ gt, ¬ DefinesName v q) → EntryAt gt (w :: ws) ps d
  | next {w ws ps d} : (∀ q ∈ gt, ¬ DefinesName w q) →
      (∀ ps d, FirstEntry (Bears w) gt ps d → 128 ≤ functionCount ps) → EntryAt gt ws ps d →
      EntryAt gt (w :: ws) ps d

/-- The offset the table gives for a list of names. -/
def nameOffset (G : Gen) : List Name → Int
  | [] => 64
  | w :: ws => if G.find_func_offset w ≠ -1 then G.find_func_offset w else nameOffset G ws

variable {gt : List Node} {w : Name} {ws : List Name} {ps : List Node} {d : Node}

theorem Bears.function {q : Node} (h : Bears w q) : Function q := by
  unfold Function
  rw [show q.funcName = some w from h]
  rfl

theorem functionCount_zero (h : ∀ q ∈ ps, ¬ Function q) : functionCount ps = 0 :=
  List.countP_eq_zero.mpr h

theorem FirstEntry.head (h : FirstEntry Function gt ps d) : functionCount ps = 0 :=
  functionCount_zero h.2.2

theorem FirstEntry.named (h : FirstEntry Function gt ps d) (hd : Bears w d) :
    FirstEntry (Bears w) gt ps d :=
  ⟨h.1, hd, fun q hq hname => h.2.2 q hq hname.function⟩

theorem Meant.of_none (h : FirstEntry Function gt ps d) :
    ∀ {ws : List Name}, (∀ v ∈ ws, ∀ q ∈ gt, ¬ DefinesName v q) → Meant gt ws ps d := by
  intro ws
  induction ws with
  | nil => exact fun _ => .default h
  | cons w ws ih =>
      intro hnone
      exact .next (hnone w (List.mem_cons_self ..)) (ih fun v hv => hnone v (List.mem_cons_of_mem _ hv))

/-- Where the table leads to is the entry point. -/
theorem EntryAt.meant (h : EntryAt gt ws ps d) : Meant gt ws ps d := by
  induction h with
  | default h => exact .default h
  | defined h hbody hcount =>
      exact .defined ⟨h.1, ⟨h.2.1, hbody⟩, fun q hq hdef => h.2.2 q hq hdef.1⟩
  | stub h hname hnone => exact .of_none h hnone
  | next hnone hfar hrest ih => exact .next hnone ih

theorem Meant.function (h : Meant gt ws ps d) : (∃ qs, gt = ps ++ d :: qs) ∧ Function d := by
  induction h with
  | default h => exact ⟨h.1, h.2.1⟩
  | defined h => exact ⟨h.1, h.2.1.1.function⟩
  | next hnone hrest ih => exact ih

/-- An entry point of another name is the first function of a text that defines no name. -/
theorem Meant.first (h : Meant gt ws ps d) (hname : Bears w d) (hw : w ∉ ws) :
    FirstEntry Function gt ps d ∧ ∀ v ∈ ws, ∀ q ∈ gt, ¬ DefinesName v q := by
  induction h with
  | default h => exact ⟨h, fun v hv => by cases hv⟩
  | @defined w' ws ps d h =>
      have hsame : w' = w := Option.some.inj (h.2.1.1.symm.trans hname)
      exact absurd (hsame ▸ List.mem_cons_self ..) hw
  | next hnone hrest ih =>
      obtain ⟨hfirst, hall⟩ := ih hname fun hv => hw (List.mem_cons_of_mem _ hv)
      refine ⟨hfirst, fun v hv => ?_⟩
      rcases List.mem_cons.mp hv with rfl | hv
      · exact hnone
      · exact hall v hv

/-! ### The entry that the table gives -/

variable {G : Gen}

theorem nameOffset_known {p : Nat} (h : G.find_func_offset w = p) : nameOffset G (w :: ws) = p := by
  have hne : G.find_func_offset w ≠ -1 := by omega
  rw [nameOffset, if_pos hne, h]

theorem nameOffset_unknown (h : G.find_func_offset w = -1) :
    nameOffset G (w :: ws) = nameOffset G ws := by
  have hno : ¬ G.find_func_offset w ≠ -1 := fun hne => hne h
  rw [nameOffset, if_neg hno]

theorem table_none (h : ∀ q ∈ ps, ¬ Function q) : ∀ n : Nat, table_items A .code ps n = [] := by
  induction ps with
  | nil => exact fun n => rfl
  | cons q ps ih =>
      intro n
      have hrest := ih fun r hr => h r (List.mem_cons_of_mem _ hr)
      have hq : entry_items A .code q n = [] := by
        cases q with
        | null => rfl
        | mk t k ix nx =>
            cases k with
            | func name args body ret localvarbyte argcount =>
                exact absurd rfl (h _ (List.mem_cons_self ..))
            | _ => rfl
      simp only [table_items, hq, hrest, List.nil_append]

theorem size_listing_none (h : functionCount ps = 0) : size (listing A ps) = 0 := by
  unfold listing
  rw [table_none (List.countP_eq_zero.mp h)]
  rfl

theorem entryStart_first (h : functionCount ps = 0) : entryStart A g ps = 64 := by
  rw [entryStart_eq, size_listing_none h]
  rfl

variable (hshort : ∀ v ∈ ws, v.length < 63)

include hshort in
theorem EntryAt.offset (h : EntryAt gt ws ps d) :
    nameOffset (module_code A gt g) ws = entryStart A g ps := by
  induction h with
  | default h => rw [entryStart_first g h.head]; rfl
  | defined h hbody hcount =>
      exact nameOffset_known (find_known A g (hshort _ (List.mem_cons_self ..)) h hcount)
  | stub h hname hnone =>
      refine nameOffset_known (find_known A g (hshort _ (List.mem_cons_self ..)) (h.named hname) ?_)
      rw [h.head]
      exact Nat.zero_lt_succ _
  | next hnone hfar hrest ih =>
      rw [nameOffset_unknown (find_unknown A g (hshort _ (List.mem_cons_self ..)) hfar)]
      exact ih fun v hv => hshort v (List.mem_cons_of_mem _ hv)

include hshort in
/-- The table leads to one of the first 128 functions. -/
theorem nameOffset_entry (h : ∃ q ∈ gt, Function q) : ∃ ps d, (∃ qs, gt = ps ++ d :: qs) ∧ Function d ∧
    functionCount ps < 128 ∧ nameOffset (module_code A gt g) ws = entryStart A g ps := by
  induction ws with
  | nil =>
      obtain ⟨ps, d, hfirst⟩ | hnone := firstEntry_or (P := Function) gt
      · refine ⟨ps, d, hfirst.1, hfirst.2.1, ?_, ?_⟩
        · rw [hfirst.head]
          exact Nat.zero_lt_succ _
        · rw [entryStart_first g hfirst.head]
          rfl
      · obtain ⟨q, hq, hfunc⟩ := h
        exact absurd hfunc (hnone q hq)
  | cons w ws ih =>
      have hw := hshort w (List.mem_cons_self ..)
      have hrest := ih fun v hv => hshort v (List.mem_cons_of_mem _ hv)
      obtain ⟨ps, d, hfirst⟩ | hnone := firstEntry_or (P := Bears w) gt
      · rcases Nat.lt_or_ge (functionCount ps) 128 with hlt | hge
        · exact ⟨ps, d, hfirst.1, hfirst.2.1.function, hlt, nameOffset_known (find_known A g hw hfirst hlt)⟩
        · rw [nameOffset_unknown (find_unknown A g hw fun ps' d' h' => ?_)]
          · exact hrest
          · rw [hfirst.unique h'] at hge
            exact hge
      · rw [nameOffset_unknown (find_unknown A g hw fun ps' d' h' => ?_)]
        · exact hrest
        · obtain ⟨⟨qs, hqs⟩, hd, -⟩ := h'
          exact absurd hd (hnone d' (by rw [hqs]; simp))

include hshort in
/-- Where the table gives the place of the entry point, it leads to it. -/
theorem Meant.entryAt (h : Meant gt ws ps d) (hdistinct : ws.Nodup)
    (hoff : nameOffset (module_code A gt g) ws = entryStart A g ps)
    (hroom : entryStart A g ps < CODE_BUF_SIZE) : EntryAt gt ws ps d := by
  obtain ⟨⟨qs, hqs⟩, hfunc⟩ := h.function
  -- another function cannot start at the same place
  have hsame : ∀ {ps' d'}, (∃ qs, gt = ps' ++ d' :: qs) → Function d' →
      (entryStart A g ps : Int) = entryStart A g ps' → ps = ps' ∧ d = d' := by
    intro ps' d' hex hfunc' heq
    obtain ⟨qs', hqs'⟩ := hex
    exact entryStart_inj A g (hqs.symm.trans hqs') hfunc hfunc' (Int.ofNat.inj heq) hroom
  induction h with
  | default h => exact .default h
  | @defined w ws ps d h =>
      have hw := hshort w (List.mem_cons_self ..)
      obtain ⟨ps', d', hfirst⟩ | hnever := firstEntry_or (P := Bears w) gt
      · rcases Nat.lt_or_ge (functionCount ps') 128 with hlt | hge
        · rw [nameOffset_known (find_known A g hw hfirst hlt)] at hoff
          obtain ⟨rfl, rfl⟩ := hsame hfirst.1 hfirst.2.1.function hoff.symm
          exact .defined hfirst h.2.1.2 hlt
        · -- the table does not know the function, and what it leads to stands in front of it
          have hfar : ∀ ps'' d'', FirstEntry (Bears w) gt ps'' d'' → 128 ≤ functionCount ps'' := by
            intro ps'' d'' h''
            rw [← hfirst.unique h'']
            exact hge
          rw [nameOffset_unknown (find_unknown A g hw hfar)] at hoff
          have hmem : d ∈ gt := by
            rw [hqs]
            simp
          obtain ⟨ps'', d'', hex, hfunc'', hlt, hoff''⟩ := nameOffset_entry (A := A) g
            (fun v hv => hshort v (List.mem_cons_of_mem _ hv)) ⟨d, hmem, hfunc⟩
          obtain ⟨rfl, rfl⟩ := hsame hex hfunc'' (hoff.symm.trans hoff'')
          obtain ⟨rs, rfl⟩ := hfirst.before hqs h.2.1.1
          have hcount : functionCount (ps' ++ rs) = functionCount ps' + functionCount rs := List.countP_append
          omega
      · exact absurd h.2.1.1 (hnever d (by rw [hqs]; simp))
  | @next w ws ps d hnone hrest ih =>
      have hw := hshort w (List.mem_cons_self ..)
      have hlater : (∀ ps' d', FirstEntry (Bears w) gt ps' d' → 128 ≤ functionCount ps') →
          EntryAt gt (w :: ws) ps d := by
        intro hfar
        rw [nameOffset_unknown (find_unknown A g hw hfar)] at hoff
        exact .next hnone hfar (ih (fun v hv => hshort v (List.mem_cons_of_mem _ hv))
          (List.nodup_cons.mp hdistinct).2 hoff hroom hfunc hqs hsame)
      obtain ⟨ps', d', hfirst⟩ | hnever := firstEntry_or (P := Bears w) gt
      · rcases Nat.lt_or_ge (functionCount ps') 128 with hlt | hge
        · rw [nameOffset_known (find_known A g hw hfirst hlt)] at hoff
          obtain ⟨rfl, rfl⟩ := hsame hfirst.1 hfirst.2.1.function hoff.symm
          obtain ⟨hhead, hall⟩ := hrest.first hfirst.2.1 (List.nodup_cons.mp hdistinct).1
          refine .stub hhead hfirst.2.1 fun v hv => ?_
          rcases List.mem_cons.mp hv with rfl | hv
          · exact hnone
          · exact hall v hv
        · refine hlater fun ps'' d'' h'' => ?_
          rw [← hfirst.unique h'']
          exact hge
      · refine hlater fun ps'' d'' h'' => ?_
        obtain ⟨⟨qs'', hqs''⟩, hd'', -⟩ := h''
        exact absurd hd'' (hnever d'' (by rw [hqs'']; simp))

end

/-! ### The header -/

/-- The header points at the prologue of the entry point, and gives the size of the code. -/
def HeaderRight (A : Addresses) (gt : List Node) (mod_name : Option Name) (mod_type : BitVec 32)
    (g : Gen) : Prop :=
  let out := codegen_x86_emit A gt mod_name mod_type g
  let init_offset := out.1.le 40 4
  let code_size := out.1.le 44 4
  64 ≤ init_offset ∧ init_offset < out.2.1 ∧ code_size + 64 = out.2.1 ∧
    ∃ ps d, Meant gt entryNames ps d ∧ init_offset = entryStart A g ps ∧
      BytesAt out.1 init_offset d.prologue ∧ init_offset + d.prologue.length ≤ out.2.1

/-- The function table leads to the entry point, and its prologue fits into the buffer. -/
def EntryKnown (A : Addresses) (gt : List Node) : Prop :=
  ∃ ps d, EntryAt gt entryNames ps d ∧ 64 + size (listing A ps) + d.prologue.length ≤ CODE_BUF_SIZE

section

variable (A : Addresses) (gt : List Node) (mod_name : Option Name) (mod_type : BitVec 32) (g : Gen)

theorem header_fields : ∃ G : Gen, G.func_table = (module_code A gt g).func_table ∧
    G.code_len = (codegen_x86_emit A gt mod_name mod_type g).2.1 ∧
    (codegen_x86_emit A gt mod_name mod_type g).1.le 40 4 = (BitVec.ofInt 32 (main_offset G)).toNat ∧
    (codegen_x86_emit A gt mod_name mod_type g).1.le 44 4 = (BitVec.ofNat 32 (G.code_len - 64)).toNat := by
  have hst := @codegen_state A gt mod_name mod_type g
  refine ⟨emit_strings (emit_entries A gt g.reset), hst.funcs, rfl, ?_, ?_⟩
  · unfold codegen_x86_emit write_header
    simp only
    rw [le_setLe_out (by omega), le_setLe_out (by omega), le_setLe_of_lt (BitVec.isLt _)]
  · unfold codegen_x86_emit write_header
    simp only
    rw [le_setLe_out (by omega), le_setLe_of_lt (BitVec.isLt _)]

/-- The header holds the offset of the table, and the size of the code. -/
theorem header_holds (hbound : ∃ p : Nat, p ≤ CODE_BUF_SIZE ∧
      nameOffset (module_code A gt g) entryNames = p) :
    ((codegen_x86_emit A gt mod_name mod_type g).1.le 40 4 : Int) =
        nameOffset (module_code A gt g) entryNames ∧
      (codegen_x86_emit A gt mod_name mod_type g).1.le 44 4 + 64 =
        (codegen_x86_emit A gt mod_name mod_type g).2.1 ∧
      (codegen_x86_emit A gt mod_name mod_type g).2.1 ≤ CODE_BUF_SIZE := by
  obtain ⟨G, hfuncs, hlen, hinit, hsize⟩ := header_fields A gt mod_name mod_type g
  obtain ⟨p, hp, hoff⟩ := hbound
  have hsame : main_offset G = nameOffset (module_code A gt g) entryNames := by
    unfold main_offset nameOffset nameOffset nameOffset nameOffset entryNames find_func_offset
    rw [hfuncs]
  have hmax := binary_len A gt mod_name mod_type g
  have hmin : 64 ≤ (module_code A gt g).code_len := by
    rw [module_code_eq]
    exact (((emit_items_sited _ g.reset).trans (nop_align_sited 7 _)).trans emit_bytes_sited).len
  rw [← (codegen_patched A gt mod_name mod_type g).2] at hmin
  have hbuf : CODE_BUF_SIZE = 65536 := rfl
  refine ⟨?_, ?_, hmax⟩
  · rw [hinit, hsame, hoff, BitVec.toNat_ofInt]
    omega
  · rw [hsize, hlen, BitVec.toNat_ofNat, Nat.mod_eq_of_lt (by omega)]
    omega

theorem entryNames_short : ∀ v ∈ entryNames, v.length < 63 := by decide

/-- **The entry point of a module.**  The header points at the right function if and only if the
function table leads to it and there is room for its prologue. -/
theorem header_right_iff : HeaderRight A gt mod_name mod_type g ↔ EntryKnown A gt := by
  have hbuf : CODE_BUF_SIZE = 65536 := rfl
  constructor
  · rintro ⟨-, hlt, -, ps, d, hmeant, hinit, -, hroom⟩
    have hmem : ∃ q ∈ gt, Function q := by
      obtain ⟨⟨qs, hqs⟩, hfunc⟩ := hmeant.function
      refine ⟨d, ?_, hfunc⟩
      rw [hqs]
      simp
    obtain ⟨ps', d', -, -, -, hoff⟩ := nameOffset_entry (A := A) g entryNames_short hmem
    obtain ⟨hat, -, hmax⟩ := header_holds A gt mod_name mod_type g ⟨_, entryStart_le A g ps', hoff⟩
    have hstart := entryStart_eq A g ps
    refine ⟨ps, d, hmeant.entryAt (A := A) g entryNames_short (by decide) ?_ (by omega), by omega⟩
    rw [← hat, hinit]
  · rintro ⟨ps, d, hclear, hroom⟩
    have hmeant := hclear.meant
    obtain ⟨⟨qs, hqs⟩, hfunc⟩ := hmeant.function
    have hoff := hclear.offset (A := A) g entryNames_short
    obtain ⟨hat, hsize, hmax⟩ := header_holds A gt mod_name mod_type g ⟨_, entryStart_le A g ps, hoff⟩
    have hstart := entryStart_eq A g ps
    have hinit : (codegen_x86_emit A gt mod_name mod_type g).1.le 40 4 = entryStart A g ps :=
      Int.ofNat.inj (hat.trans hoff)
    obtain ⟨hbytes, hend⟩ := prologue_finished (A := A) g mod_name mod_type ps qs hfunc
      (show entryStart A g ps + d.prologue.length ≤ CODE_BUF_SIZE by omega)
    rw [← hqs] at hbytes hend
    have hsome := prologue_nonempty hfunc
    unfold HeaderRight
    simp only
    rw [hinit]
    exact ⟨by omega, by omega, hsize, ps, d, hmeant, rfl, hbytes, hend⟩

end

/-- The entry point of an empty text is the end of the binary. -/
theorem empty_header : (codegen_x86_emit .zero [] none 0 .zero).1.le 40 4 = 64 ∧
    (codegen_x86_emit .zero [] none 0 .zero).2.1 = 64 ∧ ¬ HeaderRight .zero [] none 0 .zero := by
  refine ⟨by decide, by decide, fun h => ?_⟩
  obtain ⟨-, -, -, ps, d, hmeant, -⟩ := h
  obtain ⟨⟨qs, hqs⟩, -⟩ := hmeant.function
  exact absurd hqs (by simp)

end Eke
