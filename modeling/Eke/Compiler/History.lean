/-
What earlier compilations leave behind.

Two generator states that were reset agree on everything the next compilation reads, but
for the fixup slots not used yet (`Twin`).  Emitting keeps the agreement as long as every
slot is filled completely, which is so for all jumps and calls but the one of a condition
without a comparison operator.  That one keeps the slot's `is_func_call`: after an earlier
program with enough calls of functions it does not define, the jump is patched as a call.
-/
import Eke.Compiler.Completeness

namespace Eke

open Gen Store X86

variable {g g' G : Gen} {xs ys : List Item} {f f' : Fixup} {bs : List Byte}

/-! ### Two states that agree -/

/-- What patching reads of a slot. -/
structure SameSlot (f f' : Fixup) : Prop where
  pos : f'.patch_pos = f.patch_pos
  call : f'.is_func_call = f.is_func_call
  name : f.is_func_call = true → f'.func_name = f.func_name
  label : f.is_func_call = false → f'.label_id = f.label_id

structure Twin (g g' : Gen) : Prop where
  len : g'.code_len = g.code_len
  buf : ∀ x, 64 ≤ x → x < g.code_len → g'.code_buf x = g.code_buf x
  labels : ∀ l, l < MAX_LABELS → g'.label_pos l = g.label_pos l
  next : g'.next_label_id = g.next_label_id
  num : g'.num_fixups = g.num_fixups
  slots : ∀ i, i < g.num_fixups → SameSlot (g.fixups i) (g'.fixups i)
  funcs : g'.func_table = g.func_table
  pool : g'.str_pool = g.str_pool
  strNum : g'.num_str_fixups = g.num_str_fixups
  strs : ∀ i, i < g.num_str_fixups → g'.str_fixups i = g.str_fixups i

theorem reset_twin (g g' : Gen) : Twin g.reset g'.reset where
  len := rfl
  buf x hx hx' := absurd hx' (Nat.not_lt.mpr hx)
  labels l hl := by simp [Gen.reset, hl]
  next := rfl
  num := rfl
  slots i hi := absurd hi (Nat.not_lt_zero i)
  funcs := rfl
  pool := rfl
  strNum := rfl
  strs i hi := absurd hi (Nat.not_lt_zero i)

theorem Twin.find (h : Twin g g') (name : Name) :
    g'.find_func_offset name = g.find_func_offset name := by
  unfold find_func_offset
  rw [h.funcs]

theorem Twin.byte (h : Twin g g') (b : Byte) : Twin (g.emit_byte b) (g'.emit_byte b) := by
  unfold emit_byte
  rw [h.len]
  split
  · refine ⟨rfl, fun x hx hx' => ?_, h.labels, h.next, h.num, h.slots, h.funcs, h.pool, h.strNum,
      h.strs⟩
    simp only at hx' ⊢
    by_cases hlast : x = g.code_len
    · rw [hlast, set_same, set_same]
    · rw [set_out hlast, set_out hlast]
      exact h.buf x hx (by omega)
  · exact ⟨rfl, h.buf, h.labels, h.next, h.num, h.slots, h.funcs, h.pool, h.strNum, h.strs⟩

theorem Twin.bytes (h : Twin g g') (bs : List Byte) : Twin (g.emit_bytes bs) (g'.emit_bytes bs) := by
  induction bs generalizing g g' with
  | nil => exact h
  | cons b bs ih => exact ih (h.byte b)

theorem Twin.u32 (h : Twin g g') (v : BitVec 32) : Twin (g.emit_u32 v) (g'.emit_u32 v) := by
  rw [emit_u32_eq, emit_u32_eq]
  exact h.bytes _

/-- A fixup that fills its slot with the same. -/
theorem Twin.fixup (h : Twin g g') {c : Fixup → Fixup}
    (hc : ∀ f f' : Fixup, ∀ p, SameSlot { c f with patch_pos := p } { c f' with patch_pos := p }) :
    Twin (g.add_fixup c) (g'.add_fixup c) := by
  unfold add_fixup
  rw [h.num, h.len]
  split
  · refine ⟨rfl, h.buf, h.labels, h.next, rfl, fun i hi => ?_, h.funcs, h.pool,
      h.strNum, h.strs⟩
    simp only at hi ⊢
    by_cases hlast : i = g.num_fixups
    · rw [if_pos hlast, if_pos hlast]
      exact hc _ _ _
    · rw [if_neg hlast, if_neg hlast]
      exact h.slots i (by omega)
  · exact ⟨rfl, h.buf, h.labels, h.next, rfl, h.slots, h.funcs, h.pool, h.strNum, h.strs⟩

theorem Twin.str_fixup (h : Twin g g') (off : Nat) :
    Twin (g.add_str_fixup off) (g'.add_str_fixup off) := by
  unfold add_str_fixup
  rw [h.strNum, h.len]
  split
  · refine ⟨rfl, h.buf, h.labels, h.next, h.num, h.slots, h.funcs, h.pool, rfl,
      fun i hi => ?_⟩
    simp only at hi ⊢
    by_cases hlast : i = g.num_str_fixups
    · rw [if_pos hlast, if_pos hlast]
    · rw [if_neg hlast, if_neg hlast]
      exact h.strs i (by omega)
  · exact h

/-- Every item but a test fills all it uses. -/
theorem Twin.item (h : Twin g g') {i : Item} (hi : ∀ op l, i ≠ .test op l) :
    Twin (emit_item i g) (emit_item i g') := by
  cases i with
  | ins i => exact h.bytes _
  | jump op l =>
      refine ((h.bytes _).fixup fun f f' p => ?_).u32 0
      exact ⟨rfl, rfl, fun h => (by cases h), fun _ => rfl⟩
  | test op l => exact absurd rfl (hi op l)
  | call name =>
      simp only [emit_item, emit_call_rel, h.find, (h.bytes [0xE8]).len]
      split
      · exact (h.bytes _).u32 _
      · refine ((h.bytes _).fixup fun f f' p => ?_).u32 0
        exact ⟨rfl, rfl, fun _ => rfl, fun h => (by cases h)⟩
  | lea s =>
      have hpool : Twin (g.add_to_string_pool s).2 (g'.add_to_string_pool s).2 := by
        unfold add_to_string_pool
        rw [h.pool]
        exact ⟨h.len, h.buf, h.labels, h.next, h.num, h.slots, h.funcs, rfl, h.strNum, h.strs⟩
      have hoff : (g'.add_to_string_pool s).1 = (g.add_to_string_pool s).1 := by
        unfold add_to_string_pool
        rw [h.pool]
      simp only [emit_item, hoff]
      exact ((hpool.bytes _).str_fixup _).u32 0
  | func name =>
      simp only [emit_item, register_func, h.funcs, h.len]
      split
      · exact ⟨rfl, h.buf, h.labels, h.next, h.num, h.slots, rfl, h.pool, h.strNum, h.strs⟩
      · exact h
  | alloc =>
      simp only [emit_item, alloc_label, h.next]
      split
      · refine ⟨h.len, h.buf, fun l hl => ?_, rfl, h.num, h.slots, h.funcs, h.pool, h.strNum, h.strs⟩
        simp only
        rw [h.labels l hl]
      · exact ⟨h.len, h.buf, h.labels, rfl, h.num, h.slots, h.funcs, h.pool, h.strNum, h.strs⟩
  | mark k =>
      simp only [emit_item, mark_label, h.len]
      split
      · refine ⟨rfl, h.buf, fun l hl => ?_, h.next, h.num, h.slots, h.funcs, h.pool, h.strNum, h.strs⟩
        simp only
        rw [h.labels l hl]
      · exact h
  | visit => exact ⟨h.len, h.buf, h.labels, h.next, h.num, h.slots, h.funcs, h.pool, h.strNum, h.strs⟩
  | drop => exact ⟨h.len, h.buf, h.labels, h.next, h.num, h.slots, h.funcs, h.pool, h.strNum, h.strs⟩
  | skip => exact ⟨h.len, h.buf, h.labels, h.next, h.num, h.slots, h.funcs, h.pool, h.strNum, h.strs⟩
  | cut => exact h

theorem Twin.items : ∀ {xs : List Item} {g g' : Gen}, Twin g g' → noTest xs →
    Twin (emit_items xs g) (emit_items xs g') := by
  intro xs
  induction xs with
  | nil => intro g g' h _; exact h
  | cons i xs ih =>
      intro g g' h hno
      exact ih (h.item fun op l heq => hno op l (heq ▸ List.mem_cons_self ..))
        fun op l hmem => hno op l (List.mem_cons_of_mem _ hmem)

theorem Twin.nop_align : ∀ (n : Nat) {g g' : Gen}, Twin g g' →
    Twin (nop_align n g) (nop_align n g') := by
  intro n
  induction n with
  | zero => intro g g' h; exact h
  | succ n ih =>
      intro g g' h
      simp only [Eke.nop_align, h.len]
      split
      · exact ih (h.byte _)
      · exact h

theorem Twin.target (h : Twin g g') (hs : SameSlot f f') : g'.target f' = g.target f := by
  unfold Gen.target
  rw [hs.call]
  cases hcall : f.is_func_call with
  | true =>
      rw [if_pos rfl, if_pos rfl, hs.name hcall, h.find]
  | false =>
      rw [if_neg Bool.false_ne_true, if_neg Bool.false_ne_true, hs.label hcall]
      by_cases hl : f.label_id < MAX_LABELS
      · rw [h.labels _ hl]
      · rw [if_neg (fun hc => hl hc.1), if_neg (fun hc => hl hc.1)]

theorem Twin.write (h : Twin g g') (p k v : Nat) :
    Twin { g with code_buf := g.code_buf.setLe p k v } { g' with code_buf := g'.code_buf.setLe p k v } := by
  refine ⟨h.len, fun x hx hx' => ?_, h.labels, h.next, h.num, h.slots, h.funcs, h.pool, h.strNum,
    h.strs⟩
  unfold setLe
  simp only
  split
  · rfl
  · exact h.buf x hx hx'

theorem Twin.patch_fixup (h : Twin g g') {i : Nat} (hi : i < g.num_fixups) :
    Twin (g.patch_fixup i) (g'.patch_fixup i) := by
  have hs := h.slots i hi
  rw [patch_fixup_eq, patch_fixup_eq, h.target hs, hs.pos]
  split
  · exact h.write _ _ _
  · exact h

theorem Twin.patch_fixups (h : Twin g g') : Twin g.patch_fixups g'.patch_fixups := by
  unfold Gen.patch_fixups
  rw [h.num]
  refine (loop_induct₂ (P := fun _ t t' => Twin t t' ∧ t.num_fixups = g.num_fixups) ⟨h, rfl⟩
    fun i t t' hi ht => ?_).1
  exact ⟨ht.1.patch_fixup (by rw [ht.2]; exact hi),
    (patch_fixup_unpatched i).num.trans ht.2⟩

theorem Twin.patch_str_fixups (h : Twin g g') (start : Nat) :
    Twin (g.patch_str_fixups start) (g'.patch_str_fixups start) := by
  unfold Gen.patch_str_fixups
  rw [h.strNum]
  refine (loop_induct₂ (P := fun _ t t' => Twin t t' ∧ t.num_str_fixups = g.num_str_fixups) ⟨h, rfl⟩
    fun i t t' hi ht => ?_).1
  refine ⟨?_, ht.2⟩
  unfold patch_str_fixup
  simp only
  rw [ht.1.strs i (by rw [ht.2]; exact hi)]
  exact ht.1.write _ _ _

/-- The output of two compilations agrees from the code on. -/
def SameOutput (o o' : Store × Nat × Gen) : Prop :=
  o'.2.1 = o.2.1 ∧ ∀ x, 64 ≤ x → x < o.2.1 → o'.1 x = o.1 x

theorem Twin.strings (h : Twin g g') : Twin (emit_strings g) (emit_strings g') := by
  have h1 := h.nop_align 7
  unfold emit_strings
  simp only
  rw [h1.pool, h1.len]
  exact (h1.bytes _).patch_fixups.patch_str_fixups _

/-- Without tests the code does not depend on the state before. -/
theorem same_output (A : Addresses) (gt : List Node) (mod_name : Option Name) (mod_type : BitVec 32)
    (g g' : Gen) (hno : noTest (listing A gt)) :
    SameOutput (codegen_x86_emit A gt mod_name mod_type g)
      (codegen_x86_emit A gt mod_name mod_type g') := by
  have h : Twin (emit_strings (emit_entries A gt g.reset)) (emit_strings (emit_entries A gt g'.reset)) := by
    rw [emit_entries_items, emit_entries_items]
    exact ((reset_twin g g').items hno).strings
  refine ⟨h.len, fun x hx hx' => ?_⟩
  show write_header mod_name mod_type _ x = write_header mod_name mod_type _ x
  rw [write_header_out hx, write_header_out hx]
  exact h.buf x hx hx'

/-! ### A program that leaves calls behind -/

/-- The names the generator does not call as functions. -/
def isBuiltin (name : Name) : Prop :=
  name = ['p', 'r', 'i', 'n', 't', 'f'] ∨ name = ['p', 'r', 'i', 'n', 't'] ∨
    name = ['k', 'p', 'r', 'i', 'n', 't', 'f'] ∨ name = ['p', 'u', 't', 'c']

/-- `n` times `f();`. -/
def callsOf (f : Name) : Nat → Node
  | 0 => .null
  | n + 1 => .mk 0 (.call f .null 0) .null (callsOf f n)

/-- A program that calls `f` 1024 times and does not define it. -/
def callers (f : Name) : List Node :=
  [.mk 0 (.func (if f = ['a'] then ['b'] else ['a']) .null
    (.mk 0 (.block (callsOf f 1024)) .null .null) 262 0 0) .null .null]

variable {f : Name}

theorem call_kind (A : Addresses) (L : Limits) (hf : ¬ isBuiltin f) (c : Int) (n : Nat) :
    kind_items A L (.call f .null c) n = [.call f, .op .push_rax] := by
  unfold isBuiltin at hf
  simp only [not_or] at hf
  simp only [kind_items, if_neg hf.1, if_neg hf.2.2.2]
  rw [if_neg (by simp only [not_or]; exact ⟨hf.2.1, hf.2.2.1⟩)]
  have hcut : cut_items L.args .null = [] := cut_none (Nat.zero_le _)
  have hargs : args_items A L L.args .null n = [] := by
    cases L.args <;> simp only [args_items]
  rw [hcut, hargs]
  rfl

/-- A call of a function that is not in the table. -/
theorem emit_call_absent (hf : f ∉ g.func_table.map FuncSym.name) (hroom : g.num_fixups < MAX_FIXUPS) :
    (emit_item (.call f) g).num_fixups = g.num_fixups + 1 ∧
      (emit_item (.call f) g).func_table = g.func_table ∧
      (∀ i, i < g.num_fixups → (emit_item (.call f) g).fixups i = g.fixups i) ∧
      ((emit_item (.call f) g).fixups g.num_fixups).is_func_call = true ∧
      ((emit_item (.call f) g).fixups g.num_fixups).func_name = f.take 63 := by
  have hfind : ¬ g.find_func_offset f ≠ -1 := fun hc => hf (find_ne_iff.mp hc)
  have hadd : ∀ c : Fixup → Fixup, (g.emit_bytes [0xE8]).add_fixup c =
      { g.emit_bytes [0xE8] with
        fixups := fun i => if i = (g.emit_bytes [0xE8]).num_fixups then
            { c ((g.emit_bytes [0xE8]).fixups i) with patch_pos := (g.emit_bytes [0xE8]).code_len }
          else (g.emit_bytes [0xE8]).fixups i
        num_fixups := (g.emit_bytes [0xE8]).num_fixups + 1 } := by
    intro c
    unfold add_fixup
    rw [if_pos (by simpa using hroom)]
  simp only [emit_item, emit_call_rel]
  rw [if_neg hfind, emit_u32_eq]
  simp only [emit_bytes_num, emit_bytes_funcs, emit_bytes_fixups, hadd]
  refine ⟨trivial, trivial, fun i hi => ?_, ?_, ?_⟩
  · rw [if_neg (Nat.ne_of_lt hi)]
  · rw [if_pos trivial]
  · rw [if_pos trivial]

theorem calls_slots (A : Addresses) (L : Limits) (hf : ¬ isBuiltin f) : ∀ (n k : Nat) (g : Gen),
    f ∉ g.func_table.map FuncSym.name → g.num_fixups + n ≤ MAX_FIXUPS →
    (emit_items (block_items A L (callsOf f n) k) g).num_fixups = g.num_fixups + n ∧
      (∀ i, i < g.num_fixups →
        (emit_items (block_items A L (callsOf f n) k) g).fixups i = g.fixups i) ∧
      ∀ i, g.num_fixups ≤ i → i < g.num_fixups + n →
        ((emit_items (block_items A L (callsOf f n) k) g).fixups i).is_func_call = true ∧
        ((emit_items (block_items A L (callsOf f n) k) g).fixups i).func_name = f.take 63 := by
  intro n
  induction n with
  | zero =>
      intro k g _ _
      have hnil : block_items A L (callsOf f 0) k = [] := by simp only [callsOf, block_items]
      rw [hnil]
      exact ⟨rfl, fun _ _ => rfl, fun i hi hi' => by omega⟩
  | succ n ih =>
      intro k g habs hroom
      obtain ⟨hnum, hfuncs, hold, hcall, hname⟩ := emit_call_absent (g := g.visit) habs (by
        show g.num_fixups < _
        omega)
      simp only [callsOf, block_items, call_kind A L hf, emit_items_append, emit_items_cons,
        emit_items_nil, emit_visit, emit_push_rax_item]
      generalize hg : emit_item (.call f) g.visit = g1 at *
      have hn : g1.emit_push_rax.num_fixups = g.num_fixups + 1 := by
        rw [emit_push_rax, emit_bytes_num, hnum]
        rfl
      obtain ⟨h1, h2, h3⟩ := ih (k + allocs [.call f, .op .push_rax]) g1.emit_push_rax (by
        rw [emit_push_rax, emit_bytes_funcs, hfuncs]
        exact habs) (by omega)
      refine ⟨by rw [h1, hn]; omega, fun i hi => ?_, fun i hi hi' => ?_⟩
      · rw [h2 i (by omega), emit_push_rax, emit_bytes_fixups]
        exact hold i hi
      · rcases Nat.lt_or_eq_of_le hi with hlt | rfl
        · exact h3 i (by omega) (by omega)
        · rw [h2 _ (by omega), emit_push_rax, emit_bytes_fixups]
          exact ⟨hcall, hname⟩

/-- The states that earlier compilations lead to. -/
inductive Reached : Gen → Prop
  | start : Reached .zero
  | emit (A : Addresses) (gt : List Node) (mod_name : Option Name) (mod_type : BitVec 32) {g : Gen} :
      Reached g → Reached (codegen_x86_emit A gt mod_name mod_type g).2.2

/-- The name of the function in `callers f`. -/
def callerName (f : Name) : Name := if f = ['a'] then ['b'] else ['a']

theorem callerName_ne (f : Name) : callerName f ≠ f ∧ (callerName f).length ≤ 63 := by
  unfold callerName
  split
  · rename_i h
    rw [h]
    decide
  · rename_i h
    exact ⟨fun hc => h hc.symm, by decide⟩

/-- The listing of `callers f` up to the calls. -/
def callersStart (h : Name) : List Item :=
  [.func h, .op .push_rbp, .op .mov_rsp_rbp, .ins ⟨.sub_rsp, 32⟩, .visit]

theorem callersStart_rooms {h : Name} (hh : h.length ≤ 63) : Use.start.Rooms (callersStart h) :=
  ⟨⟨by decide, hh⟩, (by decide : 64 + 1 ≤ 65536), (by decide : 64 + 1 + 3 ≤ 65536),
    (by decide : 64 + 1 + 3 + 7 ≤ 65536), trivial, trivial⟩

theorem callers_listing (A : Addresses) (f : Name) : listing A (callers f) =
    callersStart (callerName f) ++ block_items A .code (callsOf f 1024) 1 ++ epilogue_items := by
  have hpro : prologue_items (BitVec.ofInt 32 0 + 32)
      = [.op .push_rbp, .op .mov_rsp_rbp, .ins ⟨.sub_rsp, 32⟩] := by
    simp [prologue_items, frameBytes]
  simp only [listing, callers, table_items, entry_items, node_items, kind_items, List.append_nil, hpro]
  rfl

/-- After `callers f` every slot is marked as a call of `f`. -/
theorem callers_slots (A : Addresses) (hf : ¬ isBuiltin f) (hlen : f.length ≤ 63) {i : Nat}
    (hi : i < MAX_FIXUPS) :
    ((codegen_x86_emit A (callers f) none 0 .zero).2.2.fixups i).is_func_call = true ∧
      ((codegen_x86_emit A (callers f) none 0 .zero).2.2.fixups i).func_name = f := by
  obtain ⟨hne, hshort⟩ := callerName_ne f
  have hst := @codegen_state A (callers f) none 0 .zero
  have hcode : (module_code A (callers f) .zero).fixups
      = (emit_items (listing A (callers f)) Gen.zero.reset).fixups := by
    rw [module_code_eq, emit_bytes_fixups]
    exact nop_align_keeps Gen.fixups (fun b g => by unfold emit_byte; split <;> rfl) 7 _
  have hrooms := callersStart_rooms hshort
  have hT := (reset_tracks .zero).items hrooms
  have hfuncs := items_funcs (reset_tracks .zero) hrooms
  generalize hg : emit_items (callersStart (callerName f)) Gen.zero.reset = g at hT hfuncs
  have hzero : g.num_fixups = 0 := hT.fixups
  obtain ⟨hnum, -, hslots⟩ := calls_slots A .code hf 1024 1 g (by
    rw [hfuncs]
    simp [Gen.reset, callersStart, entries, hne.symm]) (by
    rw [hzero]
    exact Nat.le_refl 1024)
  rw [hst.fixups, hcode, callers_listing, emit_items_append, emit_items_append, hg,
    (emit_items_grown epilogue_items _).fix i (by rw [hnum, hzero]; exact Nat.lt_of_lt_of_eq hi rfl)]
  obtain ⟨h1, h2⟩ := hslots i (by rw [hzero]; exact Nat.zero_le _)
    (by rw [hzero]; exact Nat.lt_of_lt_of_eq hi rfl)
  exact ⟨h1, h2.trans (List.take_of_length_le hlen)⟩

/-! ### A test after such a program -/

theorem rooms_append : ∀ {xs : List Item} {u : Use}, u.Rooms (xs ++ ys) →
    u.Rooms xs ∧ (u.afterAll xs).Rooms ys := by
  intro xs
  induction xs with
  | nil => intro u h; exact ⟨trivial, h⟩
  | cons i xs ih =>
      intro u h
      obtain ⟨h1, h2⟩ := ih h.2
      exact ⟨⟨h.1, h1⟩, h2⟩

/-- A label lies in the listing that places it. -/
theorem assembled_label {m : Store} {Y : Symbols} : ∀ {xs : List Item} {p l : Nat}, Assembled m Y p xs →
    l ∈ marks xs → p ≤ Y.label l ∧ Y.label l ≤ p + size xs := by
  intro xs
  induction xs with
  | nil => intro p l _ hl; cases hl
  | cons i xs ih =>
      intro p l h hl
      have hsplit : marks (i :: xs) = marks [i] ++ marks xs := by
        rw [← marks_append, List.singleton_append]
      rw [hsplit, List.mem_append] at hl
      rw [size_cons]
      rcases hl with hl | hl
      · cases i with
        | mark k =>
            obtain rfl := List.mem_singleton.mp hl
            have : Y.label l = p := h.1
            omega
        | _ => simp [marks] at hl
      · have := ih h.2 hl
        omega

/-- A program with code begins with a function. -/
theorem table_first (A : Addresses) (L : Limits) : ∀ (gt : List Node) (n : Nat),
    table_items A L gt n = [] ∨ ∃ f lb rest,
      table_items A L gt n = .func f :: (prologue_items lb ++ rest) := by
  intro gt
  induction gt with
  | nil => intro n; exact Or.inl rfl
  | cons p ps ih =>
      intro n
      cases p with
      | null => simpa [table_items, entry_items, allocs] using ih n
      | mk t k ix nx =>
          cases k with
          | func name args body ret localvarbyte argcount =>
              right
              refine ⟨name, BitVec.ofInt 32 localvarbyte + 32, ?_⟩
              simp only [table_items, entry_items, List.append_assoc]
              exact ⟨_, rfl⟩
          | _ => simpa [table_items, entry_items, allocs] using ih n

theorem prologue_size (lb : BitVec 32) : 4 ≤ size (prologue_items lb) := by
  unfold prologue_items
  rw [size_append]
  have : size [Item.op .push_rbp, .op .mov_rsp_rbp] = 4 := rfl
  omega

theorem prologue_marks (lb : BitVec 32) : marks (prologue_items lb) = [] := by
  unfold prologue_items
  split <;> rfl

/-- Two distances from one place to two places in a binary differ. -/
theorem rel32_inj {a b p : Nat} (ha : a ≤ CODE_BUF_SIZE) (hb : b ≤ CODE_BUF_SIZE)
    (h : rel32 (a : Int) p = rel32 (b : Int) p) : a = b := by
  unfold CODE_BUF_SIZE at ha hb
  unfold rel32 at h
  have hnat := congrArg BitVec.toNat h
  simp only [BitVec.toNat_ofInt] at hnat
  omega

section

variable {A : Addresses} {gt : List Node} {op : Op} {l : Nat} {zs : List Item}

/-- In a state that marks all slots as calls of `f`, a test leads to `f`. -/
theorem test_stale (h : Fits (listing A gt)) (mod_name : Option Name) (mod_type : BitVec 32) {g : Gen}
    (hg : ∀ i, i < MAX_FIXUPS → (g.fixups i).is_func_call = true ∧ (g.fixups i).func_name = f)
    (hlist : listing A gt = ys ++ .test op l :: zs)
    (hf : (module_code A gt g).find_func_offset f ≠ -1) :
    RelAt (codegen_x86_emit A gt mod_name mod_type g).1 (64 + size ys) op
      ((module_code A gt g).find_func_offset f).toNat := by
  obtain ⟨hF, hG, -⟩ := module_spec mod_name mod_type g h.roomy
  have hrooms := h.rooms
  rw [hlist] at hrooms
  obtain ⟨hr1, hr2⟩ := rooms_append hrooms
  have hT := (reset_tracks g).items hr1
  have htidy := (reset_tidy g).grown (emit_items_grown ys g.reset) hT.lost
  have hlen : (emit_items ys g.reset).code_len = 64 + size ys := items_size (reset_tracks g) hr1
  have hslot := @emit_items_unused _ ys g.reset (Nat.le_refl _)
  obtain ⟨hcall, hname⟩ := hg (emit_items ys g.reset).num_fixups (by
    rw [hT.fixups]
    exact hr2.1.2)
  have hgrown : Grown (emit_item (.test op l) (emit_items ys g.reset)) (module_code A gt g) := by
    rw [hlist, emit_items_append, emit_items_cons] at hG
    exact (emit_items_grown zs _).trans hG
  rw [← hlen]
  refine hF.rel htidy hgrown ?_
  rw [hslot]
  have key : ∀ F : Fixup, F.is_func_call = true → F.func_name = f →
      (module_code A gt g).target F
        = some (((module_code A gt g).find_func_offset f).toNat : Int) := by
    intro F hF hFname
    rw [target_call hF (by rwa [hFname]), hFname]
  exact key _ hcall hname

end

/-- The code of a program is the same after whatever was compiled before. -/
def Independent (A : Addresses) (gt : List Node) : Prop :=
  ∀ (mod_name : Option Name) (mod_type : BitVec 32) (g g' : Gen), Reached g → Reached g' →
    SameOutput (codegen_x86_emit A gt mod_name mod_type g)
      (codegen_x86_emit A gt mod_name mod_type g')

/-- With a test in the program, the state of the first compilation and the one after
`callers f` give different code, `f` being the first function of the program. -/
theorem dependent {A : Addresses} {gt : List Node} (h : Fits (listing A gt))
    (hf : ∀ e ∈ (entries 64 (listing A gt)).head?, ¬ isBuiltin e.name)
    (htest : ¬ noTest (listing A gt)) : ¬ Independent A gt := by
  intro hind
  obtain ⟨op, l, hmem⟩ : ∃ op l, .test op l ∈ listing A gt := by
    unfold noTest at htest
    push Not at htest
    exact htest
  obtain ⟨ys, zs, hlist⟩ := List.append_of_mem hmem
  obtain ⟨f, lb, rest, hfirst⟩ := (table_first A .code gt 1).resolve_left fun hnil => by
    rw [listing, hnil] at hmem
    cases hmem
  have hentry : (entries 64 (listing A gt)).head? = some ⟨f, 64⟩ := by
    rw [listing, hfirst]
    rfl
  have hbuiltin := hf _ hentry
  have hin : (⟨f, 64⟩ : FuncSym) ∈ entries 64 (listing A gt) := List.mem_of_mem_head? hentry
  have hlen : f.length ≤ 63 := by
    have hr := h.rooms
    rw [listing, hfirst] at hr
    exact hr.1.2
  have hclean : ∀ i, (Gen.zero.fixups i).is_func_call = false := fun _ => rfl
  have hplaced := module_assembled none 0 .zero h (Or.inr hclean)
  obtain ⟨hfind, hne⟩ := module_func (codegen_x86_emit A (callers f) none 0 .zero).2.2 h.roomy hin
  have hstale := test_stale h none 0 (fun i hi => callers_slots A hbuiltin hlen hi) hlist hne
  have hpos : ((module_code A gt (codegen_x86_emit A (callers f) none 0 .zero).2.2).find_func_offset
      f).toNat = 64 := by
    have hhead : (entries 64 (listing A gt)).find? (fun e => e.name = f) = some ⟨f, 64⟩ := by
      rw [listing, hfirst]
      simp [entries]
    rw [hhead] at hfind
    exact (congrArg FuncSym.offset (Option.some.inj hfind)).symm
  rw [hpos] at hstale
  have hsame := (hind none 0 _ _ .start (.emit A (callers f) none 0 .start)).2
  have hend := module_end none 0 .zero h.roomy
  have hmax := binary_len A gt none 0 .zero
  have htest' : RelAt (codegen_x86_emit A gt none 0 .zero).1 (64 + size ys) op
      ((moduleSymbols A gt .zero).label l) := by
    rw [hlist, assembled_append] at hplaced
    exact hplaced.2.1
  have hsize : 64 + size ys + op.opcode.length + 4 ≤ (codegen_x86_emit A gt none 0 .zero).2.1 := by
    rw [hlist, size_append, size_cons] at hend
    simp only [Item.size] at hend
    omega
  have hle : (codegen_x86_emit A gt none 0 (codegen_x86_emit A (callers f) none 0 .zero).2.2).1.le
      (64 + size ys + op.opcode.length) 4
      = (codegen_x86_emit A gt none 0 .zero).1.le (64 + size ys + op.opcode.length) 4 :=
    le_congr fun x hx hx' => hsame x (by omega) (by omega)
  rw [hstale.rel, htest'.rel] at hle
  have hlabel : l ∈ marks rest := by
    have hclosed := (table_fresh A .code gt 1).closed l (by
      show l ∈ targets (listing A gt)
      rw [hlist, targets_append]
      simp [targets])
    have hmarks := hclosed.resolve_right List.not_mem_nil
    rw [hfirst] at hmarks
    have hrest : l ∈ marks (prologue_items lb ++ rest) := hmarks
    rwa [marks_append, prologue_marks, List.nil_append] at hrest
  have hrest : Assembled (codegen_x86_emit A gt none 0 .zero).1 (moduleSymbols A gt .zero)
      (64 + size (prologue_items lb)) rest := by
    rw [listing, hfirst] at hplaced
    exact (assembled_append.mp hplaced.2).2
  obtain ⟨hlow, hhigh⟩ := assembled_label hrest hlabel
  have hpro := prologue_size lb
  have hsum : 64 + size (prologue_items lb) + size rest ≤ CODE_BUF_SIZE := by
    rw [listing, hfirst, size_cons, size_append] at hend
    simp only [Item.size] at hend
    omega
  have := rel32_inj (by decide) (by omega) (BitVec.eq_of_toNat_eq hle)
  omega

/-- `void main() { if (1) {} }`, its condition without a comparison operator. -/
def testMain : List Node :=
  [.mk 0 (.func ['m', 'a', 'i', 'n'] .null
    (.mk 0 (.block (.mk 0 (.if_ (.mk 0 (.int 1) .null .null) (.mk 0 (.block .null) .null .null)
      .null) .null .null)) .null .null) 262 0 0) .null .null]

theorem testMain_listing : listing .zero testMain =
    [.func ['m', 'a', 'i', 'n'], .op .push_rbp, .op .mov_rsp_rbp, .ins ⟨.sub_rsp, 32⟩, .visit, .visit,
      .alloc, .alloc, .visit, .ins ⟨.movabs_rax, 1⟩, .op .push_rax, .op .pop_rax, .op .test_rax_rax,
      .test (.jcc .e) 2, .visit, .mark 2, .op .leave, .op .ret] := by
  simp [listing, testMain, table_items, entry_items, prologue_items, frameBytes, node_items,
    kind_items, block_items, cond_items, Node.isSome, epilogue_items]

theorem testMain_fits : Fits (listing .zero testMain) where
  rooms := by
    rw [testMain_listing]
    decide
  strings := by
    rw [testMain_listing]
    decide
  calls name hname := by
    rw [testMain_listing] at hname
    simp at hname

end Eke
