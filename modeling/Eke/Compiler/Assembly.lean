/-
From the listing to the finished bytes.

`Assembled` says that a listing stands in the bytes: every instruction byte by byte, every
jump with the distance to its label, every call with the distance to a function, every
string reference with the distance to its string.  `items_assembled` proves it for a listing that
stays within the tables of the generator; what it uses of them is counted beforehand, on
the listing (`Use`).
-/
import Eke.Compiler.Labels
import Eke.Compiler.Patching

namespace Eke

open Gen Store X86

variable {g g' G : Gen} {xs ys : List Item} {F : Store} {i : Item}

/-! ### A listing in the bytes -/

/-- Where the names of a listing stand. -/
structure Symbols where
  label : Nat → Nat
  func : Name → Nat
  string_start : Nat
  string_end : Nat

/-- The bytes `bs` stand at `p`. -/
def BytesAt (m : Store) (p : Nat) (bs : List Byte) : Prop :=
  ∀ k (h : k < bs.length), m (p + k) = bs[k]

/-- The opcode of `op` stands at `p`, and the distance to `t` behind it. -/
structure RelAt (m : Store) (p : Nat) (op : Op) (t : Nat) : Prop where
  opcode : BytesAt m p op.opcode
  rel : m.le (p + op.opcode.length) 4 = (rel32 t (p + op.opcode.length)).toNat

/-- The bytes of a string literal, with the zero behind it. -/
def literal (s : Name) : List Byte := unescape (stripQuotes s) ++ [0]

/-- The bytes an item takes. -/
def Item.size : Item → Nat
  | .ins i => i.bytes.length
  | .jump op _ => op.opcode.length + 4
  | .test op _ => op.opcode.length + 4
  | .call _ => 5
  | .lea _ => 7
  | _ => 0

def size (xs : List Item) : Nat := (xs.map Item.size).sum

/-- An item stands at `p`. -/
def Item.assembled (m : Store) (Y : Symbols) (p : Nat) : Item → Prop
  | .ins i => BytesAt m p i.bytes
  | .jump op l => RelAt m p op (Y.label l)
  | .test op l => RelAt m p op (Y.label l)
  | .call name => RelAt m p .call (Y.func name)
  | .lea s => ∃ q, RelAt m p .lea_rip_rax q ∧ BytesAt m q (literal s) ∧
      Y.string_start ≤ q ∧ q + (literal s).length ≤ Y.string_end
  | .mark l => Y.label l = p
  | _ => True

/-- A listing stands from `p` on. -/
def Assembled (m : Store) (Y : Symbols) : Nat → List Item → Prop
  | _, [] => True
  | p, i :: is => i.assembled m Y p ∧ Assembled m Y (p + i.size) is

@[simp] theorem size_nil : size [] = 0 := rfl

@[simp] theorem size_cons : size (i :: xs) = i.size + size xs := by simp [size]

@[simp] theorem size_append : size (xs ++ ys) = size xs + size ys := by simp [size]

theorem assembled_append {Y : Symbols} : ∀ {xs : List Item} {p : Nat},
    Assembled F Y p (xs ++ ys) ↔ Assembled F Y p xs ∧ Assembled F Y (p + size xs) ys := by
  intro xs
  induction xs with
  | nil => intro p; simp [Assembled]
  | cons i xs ih =>
      intro p
      simp only [List.cons_append, Assembled, ih, size_cons, and_assoc, Nat.add_assoc]

/-! ### What a listing uses of the tables -/

structure Use where
  len : Nat
  labels : Nat
  fixups : Nat
  funcs : List Name
  pool : Nat
  strs : Nat

namespace Use

/-- The use after an item. -/
def after (u : Use) : Item → Use
  | .ins i => { u with len := u.len + i.bytes.length }
  | .jump op _ => { u with len := u.len + (op.opcode.length + 4), fixups := u.fixups + 1 }
  | .test op _ => { u with len := u.len + (op.opcode.length + 4), fixups := u.fixups + 1 }
  | .call name =>
      { u with len := u.len + 5, fixups := if name ∈ u.funcs then u.fixups else u.fixups + 1 }
  | .lea s =>
      { u with len := u.len + 7, pool := u.pool + (literal s).length, strs := u.strs + 1 }
  | .func name => { u with funcs := u.funcs ++ [name] }
  | .alloc => { u with labels := u.labels + 1 }
  | _ => u

/-- The tables have room for an item. -/
def Room (u : Use) : Item → Prop
  | .ins i => u.len + i.bytes.length ≤ CODE_BUF_SIZE
  | .jump op _ => u.len + (op.opcode.length + 4) ≤ CODE_BUF_SIZE ∧ u.fixups < MAX_FIXUPS
  | .test op _ => u.len + (op.opcode.length + 4) ≤ CODE_BUF_SIZE ∧ u.fixups < MAX_FIXUPS
  | .call name =>
      u.len + 5 ≤ CODE_BUF_SIZE ∧ name.length ≤ 63 ∧ (name ∈ u.funcs ∨ u.fixups < MAX_FIXUPS)
  | .lea s =>
      u.len + 7 ≤ CODE_BUF_SIZE ∧ u.strs < MAX_STR_FIXUPS ∧ u.pool + (literal s).length < MAX_STR_POOL
  | .func name => u.funcs.length < 128 ∧ name.length ≤ 63
  | .alloc => u.labels < MAX_LABELS
  | _ => True

/-- The tables have room for a listing. -/
def Rooms (u : Use) : List Item → Prop
  | [] => True
  | i :: is => u.Room i ∧ (u.after i).Rooms is

instance (u : Use) : (i : Item) → Decidable (u.Room i)
  | .ins i => inferInstanceAs (Decidable (u.len + i.bytes.length ≤ CODE_BUF_SIZE))
  | .jump op _ => inferInstanceAs (Decidable
      (u.len + (op.opcode.length + 4) ≤ CODE_BUF_SIZE ∧ u.fixups < MAX_FIXUPS))
  | .test op _ => inferInstanceAs (Decidable
      (u.len + (op.opcode.length + 4) ≤ CODE_BUF_SIZE ∧ u.fixups < MAX_FIXUPS))
  | .call name => inferInstanceAs (Decidable
      (u.len + 5 ≤ CODE_BUF_SIZE ∧ name.length ≤ 63 ∧ (name ∈ u.funcs ∨ u.fixups < MAX_FIXUPS)))
  | .lea s => inferInstanceAs (Decidable (u.len + 7 ≤ CODE_BUF_SIZE ∧ u.strs < MAX_STR_FIXUPS ∧
      u.pool + (literal s).length < MAX_STR_POOL))
  | .func name => inferInstanceAs (Decidable (u.funcs.length < 128 ∧ name.length ≤ 63))
  | .alloc => inferInstanceAs (Decidable (u.labels < MAX_LABELS))
  | .mark _ => isTrue trivial
  | .visit => isTrue trivial
  | .drop => isTrue trivial
  | .skip => isTrue trivial
  | .cut => isTrue trivial

instance instDecidableRooms : (is : List Item) → (u : Use) → Decidable (u.Rooms is)
  | [], _ => isTrue trivial
  | i :: is, u =>
      have : Decidable ((u.after i).Rooms is) := instDecidableRooms is (u.after i)
      inferInstanceAs (Decidable (u.Room i ∧ (u.after i).Rooms is))

def afterAll (u : Use) (is : List Item) : Use := is.foldl after u

/-- Before the first function. -/
def start : Use := ⟨64, 1, 0, [], 0, 0⟩

end Use

/-- The counters of the generator are those of the count. -/
structure Tracks (g : Gen) (u : Use) : Prop where
  len : g.code_len = u.len
  labels : g.next_label_id = u.labels
  fixups : g.num_fixups = u.fixups
  funcs : g.func_table.map FuncSym.name = u.funcs
  pool : g.str_pool.length = u.pool
  strs : g.num_str_fixups = u.strs
  lost : g.lost = false

theorem emit_bytes_room {bs : List Byte} (hl : g.lost = false)
    (h : g.code_len + bs.length ≤ CODE_BUF_SIZE) : (g.emit_bytes bs).lost = false := by
  induction bs generalizing g with
  | nil => exact hl
  | cons b bs ih =>
      simp only [List.length_cons] at h
      have hlt : g.code_len < CODE_BUF_SIZE := by omega
      have hb : g.emit_byte b =
          { g with code_buf := g.code_buf.set g.code_len b, code_len := g.code_len + 1 } := by
        unfold emit_byte
        rw [if_pos hlt]
      refine ih (g := g.emit_byte b) ?_ ?_
      · rw [hb]
        exact hl
      · rw [hb]
        simp only
        omega

section

variable (g) (bs : List Byte) (f : Fixup → Fixup) (off : Nat)

@[simp] theorem emit_bytes_funcs : (g.emit_bytes bs).func_table = g.func_table :=
  emit_bytes_keeps Gen.func_table fun b g => by unfold emit_byte; split <;> rfl

@[simp] theorem emit_bytes_pool : (g.emit_bytes bs).str_pool = g.str_pool :=
  emit_bytes_keeps Gen.str_pool fun b g => by unfold emit_byte; split <;> rfl

@[simp] theorem add_fixup_funcs : (g.add_fixup f).func_table = g.func_table := by
  unfold add_fixup; split <;> rfl

@[simp] theorem add_fixup_pool : (g.add_fixup f).str_pool = g.str_pool := by
  unfold add_fixup; split <;> rfl

@[simp] theorem add_str_fixup_funcs : (g.add_str_fixup off).func_table = g.func_table := by
  unfold add_str_fixup; split <;> rfl

@[simp] theorem add_str_fixup_pool : (g.add_str_fixup off).str_pool = g.str_pool := by
  unfold add_str_fixup; split <;> rfl

end

variable {u : Use} {bs : List Byte}

theorem Tracks.bytes (h : Tracks g u) (bs : List Byte) (hr : u.len + bs.length ≤ CODE_BUF_SIZE) :
    Tracks (g.emit_bytes bs) { u with len := u.len + bs.length } := by
  have hlost := emit_bytes_room h.lost (by rw [h.len]; exact hr)
  refine ⟨?_, by simp [h.labels], by simp [h.fixups], by simp [h.funcs], by simp [h.pool],
    by simp [h.strs], hlost⟩
  rw [emit_bytes_len hlost, h.len]

theorem Tracks.fixup (h : Tracks g u) (f : Fixup → Fixup) (hr : u.fixups < MAX_FIXUPS) :
    Tracks (g.add_fixup f) { u with fixups := u.fixups + 1 } := by
  have hlt : g.num_fixups < MAX_FIXUPS := by rw [h.fixups]; exact hr
  refine ⟨by simp [h.len], by simp [h.labels], ?_, by simp [h.funcs], by simp [h.pool],
    by simp [h.strs], ?_⟩
  · unfold add_fixup
    rw [if_pos hlt]
    exact congrArg (· + 1) h.fixups
  · unfold add_fixup
    rw [if_pos hlt]
    exact h.lost

theorem Tracks.str_fixup (h : Tracks g u) (off : Nat) (hr : u.strs < MAX_STR_FIXUPS) :
    Tracks (g.add_str_fixup off) { u with strs := u.strs + 1 } := by
  have hlt : g.num_str_fixups < MAX_STR_FIXUPS := by rw [h.strs]; exact hr
  refine ⟨by simp [h.len], by simp [h.labels], by simp [h.fixups], by simp [h.funcs],
    by simp [h.pool], ?_, by simp [h.lost]⟩
  unfold add_str_fixup
  rw [if_pos hlt]
  exact congrArg (· + 1) h.strs

theorem Tracks.u32 (h : Tracks g u) (v : BitVec 32) (hr : u.len + 4 ≤ CODE_BUF_SIZE) :
    Tracks (g.emit_u32 v) { u with len := u.len + 4 } := by
  rw [emit_u32_eq]
  exact h.bytes (leBytes 4 v.toNat) hr

/-- A function is found if and only if it was registered. -/
theorem find_ne_iff {name : Name} :
    g.find_func_offset name ≠ -1 ↔ name ∈ g.func_table.map FuncSym.name := by
  unfold find_func_offset
  cases hf : g.func_table.find? fun f => f.name = name with
  | none =>
      rw [List.find?_eq_none] at hf
      simp only [ne_eq, not_true_eq_false, List.mem_map, false_iff, not_exists, not_and]
      intro f hmem heq
      exact hf f hmem (by simpa using heq)
  | some f =>
      have hname : f.name = name := by simpa using List.find?_some hf
      have hmem := List.mem_of_find?_eq_some hf
      simp only [ne_eq, List.mem_map]
      exact ⟨fun _ => ⟨f, hmem, hname⟩, fun _ => by omega⟩

/-- The pool takes a string that has room. -/
theorem pool_room {s : Name} (h : g.str_pool.length + (literal s).length < MAX_STR_POOL) :
    g.add_to_string_pool s = (g.str_pool.length, { g with str_pool := g.str_pool ++ literal s }) := by
  unfold literal at h ⊢
  rw [List.length_append, List.length_singleton] at h
  unfold add_to_string_pool
  rw [List.take_of_length_le (by omega)]
  simp only [List.append_assoc]

/-- One item keeps the count. -/
theorem Tracks.item (h : Tracks g u) (hr : u.Room i) : Tracks (emit_item i g) (u.after i) := by
  cases i with
  | ins i => exact h.bytes _ hr
  | jump op l =>
      have h1 := h.bytes op.opcode (by have := hr.1; omega)
      have h2 := (h1.fixup (fun f => { f with label_id := l, is_func_call := false }) hr.2).u32 0
        (by have := hr.1; simp only; omega)
      simpa [emit_item, Use.after, Nat.add_assoc] using h2
  | test op l =>
      have h1 := h.bytes op.opcode (by have := hr.1; omega)
      have h2 := (h1.fixup (fun f => { f with label_id := l }) hr.2).u32 0
        (by have := hr.1; simp only; omega)
      simpa [emit_item, Use.after, Nat.add_assoc] using h2
  | call name =>
      obtain ⟨hlen, hname, hroom⟩ := hr
      have h1 := h.bytes [0xE8] (by simp; omega)
      have hmem : g.find_func_offset name ≠ -1 ↔ name ∈ u.funcs := by rw [find_ne_iff, h.funcs]
      simp only [emit_item, emit_call_rel, Use.after]
      by_cases hin : name ∈ u.funcs
      · rw [if_pos (hmem.mpr hin), if_pos hin]
        simpa [Nat.add_assoc] using h1.u32 _ (by simp; omega)
      · rw [if_neg (fun hc => hin (hmem.mp hc)), if_neg hin]
        have h2 := (h1.fixup (fun f => { f with is_func_call := true, func_name := name.take 63 })
          (hroom.resolve_left hin)).u32 0 (by simp; omega)
        simpa [Nat.add_assoc] using h2
  | lea s =>
      obtain ⟨hlen, hstrs, hpool⟩ := hr
      have h0 : Tracks { g with str_pool := g.str_pool ++ literal s }
          { u with pool := u.pool + (literal s).length } :=
        ⟨h.len, h.labels, h.fixups, h.funcs, by simp [h.pool], h.strs, h.lost⟩
      have h1 := ((h0.bytes [0x48, 0x8D, 0x05] (by simp; omega)).str_fixup g.str_pool.length
        hstrs).u32 0 (by simp; omega)
      simp only [emit_item]
      rw [pool_room (by rw [h.pool]; exact hpool)]
      simpa [Use.after, Nat.add_assoc] using h1
  | func name =>
      obtain ⟨hroom, hname⟩ := hr
      have hlt : g.func_table.length < 128 := by rw [← List.length_map FuncSym.name, h.funcs]; exact hroom
      simp only [emit_item, register_func]
      rw [if_pos hlt]
      refine ⟨h.len, h.labels, h.fixups, ?_, h.pool, h.strs, h.lost⟩
      rw [List.map_append, h.funcs]
      simp [Use.after, List.take_of_length_le hname]
  | alloc =>
      have hlt : g.next_label_id < MAX_LABELS := by rw [h.labels]; exact hr
      simp only [emit_item, alloc_label]
      rw [if_pos hlt]
      exact ⟨h.len, congrArg (· + 1) h.labels, h.fixups, h.funcs, h.pool, h.strs, h.lost⟩
  | mark l =>
      simp only [emit_item, mark_label]
      split <;> exact ⟨h.len, h.labels, h.fixups, h.funcs, h.pool, h.strs, h.lost⟩
  | visit => exact ⟨h.len, h.labels, h.fixups, h.funcs, h.pool, h.strs, h.lost⟩
  | drop => exact ⟨h.len, h.labels, h.fixups, h.funcs, h.pool, h.strs, h.lost⟩
  | skip => exact ⟨h.len, h.labels, h.fixups, h.funcs, h.pool, h.strs, h.lost⟩
  | cut => exact ⟨h.len, h.labels, h.fixups, h.funcs, h.pool, h.strs, h.lost⟩

theorem Tracks.items : ∀ {xs : List Item} {g : Gen} {u : Use}, Tracks g u → u.Rooms xs →
    Tracks (emit_items xs g) (u.afterAll xs) := by
  intro xs
  induction xs with
  | nil => intro g u h _; exact h
  | cons i xs ih => intro g u h hr; exact ih (h.item hr.1) hr.2

/-! ### What later items leave alone -/

theorem emit_item_grown (i : Item) (g : Gen) : Grown g (emit_item i g) := by
  cases i with
  | ins i => exact emit_bytes_grown
  | jump op l => exact (emit_bytes_grown.trans (fixup_grown _))
  | test op l => exact (emit_bytes_grown.trans (fixup_grown _))
  | call name => exact (emit_call_rel_grown name)
  | lea s =>
      exact (((add_to_string_pool_grown s).trans emit_bytes_grown).trans (str_fixup_grown _))
  | func name => exact (register_grown _ _)
  | alloc => exact alloc_grown
  | mark l =>
      have h : Grown g g := Grown.refl
      simp only [emit_item, mark_label]
      split
      · exact ⟨h.lost, h.len, h.buf, h.num, h.fix, h.hole, h.strNum, h.strFix, h.strHole⟩
      · exact h
  | visit => exact visit_grown
  | drop => exact drop_grown
  | skip => exact skipStore_grown
  | cut => exact Grown.refl

theorem emit_items_grown : ∀ (xs : List Item) (g : Gen), Grown g (emit_items xs g) := by
  intro xs
  induction xs with
  | nil => intro g; exact Grown.refl
  | cons i xs ih => intro g; exact (emit_item_grown i g).trans (ih _)

/-- The function table and the string pool only grow. -/
structure Appended (g g' : Gen) : Prop where
  funcs : g.func_table <+: g'.func_table
  pool : g.str_pool <+: g'.str_pool

theorem Appended.trans {g'' : Gen} (h : Appended g g') (h' : Appended g' g'') : Appended g g'' :=
  ⟨h.funcs.trans h'.funcs, h.pool.trans h'.pool⟩

theorem Appended.of_eq (hf : g'.func_table = g.func_table) (hp : g'.str_pool = g.str_pool) :
    Appended g g' := by
  constructor
  · rw [hf]
  · rw [hp]

theorem emit_item_appended (i : Item) (g : Gen) : Appended g (emit_item i g) := by
  cases i with
  | ins i => exact .of_eq (by simp [emit_item]) (by simp [emit_item])
  | jump op l => exact .of_eq (by simp [emit_item, emit_u32_eq]) (by simp [emit_item, emit_u32_eq])
  | test op l => exact .of_eq (by simp [emit_item, emit_u32_eq]) (by simp [emit_item, emit_u32_eq])
  | call name =>
      simp only [emit_item, emit_call_rel]
      split <;> exact .of_eq (by simp [emit_u32_eq]) (by simp [emit_u32_eq])
  | lea s =>
      constructor
      · simp [emit_item, emit_u32_eq, add_to_string_pool]
      · simp [emit_item, emit_u32_eq, add_to_string_pool]
  | func name =>
      simp only [emit_item, register_func]
      split
      · exact ⟨List.prefix_append _ _, List.prefix_refl _⟩
      · exact .of_eq rfl rfl
  | alloc =>
      simp only [emit_item, alloc_label]
      split <;> exact .of_eq rfl rfl
  | mark l =>
      simp only [emit_item, mark_label]
      split <;> exact .of_eq rfl rfl
  | visit => exact .of_eq rfl rfl
  | drop => exact .of_eq rfl rfl
  | skip => exact .of_eq rfl rfl
  | cut => exact .of_eq rfl rfl

theorem emit_items_appended : ∀ (xs : List Item) (g : Gen), Appended g (emit_items xs g) := by
  intro xs
  induction xs with
  | nil => intro g; exact .of_eq rfl rfl
  | cons i xs ih => intro g; exact (emit_item_appended i g).trans (ih _)

/-- A function that was found stays where it was found. -/
theorem Appended.find {name : Name} (h : Appended g g') (hf : g.find_func_offset name ≠ -1) :
    g'.find_func_offset name = g.find_func_offset name := by
  obtain ⟨ys, hys⟩ := h.funcs
  unfold find_func_offset at hf ⊢
  rw [← hys, List.find?_append]
  cases hfind : g.func_table.find? fun f => f.name = name with
  | none => rw [hfind] at hf; exact absurd rfl hf
  | some f => rfl

/-- A label that is not placed again keeps its place. -/
theorem emit_item_label {l : Nat} (hl : l < g.next_label_id) (hm : l ∉ marks [i]) :
    (emit_item i g).label_pos l = g.label_pos l := by
  cases i with
  | alloc =>
      simp only [emit_item, alloc_label]
      split
      · exact if_neg (Nat.ne_of_lt hl)
      · rfl
  | mark k =>
      simp only [emit_item, mark_label]
      split
      · exact if_neg (by simpa [marks] using hm)
      · rfl
  | ins i => simp [emit_item]
  | jump op l => simp [emit_item, emit_u32_eq]
  | test op l => simp [emit_item, emit_u32_eq]
  | call name =>
      simp only [emit_item, emit_call_rel]
      split <;> simp [emit_u32_eq]
  | lea s => simp [emit_item, emit_u32_eq, add_to_string_pool]
  | func name =>
      simp only [emit_item, register_func]
      split <;> rfl
  | visit => rfl
  | drop => rfl
  | skip => rfl
  | cut => rfl

theorem emit_items_label {l : Nat} : ∀ {xs : List Item} {g : Gen}, l < g.next_label_id →
    l ∉ marks xs → (emit_items xs g).label_pos l = g.label_pos l := by
  intro xs
  induction xs with
  | nil => intro g _ _; rfl
  | cons i xs ih =>
      intro g hl hm
      have hsplit : marks (i :: xs) = marks [i] ++ marks xs := by
        rw [← marks_append, List.singleton_append]
      rw [hsplit, List.mem_append, not_or] at hm
      have hnext := emit_item_next i (g := g)
      rw [emit_items_cons, ih (by omega) hm.2, emit_item_label hl hm.1]

/-! ### The listing stands in the finished bytes -/

/-- The places that `G` gives the names. -/
def symbols (G : Gen) (start : Nat) : Symbols where
  label l := (G.label_pos l).toNat
  func name := (G.find_func_offset name).toNat
  string_start := start
  string_end := start + G.str_pool.length

/-- The finished bytes of `G`, with the strings from `start` on. -/
structure Finished (G : Gen) (start : Nat) (F : Store) : Prop where
  patched : Patched G start F
  lost : G.lost = false
  pool : BytesAt F start G.str_pool

variable {start : Nat}

theorem Finished.bytes (hF : Finished G start F) (ht : Tidy g) (hG : Grown (g.emit_bytes bs) G) :
    BytesAt F g.code_len bs :=
  fun _ hk => bytes_at hF.patched hF.lost ht _ hG hk

/-- A jump or a call by way of a fixup. -/
theorem Finished.rel (hF : Finished G start F) (ht : Tidy g) {op : Op} {f : Fixup → Fixup}
    (hG : Grown (((g.emit_bytes op.opcode).add_fixup f).emit_u32 0) G) {t : Nat}
    (htarget : G.target { f (g.fixups g.num_fixups) with
      patch_pos := (g.emit_bytes op.opcode).code_len } = some (t : Int)) :
    RelAt F g.code_len op t := by
  have hG' : Grown (g.emit_bytes op.opcode) G := (fixup_grown f).trans hG
  have hlost := hG'.lost hF.lost
  have hlen := emit_bytes_len hlost
  have ht' : Tidy (g.emit_bytes op.opcode) := ht.grown emit_bytes_grown hlost
  refine ⟨hF.bytes ht hG', ?_⟩
  have := fixup_at hF.patched hF.lost ht' hG (t := t) (by simpa using htarget)
  rwa [hlen] at this

/-- Inside the module, a distance is the one to the place it leads to. -/
theorem target_jump {f : Fixup} (hcall : f.is_func_call = false) (hmax : f.label_id < MAX_LABELS)
    (hpos : 0 ≤ G.label_pos f.label_id) :
    G.target f = some (((G.label_pos f.label_id).toNat : Nat) : Int) := by
  unfold Gen.target
  rw [hcall, if_neg (by simp), if_pos ⟨hmax, by omega⟩, Int.toNat_of_nonneg hpos]

theorem find_nonneg {name : Name} (h : G.find_func_offset name ≠ -1) :
    ((G.find_func_offset name).toNat : Int) = G.find_func_offset name := by
  refine Int.toNat_of_nonneg ?_
  unfold find_func_offset at h ⊢
  split
  · exact Int.natCast_nonneg _
  · rename_i hf
    rw [hf] at h
    exact absurd rfl h

theorem target_call {f : Fixup} (hcall : f.is_func_call = true)
    (hfind : G.find_func_offset f.func_name ≠ -1) :
    G.target f = some (((G.find_func_offset f.func_name).toNat : Nat) : Int) := by
  unfold Gen.target
  rw [hcall, if_pos rfl, if_pos hfind, find_nonneg hfind]

/-- What the end knows about the names an item uses. -/
structure Resolved (G : Gen) (g : Gen) (i : Item) : Prop where
  mark : ∀ l ∈ marks [i], G.label_pos l = g.code_len
  target : ∀ l ∈ targets [i], l < MAX_LABELS ∧ 0 ≤ G.label_pos l
  call : ∀ name, i = .call name → G.find_func_offset name ≠ -1
  test : ∀ op l, i = .test op l → (g.fixups g.num_fixups).is_func_call = false

theorem item_assembled (hF : Finished G start F) (ht : Tidy g) (hT : Tracks g u) (hr : u.Room i)
    (hG : Grown (emit_item i g) G) (hA : Appended (emit_item i g) G) (hR : Resolved G g i) :
    i.assembled F (symbols G start) g.code_len := by
  cases i with
  | ins i => exact hF.bytes ht hG
  | jump op l =>
      obtain ⟨hmax, hpos⟩ := hR.target l (List.mem_singleton_self l)
      exact hF.rel ht hG (target_jump rfl hmax hpos)
  | test op l =>
      obtain ⟨hmax, hpos⟩ := hR.target l (List.mem_singleton_self l)
      exact hF.rel ht hG (target_jump (hR.test op l rfl) hmax hpos)
  | call name =>
      have hfind := hR.call name rfl
      simp only [emit_item, emit_call_rel] at hG
      by_cases hnow : g.find_func_offset name ≠ -1
      · rw [if_pos hnow] at hG
        have hsame : G.find_func_offset name = g.find_func_offset name :=
          ((emit_item_appended (.call name) g).trans hA).find hnow
        have hone := (emit_u32_grown _).trans hG
        have hlost := hone.lost hF.lost
        have hlen := emit_bytes_len hlost
        have ht' : Tidy (g.emit_bytes [0xE8]) := ht.grown emit_bytes_grown hlost
        rw [emit_u32_eq] at hG
        refine ⟨hF.bytes ht hone, ?_⟩
        have hb := hF.bytes ht' hG
        rw [hlen] at hb
        have hle := le_of_leBytes hb
        rw [show (256 : Nat) ^ 4 = 2 ^ 32 by rfl, Nat.mod_eq_of_lt (BitVec.isLt _)] at hle
        refine hle.trans ?_
        show _ = (rel32 ((G.find_func_offset name).toNat : Nat) _).toNat
        rw [find_nonneg hfind, hsame]
        rfl
      · rw [if_neg hnow] at hG
        have hname : name.take 63 = name := List.take_of_length_le hr.2.1
        refine @Finished.rel _ _ _ _ hF ht .call _ hG (G.find_func_offset name).toNat ?_
        rw [hname]
        exact target_call rfl hfind
  | lea s =>
      obtain ⟨hlen, hstrs, hpool⟩ := hr
      have hroom := pool_room (g := g) (by rw [hT.pool]; exact hpool)
      simp only [emit_item] at hG hA
      rw [hroom] at hG hA
      have hG' := (str_fixup_grown _).trans hG
      have hlost := hG'.lost hF.lost
      have hlen := emit_bytes_len hlost
      have h0 : Grown g { g with str_pool := g.str_pool ++ literal s } :=
        .of_eq rfl rfl rfl rfl rfl rfl rfl
      have ht0 := ht.grown h0 (emit_bytes_lost hlost)
      have ht' := ht0.grown emit_bytes_grown hlost
      obtain ⟨ys, hys⟩ := hA.pool
      simp only [emit_u32_eq, emit_bytes_pool, add_str_fixup_pool] at hys
      have hop := hF.bytes ht0 hG'
      refine ⟨start + g.str_pool.length, ⟨hop, ?_⟩, fun k hk => ?_, Nat.le_add_right _ _, ?_⟩
      · have := str_fixup_at hF.patched hF.lost ht' hG (by
          rw [emit_bytes_str_num, hT.strs]
          exact hstrs)
        rwa [hlen] at this
      · have := hF.pool (g.str_pool.length + k) (by rw [← hys]; simp; omega)
        rw [Nat.add_assoc, this]
        simp only [← hys]
        rw [List.getElem_append_left (by simp; omega), List.getElem_append_right (by omega)]
        simp
      · show start + g.str_pool.length + (literal s).length ≤ start + G.str_pool.length
        rw [← hys]
        simp
        omega
  | mark l =>
      show (G.label_pos l).toNat = g.code_len
      rw [hR.mark l (List.mem_singleton_self l)]
      rfl
  | func name => trivial
  | alloc => trivial
  | visit => trivial
  | drop => trivial
  | skip => trivial
  | cut => trivial

/-- The listing does not jump by way of a slot that keeps its `is_func_call`. -/
def noTest (xs : List Item) : Prop := ∀ op l, .test op l ∉ xs

/-- No fixup slot is marked as a call. -/
def Clean (g : Gen) : Prop := ∀ i, g.num_fixups ≤ i → (g.fixups i).is_func_call = false

/-- A slot that is not used yet is as it was. -/
theorem add_fixup_unused {f : Fixup → Fixup} {k : Nat} (hk : (g.add_fixup f).num_fixups ≤ k) :
    (g.add_fixup f).fixups k = g.fixups k := by
  unfold add_fixup at hk ⊢
  split
  · rename_i hlt
    rw [if_pos hlt] at hk
    simp only at hk ⊢
    exact if_neg (by omega)
  · rfl

theorem emit_item_unused {k : Nat} (hk : (emit_item i g).num_fixups ≤ k) :
    (emit_item i g).fixups k = g.fixups k := by
  cases i with
  | ins i => simp [emit_item]
  | jump op l =>
      simp only [emit_item, emit_u32_eq, emit_bytes_num, emit_bytes_fixups] at hk ⊢
      rw [add_fixup_unused hk, emit_bytes_fixups]
  | test op l =>
      simp only [emit_item, emit_u32_eq, emit_bytes_num, emit_bytes_fixups] at hk ⊢
      rw [add_fixup_unused hk, emit_bytes_fixups]
  | call name =>
      simp only [emit_item, emit_call_rel] at hk ⊢
      split
      · simp [emit_u32_eq]
      · rename_i hnot
        rw [if_neg hnot] at hk
        simp only [emit_u32_eq, emit_bytes_num, emit_bytes_fixups] at hk ⊢
        rw [add_fixup_unused hk, emit_bytes_fixups]
  | lea s => simp [emit_item, emit_u32_eq, add_to_string_pool]
  | func name =>
      simp only [emit_item, register_func]
      split <;> rfl
  | alloc =>
      simp only [emit_item, alloc_label]
      split <;> rfl
  | mark l =>
      simp only [emit_item, mark_label]
      split <;> rfl
  | visit => rfl
  | drop => rfl
  | skip => rfl
  | cut => rfl

theorem emit_items_unused {k : Nat} : ∀ {xs : List Item} {g : Gen},
    (emit_items xs g).num_fixups ≤ k → (emit_items xs g).fixups k = g.fixups k := by
  intro xs
  induction xs with
  | nil => intro g _; rfl
  | cons i xs ih =>
      intro g hk
      have hnum := (emit_items_grown xs (emit_item i g)).num
      rw [emit_items_cons] at hk ⊢
      rw [ih hk, emit_item_unused (by omega)]

theorem emit_item_clean (h : Clean g) : Clean (emit_item i g) := by
  intro k hk
  have := (emit_item_grown i g).num
  rw [emit_item_unused hk]
  exact h k (by omega)

/-- The listing stands where it was emitted. -/
theorem items_assembled (hF : Finished G start F) : ∀ {xs : List Item} {g : Gen} {u : Use}, Tidy g →
    Tracks g u → u.Rooms xs → Marked g.next_label_id xs →
    Grown (emit_items xs g) G → Appended (emit_items xs g) G →
    (∀ l ∈ marks xs, l < MAX_LABELS ∧ G.label_pos l = (emit_items xs g).label_pos l) →
    (∀ l ∈ targets xs, l < MAX_LABELS ∧ 0 ≤ G.label_pos l) →
    (∀ name, .call name ∈ xs → G.find_func_offset name ≠ -1) →
    (noTest xs ∨ Clean g) →
    Assembled F (symbols G start) g.code_len xs := by
  intro xs
  induction xs with
  | nil => intros; trivial
  | cons i xs ih =>
      intro g u ht hT hr hm hG hA hmarks htargets hcalls hclean
      have hsplit : marks (i :: xs) = marks [i] ++ marks xs := by
        rw [← marks_append, List.singleton_append]
      have hsplit' : targets (i :: xs) = targets [i] ++ targets xs := by
        rw [← targets_append, List.singleton_append]
      have hT' := hT.item hr.1
      have hone : Grown (emit_item i g) G := (emit_items_grown xs _).trans hG
      have ht' : Tidy (emit_item i g) := ht.grown (emit_item_grown i g) hT'.lost
      have hsize : (emit_item i g).code_len = g.code_len + i.size := by
        rw [hT'.len, hT.len]
        cases i <;> simp [Use.after, Item.size]
      have hR : Resolved G g i := by
        refine ⟨fun l hl => ?_, fun l hl => htargets l (by rw [hsplit']; exact List.mem_append_left _ hl),
          fun name heq => hcalls name (heq ▸ List.mem_cons_self ..), fun op l heq => ?_⟩
        · rw [(hmarks l (by rw [hsplit]; exact List.mem_append_left _ hl)).2]
          cases i with
          | mark k =>
              obtain ⟨hk, hnot, -⟩ := hm
              obtain rfl := List.mem_singleton.mp hl
              have hlab := (hmarks l (List.mem_cons_self ..)).1
              rw [emit_items_cons, emit_items_label (by rw [emit_item_next]; omega) hnot]
              simp [emit_item, mark_label, hlab]
          | _ => simp [marks] at hl
        · rcases hclean with h | h
          · exact absurd (heq ▸ List.mem_cons_self ..) (h op l)
          · exact h _ (Nat.le_refl _)
      refine ⟨item_assembled hF ht hT hr.1 hone ((emit_items_appended xs _).trans hA) hR, ?_⟩
      rw [← hsize]
      refine ih ht' hT' hr.2 ?_ hG hA (fun l hl => hmarks l (by rw [hsplit]; exact List.mem_append_right _ hl))
        (fun l hl => htargets l (by rw [hsplit']; exact List.mem_append_right _ hl))
        (fun name hname => hcalls name (List.mem_cons_of_mem _ hname)) ?_
      · rw [emit_item_next]
        exact hm.tail
      · rcases hclean with h | h
        · exact Or.inl fun op l hmem => h op l (List.mem_cons_of_mem _ hmem)
        · exact Or.inr (emit_item_clean h)

end Eke
