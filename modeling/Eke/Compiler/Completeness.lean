/-
Complete binaries.

A program that stays within the tables of the generator is turned into a binary in which
its whole listing stands: every byte, every jump, every call, every string, every
argument.  Nothing is reported when a table is full, so a larger program gives a binary
that lacks something.
-/
import Eke.Compiler.Assembly

namespace Eke

open Gen Store X86

variable {g g' G : Gen} {xs ys : List Item} {F : Store} {u : Use}

/-! ### Arguments -/

section

variable (A : Addresses) (L : Limits)

/-- The number of arguments emitted matters only if it is too small. -/
theorem args_enough : ∀ (k : Node) (m m' n : Nat), chainLength k ≤ m → chainLength k ≤ m' →
    args_items A L m k n = args_items A L m' k n
  | .null, m, m', n, _, _ => by cases m <;> cases m' <;> simp only [args_items]
  | .mk _ k _ nx, m, m', n, h, h' => by
      cases m with
      | zero => simp [chainLength] at h
      | succ m =>
          cases m' with
          | zero => simp [chainLength] at h'
          | succ m' =>
              simp only [chainLength, Nat.add_le_add_iff_right] at h h'
              simp only [args_items]
              rw [args_enough nx m m' n h h']

theorem cut_short {n : Nat} {args : Node} (h : .cut ∉ cut_items n args) : chainLength args ≤ n := by
  unfold cut_items at h
  by_contra hc
  rw [if_pos (by omega)] at h
  exact h (List.mem_singleton_self _)

theorem cut_none {n : Nat} {args : Node} (h : chainLength args ≤ n) : cut_items n args = [] :=
  if_neg (by omega)

variable (h32 : 32 ≤ L.args) (h1 : 1 ≤ L.first)

include h32 h1

set_option linter.unusedSectionVars false

mutual

/-- A listing from which no argument is left out is the same with larger limits. -/
theorem node_uncut : ∀ (k : Node) (n : Nat), .cut ∉ node_items A .code k n →
    node_items A L k n = node_items A .code k n
  | .null, n, _ => by simp only [node_items]
  | .mk _ k _ _, n, h => by
      simp only [node_items, List.mem_cons, not_or] at h ⊢
      rw [kind_uncut k n h.2]

theorem cond_uncut : ∀ (k : Node) (label : Nat) (b : Bool) (n : Nat),
    .cut ∉ cond_items A .code k label b n →
    cond_items A L k label b n = cond_items A .code k label b n
  | .null, label, b, n, _ => by simp only [cond_items]
  | .mk _ k _ _, label, b, n, h => by
      cases k with
      | bin op left right =>
          simp only [cond_items, List.mem_append, not_or] at h ⊢
          rw [node_uncut left n h.1.1.2, node_uncut right _ h.1.2]
      | _ =>
          simp only [cond_items, List.mem_append, not_or] at h ⊢
          rw [kind_uncut _ n h.1.2]

theorem block_uncut : ∀ (k : Node) (n : Nat), .cut ∉ block_items A .code k n →
    block_items A L k n = block_items A .code k n
  | .null, n, _ => by simp only [block_items]
  | .mk _ k _ nx, n, h => by
      cases k with
      | var dt offset value =>
          simp only [block_items] at h ⊢
          by_cases hv : value.isSome = true
          · simp only [if_pos hv, List.mem_append, not_or] at h ⊢
            rw [node_uncut value n h.1.2.1, block_uncut nx _ h.2]
          · simp only [if_neg hv, List.mem_append, not_or] at h ⊢
            rw [block_uncut nx _ h.2]
      | _ =>
          simp only [block_items, List.mem_append, not_or] at h ⊢
          rw [kind_uncut _ n h.1.2, block_uncut nx _ h.2]

theorem args_uncut : ∀ (m : Nat) (k : Node) (n : Nat), .cut ∉ args_items A .code m k n →
    args_items A L m k n = args_items A .code m k n
  | m, .null, n, _ => by cases m <;> simp only [args_items]
  | m, .mk _ k _ nx, n, h => by
      cases m with
      | zero => simp only [args_items]
      | succ m =>
          simp only [args_items, List.mem_append, not_or] at h ⊢
          rw [args_uncut m nx n h.1.1, kind_uncut k _ h.2]

theorem kind_uncut : ∀ (k : Kind) (n : Nat), .cut ∉ kind_items A .code k n →
    kind_items A L k n = kind_items A .code k n
  | .int v, n, _ => by simp only [kind_items]
  | .elem e, n, _ => by simp only [kind_items]
  | .var _ offset _, n, _ => by simp only [kind_items]
  | .bin op left right, n, h => by
      simp only [kind_items, List.mem_append, not_or] at h ⊢
      rw [node_uncut left n h.1.1.1.1, node_uncut right _ h.1.1.1.2]
  | .assign offset op left right, n, h => by
      cases left with
      | null =>
          simp only [kind_items, List.mem_append, not_or] at h ⊢
          rw [node_uncut right n h.1]
      | mk t k ix nx =>
          cases k with
          | var dt off v =>
              simp only [kind_items, List.mem_append, not_or] at h ⊢
              rw [node_uncut right n h.1.1]
          | pointer e v =>
              simp only [kind_items, List.mem_append, not_or] at h ⊢
              rw [node_uncut right n h.1.1.1, node_uncut v _ h.1.2]
          | _ =>
              simp only [kind_items, List.mem_append, not_or] at h ⊢
              rw [node_uncut right n h.1]
  | .return_ value, n, h => by
      simp only [kind_items] at h ⊢
      by_cases hv : value.isSome = true
      · simp only [if_pos hv, List.mem_append, not_or] at h ⊢
        rw [node_uncut value n h.1.1]
      · simp only [if_neg hv]
  | .if_ cond then_stmt else_stmt, n, h => by
      simp only [kind_items] at h ⊢
      by_cases hs : else_stmt.isSome = true
      · simp only [if_pos hs, List.mem_append, not_or] at h ⊢
        rw [cond_uncut cond _ _ _ h.1.1.1.2, node_uncut then_stmt _ h.1.1.2,
          node_uncut else_stmt _ h.1.2.2]
      · simp only [if_neg hs, List.mem_append, not_or] at h ⊢
        rw [cond_uncut cond _ _ _ h.1.1.1.2, node_uncut then_stmt _ h.1.1.2]
  | .while_ cond then_stmt _, n, h => by
      simp only [kind_items, List.mem_append, not_or] at h ⊢
      rw [cond_uncut cond _ _ _ h.1.1.2, node_uncut then_stmt _ h.1.2]
  | .block body, n, h => by
      simp only [kind_items] at h ⊢
      exact block_uncut body n h
  | .call name args _, n, h => by
      simp only [kind_items, show Limits.code.args = 32 from rfl,
        show Limits.code.first = 1 from rfl] at h ⊢
      have hall : .cut ∉ cut_items 32 args ++ args_items A .code 32 args n →
          cut_items L.args args ++ args_items A L L.args args n
            = cut_items 32 args ++ args_items A .code 32 args n := by
        intro hcut
        rw [List.mem_append, not_or] at hcut
        have hlen := cut_short hcut.1
        rw [cut_none hlen, cut_none (by omega), args_enough A L args L.args 32 n (by omega) hlen,
          args_uncut 32 args n hcut.2]
      have hone : .cut ∉ cut_items 1 args ++ (if args.isSome then
            args_items A .code 1 args n ++ [.op .pop_rdi] else [.op .xor_rdi_rdi]) →
          cut_items L.first args ++ (if args.isSome then
            args_items A L L.first args n ++ [.op .pop_rdi] else [.op .xor_rdi_rdi])
          = cut_items 1 args ++ (if args.isSome then
            args_items A .code 1 args n ++ [.op .pop_rdi] else [.op .xor_rdi_rdi]) := by
        intro hcut
        rw [List.mem_append, not_or] at hcut
        have hlen := cut_short hcut.1
        rw [cut_none hlen, cut_none (by omega)]
        by_cases hs : args.isSome = true
        · rw [if_pos hs, List.mem_append, not_or] at hcut
          rw [if_pos hs, if_pos hs, args_enough A L args L.first 1 n (by omega) hlen,
            args_uncut 1 args n hcut.2.1]
        · rw [if_neg hs, if_neg hs]
      have hcount : .cut ∉ cut_items 32 args →
          min (chainLength args) L.args = min (chainLength args) 32 := by
        intro hcut
        have hlen := cut_short hcut
        omega
      by_cases h1 : name = ['p', 'r', 'i', 'n', 't', 'f']
      · simp only [if_pos h1] at h ⊢
        by_cases hlen : chainLength args ≤ 32
        · rw [hcount (by rw [cut_none hlen]; simp)]
          by_cases hc1 : min (chainLength args) 32 = 1
          · simp only [if_pos hc1] at h ⊢
            rw [List.mem_append, not_or, List.mem_append, not_or] at h
            rw [hall h.1.1]
          · simp only [if_neg hc1] at h ⊢
            by_cases hc2 : 1 < min (chainLength args) 32
            · simp only [if_pos hc2] at h ⊢
              rw [List.mem_append, not_or, List.mem_append, not_or, List.mem_append, not_or] at h
              rw [hall h.1.1.1]
            · simp only [if_neg hc2]
        · rw [if_neg (by omega), if_pos (by omega), List.mem_append, not_or, List.mem_append, not_or,
            List.mem_append, not_or, List.mem_append, not_or] at h
          exact absurd (cut_short h.1.1.1.1) hlen
      · by_cases h2 : name = ['p', 'r', 'i', 'n', 't'] ∨ name = ['k', 'p', 'r', 'i', 'n', 't', 'f']
        · simp only [if_neg h1, if_pos h2] at h ⊢
          rw [List.mem_append, not_or] at h
          rw [hone h.1]
        · by_cases h3 : name = ['p', 'u', 't', 'c']
          · simp only [if_neg h1, if_neg h2, if_pos h3] at h ⊢
            rw [List.mem_append, not_or] at h
            rw [hone h.1]
          · simp only [if_neg h1, if_neg h2, if_neg h3] at h ⊢
            rw [List.mem_append, not_or] at h
            have hcut := h.1
            rw [List.mem_append, not_or] at hcut
            rw [hall h.1, hcount hcut.1]
  | .pointer _ value, n, h => by
      simp only [kind_items, List.mem_append, not_or] at h ⊢
      rw [node_uncut value n h.1]
  | .str string, n, _ => by simp only [kind_items]
  | .func .., n, _ => by simp only [kind_items]
  | .gvar .., n, _ => by simp only [kind_items]
  | .addr _, n, _ => by simp only [kind_items]
  | .break_, n, _ => by simp only [kind_items]
  | .continue_, n, _ => by simp only [kind_items]
  | .arr_access _, n, _ => by simp only [kind_items]
  | .mem_access .., n, _ => by simp only [kind_items]
  | .preinc _, n, _ => by simp only [kind_items]
  | .predec _, n, _ => by simp only [kind_items]
  | .postinc _, n, _ => by simp only [kind_items]
  | .postdec _, n, _ => by simp only [kind_items]

end

theorem table_uncut : ∀ (ps : List Node) (n : Nat), .cut ∉ table_items A .code ps n →
    table_items A L ps n = table_items A .code ps n := by
  intro ps
  induction ps with
  | nil => intro n _; rfl
  | cons p ps ih =>
      intro n h
      simp only [table_items, List.mem_append, not_or] at h ⊢
      have he : entry_items A L p n = entry_items A .code p n := by
        cases p with
        | null => rfl
        | mk t k ix nx =>
            cases k with
            | func name args body ret localvarbyte argcount =>
                have hb := h.1
                simp only [entry_items, List.mem_append, not_or] at hb ⊢
                rw [node_uncut A L h32 h1 body n hb.1.2]
            | _ => rfl
      rw [he, ih _ h.2]

end

/-! ### Functions -/

/-- The functions of a listing and where they begin, the listing standing at `p`. -/
def entries : Nat → List Item → List FuncSym
  | _, [] => []
  | p, .func name :: is => ⟨name, p⟩ :: entries p is
  | p, i :: is => entries (p + i.size) is

theorem item_size (hT : Tracks g u) {i : Item} (hr : u.Room i) :
    (emit_item i g).code_len = g.code_len + i.size := by
  rw [(hT.item hr).len, hT.len]
  cases i <;> simp [Use.after, Item.size]

theorem items_size : ∀ {xs : List Item} {g : Gen} {u : Use}, Tracks g u → u.Rooms xs →
    (emit_items xs g).code_len = g.code_len + size xs := by
  intro xs
  induction xs with
  | nil => intro g u _ _; rfl
  | cons i xs ih =>
      intro g u hT hr
      rw [emit_items_cons, ih (hT.item hr.1) hr.2, item_size hT hr.1, size_cons, Nat.add_assoc]

/-- The function table is the list of the functions emitted. -/
theorem items_funcs : ∀ {xs : List Item} {g : Gen} {u : Use}, Tracks g u → u.Rooms xs →
    (emit_items xs g).func_table = g.func_table ++ entries g.code_len xs := by
  intro xs
  induction xs with
  | nil => intro g u _ _; simp [entries]
  | cons i xs ih =>
      intro g u hT hr
      have hsize := item_size hT hr.1
      rw [emit_items_cons, ih (hT.item hr.1) hr.2]
      cases i with
      | func name =>
          obtain ⟨hroom, hname⟩ := hr.1
          have hlt : g.func_table.length < 128 := by
            rw [← List.length_map FuncSym.name, hT.funcs]
            exact hroom
          simp only [emit_item, register_func]
          rw [if_pos hlt]
          simp [entries, List.take_of_length_le hname]
      | call name =>
          rw [hsize]
          simp only [emit_item, emit_call_rel, entries]
          split <;> simp [emit_u32_eq]
      | alloc =>
          rw [hsize]
          simp only [emit_item, alloc_label, entries]
          split <;> rfl
      | mark l =>
          rw [hsize]
          simp only [emit_item, mark_label, entries]
          split <;> rfl
      | ins i => rw [hsize]; simp [emit_item, entries]
      | jump op l => rw [hsize]; simp [emit_item, entries, emit_u32_eq]
      | test op l => rw [hsize]; simp [emit_item, entries, emit_u32_eq]
      | lea s => rw [hsize]; simp [emit_item, entries, emit_u32_eq, add_to_string_pool]
      | visit => rw [hsize]; rfl
      | drop => rw [hsize]; rfl
      | skip => rw [hsize]; rfl
      | cut => rw [hsize]; rfl

/-! ### The whole module -/

/-- The next multiple of 8. -/
def align8 (n : Nat) : Nat := (n + 7) / 8 * 8

theorem nop_align_len : ∀ {n : Nat} {g : Gen}, g.lost = false → align8 g.code_len ≤ CODE_BUF_SIZE →
    align8 g.code_len ≤ g.code_len + n →
    (nop_align n g).code_len = align8 g.code_len ∧ (nop_align n g).lost = false := by
  intro n
  induction n with
  | zero =>
      intro g hl _ hn
      simp only [nop_align]
      unfold align8 at hn ⊢
      exact ⟨by omega, hl⟩
  | succ n ih =>
      intro g hl hmax hn
      simp only [nop_align]
      unfold align8 at hmax hn
      by_cases h8 : g.code_len % 8 ≠ 0
      · have hlost : (g.emit_bytes [0x90]).lost = false := emit_bytes_room hl (by simp; omega)
        have hlen := emit_bytes_len hlost
        rw [List.length_singleton] at hlen
        have halign : align8 (g.emit_bytes [0x90]).code_len = align8 g.code_len := by
          rw [hlen]
          unfold align8
          omega
        have hnext := ih (g := g.emit_bytes [0x90]) hlost
          (by rw [halign]; unfold align8; omega) (by rw [halign, hlen]; unfold align8; omega)
        rw [halign] at hnext
        rw [if_pos h8]
        exact hnext
      · rw [if_neg h8]
        unfold align8
        exact ⟨by omega, hl⟩

/-- The tables have room for the program, and every function it calls is in it. -/
structure Fits (xs : List Item) : Prop where
  rooms : Use.start.Rooms xs
  strings : align8 (Use.start.afterAll xs).len + (Use.start.afterAll xs).pool ≤ CODE_BUF_SIZE
  calls : ∀ name, .call name ∈ xs → ∃ p, (⟨name, p⟩ : FuncSym) ∈ entries 64 xs

/-- The tables have room for the program. -/
structure Roomy (xs : List Item) : Prop where
  rooms : Use.start.Rooms xs
  strings : align8 (Use.start.afterAll xs).len + (Use.start.afterAll xs).pool ≤ CODE_BUF_SIZE

theorem Fits.roomy (h : Fits xs) : Roomy xs := ⟨h.rooms, h.strings⟩

theorem reset_tracks (g : Gen) : Tracks g.reset Use.start := ⟨rfl, rfl, rfl, rfl, rfl, rfl, rfl⟩

theorem nop_align_keeps {α : Type} (part : Gen → α) (h : ∀ b (g : Gen), part (g.emit_byte b) = part g) :
    ∀ (n : Nat) (g : Gen), part (nop_align n g) = part g := by
  intro n
  induction n with
  | zero => intro g; rfl
  | succ n ih =>
      intro g
      simp only [nop_align]
      split
      · rw [ih, h]
      · rfl

theorem nop_align_pool (n : Nat) : (nop_align n g).str_pool = g.str_pool :=
  nop_align_keeps Gen.str_pool (fun b g => by unfold emit_byte; split <;> rfl) n g

theorem nop_align_funcs (n : Nat) : (nop_align n g).func_table = g.func_table :=
  nop_align_keeps Gen.func_table (fun b g => by unfold emit_byte; split <;> rfl) n g

theorem nop_align_label_pos (n : Nat) : (nop_align n g).label_pos = g.label_pos :=
  nop_align_keeps Gen.label_pos (fun b g => by unfold emit_byte; split <;> rfl) n g

/-- Labels never run past the table. -/
theorem rooms_labels : ∀ {xs : List Item} {u : Use}, u.Rooms xs → u.labels ≤ MAX_LABELS →
    (u.afterAll xs).labels ≤ MAX_LABELS := by
  intro xs
  induction xs with
  | nil => intro u _ h; exact h
  | cons i xs ih =>
      intro u hr h
      refine ih hr.2 ?_
      cases i with
      | alloc => exact hr.1
      | _ => exact h

/-- Every label of a listing gets a place. -/
theorem marks_placed : ∀ {xs : List Item} {g : Gen}, Marked g.next_label_id xs →
    (∀ l ∈ marks xs, l < MAX_LABELS) → ∀ l ∈ marks xs, 0 ≤ (emit_items xs g).label_pos l := by
  intro xs
  induction xs with
  | nil => intro g _ _ l hl; cases hl
  | cons i xs ih =>
      intro g hm hmax l hl
      have hsplit : marks (i :: xs) = marks [i] ++ marks xs := by
        rw [← marks_append, List.singleton_append]
      have hrest : l ∈ marks xs → 0 ≤ (emit_items (i :: xs) g).label_pos l := by
        intro hl
        rw [emit_items_cons]
        refine ih ?_ (fun l hl => hmax l (by rw [hsplit]; exact List.mem_append_right _ hl)) l hl
        rw [emit_item_next]
        exact hm.tail
      rw [hsplit, List.mem_append] at hl
      rcases hl with hl | hl
      · cases i with
        | mark k =>
            obtain ⟨hk, hnot, -⟩ := hm
            obtain rfl := List.mem_singleton.mp hl
            rw [emit_items_cons, emit_items_label (by rw [emit_item_next]; omega) hnot]
            simp [emit_item, mark_label, hmax l (List.mem_cons_self ..)]
        | _ => simp [marks] at hl
      · exact hrest hl

section

variable (A : Addresses) (gt : List Node) (mod_name : Option Name) (mod_type : BitVec 32) (g : Gen)

/-- The listing the generator emits for a program. -/
abbrev listing : List Item := table_items A .code gt 1

/-- The code of a module is its listing, no-ops and strings. -/
theorem module_code_eq : module_code A gt g =
    (nop_align 7 (emit_items (listing A gt) g.reset)).emit_bytes
      (emit_items (listing A gt) g.reset).str_pool := by
  unfold module_code
  simp only
  rw [emit_entries_items, nop_align_pool]
  rfl

theorem string_start_eq :
    string_start A gt g = (nop_align 7 (emit_items (listing A gt) g.reset)).code_len := by
  unfold string_start
  rw [emit_entries_items]
  rfl

variable {A gt}

theorem module_spec (h : Roomy (listing A gt)) :
    Finished (module_code A gt g) (string_start A gt g)
        (codegen_x86_emit A gt mod_name mod_type g).1 ∧
      Grown (emit_items (listing A gt) g.reset) (module_code A gt g) ∧
      Appended (emit_items (listing A gt) g.reset) (module_code A gt g) ∧
      (module_code A gt g).label_pos = (emit_items (listing A gt) g.reset).label_pos ∧
      string_start A gt g = align8 (64 + size (listing A gt)) ∧
      (module_code A gt g).code_len = string_start A gt g + (module_code A gt g).str_pool.length := by
  have hT := (reset_tracks g).items h.rooms
  have hlen := items_size (reset_tracks g) h.rooms
  have hstrings := h.strings
  rw [← hT.len, ← hT.pool] at hstrings
  obtain ⟨hnop, hnoplost⟩ := nop_align_len (n := 7) hT.lost (by omega) (by unfold align8; omega)
  have hG := module_code_eq A gt g
  have hstart := string_start_eq A gt g
  have hlost : (module_code A gt g).lost = false := by
    rw [hG]
    exact emit_bytes_room hnoplost (by rw [hnop]; exact hstrings)
  have hgrown : Grown (emit_items (listing A gt) g.reset) (module_code A gt g) := by
    rw [hG]
    exact (nop_align_grown 7 _).trans emit_bytes_grown
  have htidy : Tidy (nop_align 7 (emit_items (listing A gt) g.reset)) :=
    (reset_tidy g).grown ((emit_items_grown _ _).trans (nop_align_grown 7 _)) hnoplost
  have hpool : (module_code A gt g).str_pool = (emit_items (listing A gt) g.reset).str_pool := by
    rw [hG, emit_bytes_pool, nop_align_pool]
  have hpatched := (codegen_patched A gt mod_name mod_type g).1
  refine ⟨⟨hpatched, hlost, fun k hk => ?_⟩, hgrown, ⟨?_, ?_⟩, ?_, ?_, ?_⟩
  · have hk' : k < (emit_items (listing A gt) g.reset).str_pool.length := by rwa [hpool] at hk
    have := bytes_at hpatched hlost htidy
      (emit_items (listing A gt) g.reset).str_pool (by rw [← hG]; exact Grown.refl) hk'
    rw [hstart, this]
    simp only [hpool]
  · rw [hG, emit_bytes_funcs, nop_align_funcs]
  · rw [hpool]
  · rw [hG, emit_bytes_label_pos, nop_align_label_pos]
  · rw [hstart, hnop, hlen]
    rfl
  · rw [hstart, hpool]
    rw [hG] at hlost ⊢
    exact emit_bytes_len hlost

/-- The places of the names in the finished module. -/
abbrev moduleSymbols (A : Addresses) (gt : List Node) (g : Gen) : Symbols :=
  symbols (module_code A gt g) (string_start A gt g)

/-- Where a call leads: to the first function of that name. -/
theorem module_func (h : Roomy (listing A gt)) {name : Name} {p : Nat}
    (hp : (⟨name, p⟩ : FuncSym) ∈ entries 64 (listing A gt)) :
    (entries 64 (listing A gt)).find? (fun f => f.name = name)
        = some (⟨name, (moduleSymbols A gt g).func name⟩ : FuncSym) ∧
      (module_code A gt g).find_func_offset name ≠ -1 := by
  have hfuncs : (module_code A gt g).func_table = entries 64 (listing A gt) := by
    rw [module_code_eq, emit_bytes_funcs, nop_align_funcs, items_funcs (reset_tracks g) h.rooms]
    rfl
  have hfind : (module_code A gt g).find_func_offset name ≠ -1 := by
    rw [find_ne_iff, hfuncs]
    exact List.mem_map_of_mem hp
  refine ⟨?_, hfind⟩
  show _ = some (⟨name, ((module_code A gt g).find_func_offset name).toNat⟩ : FuncSym)
  unfold find_func_offset at hfind ⊢
  rw [hfuncs] at hfind ⊢
  cases hf : (entries 64 (listing A gt)).find? fun f => f.name = name with
  | none => rw [hf] at hfind; exact absurd rfl hfind
  | some f =>
      have hname : f.name = name := by simpa using List.find?_some hf
      rw [← hname]
      rfl

/-- The listing of a program that fits stands in its binary. -/
theorem module_assembled (h : Fits (listing A gt))
    (hclean : noTest (listing A gt) ∨ ∀ i, (g.fixups i).is_func_call = false) :
    Assembled (codegen_x86_emit A gt mod_name mod_type g).1 (moduleSymbols A gt g) 64 (listing A gt) := by
  obtain ⟨hF, hG, hA, hlabel, -, -⟩ := module_spec mod_name mod_type g h.roomy
  have hfresh := table_fresh A .code gt 1
  have hT := (reset_tracks g).items h.rooms
  have hmax : ∀ l ∈ marks (listing A gt), l < MAX_LABELS := by
    intro l hl
    have hlt : l < 1 + allocs (listing A gt) := hfresh.marked.lt l hl
    have hnext := @emit_items_next g.reset (listing A gt)
    rw [hT.labels] at hnext
    have := rooms_labels h.rooms (by decide)
    have hone : g.reset.next_label_id = 1 := rfl
    omega
  refine items_assembled hF (reset_tidy g) (reset_tracks g) h.rooms hfresh.marked hG hA
    (fun l hl => ⟨hmax l hl, by rw [hlabel]⟩) (fun l hl => ?_) (fun name hname => ?_) ?_
  · have hl' := (hfresh.closed l hl).resolve_right List.not_mem_nil
    refine ⟨hmax l hl', ?_⟩
    rw [hlabel]
    exact marks_placed hfresh.marked hmax l hl'
  · obtain ⟨p, hp⟩ := h.calls name hname
    exact (module_func g h.roomy hp).2
  · exact hclean.imp_right fun hc i _ => hc i

/-- The code of a program that fits ends inside its binary. -/
theorem module_end (h : Roomy (listing A gt)) :
    64 + size (listing A gt) ≤ (codegen_x86_emit A gt mod_name mod_type g).2.1 := by
  obtain ⟨-, -, -, -, hstart, hlen⟩ := module_spec mod_name mod_type g h
  rw [(codegen_patched A gt mod_name mod_type g).2, hlen, hstart]
  unfold align8
  omega

/-- A complete binary: the listing stands in it, its calls lead to functions of their names,
and the strings lie behind the code. -/
structure Complete (xs : List Item) (bin : Store) (len : Nat) (Y : Symbols) : Prop where
  assembled : Assembled bin Y 64 xs
  code : 64 + size xs ≤ Y.string_start
  strings : Y.string_start ≤ Y.string_end
  len : Y.string_end ≤ len
  calls : ∀ name, .call name ∈ xs → (⟨name, Y.func name⟩ : FuncSym) ∈ entries 64 xs

/-- Every patch of `g` lies in the code. -/
structure PatchesInside (g : Gen) (len : Nat) : Prop where
  fixups : ∀ i, i < g.num_fixups → 64 ≤ (g.fixups i).patch_pos ∧ (g.fixups i).patch_pos + 4 ≤ len
  strs : ∀ i, i < g.num_str_fixups →
    64 ≤ (g.str_fixups i).lea_disp_pos ∧ (g.str_fixups i).lea_disp_pos + 4 ≤ len

theorem codegen_state : Unpatched (module_code A gt g) (codegen_x86_emit A gt mod_name mod_type g).2.2 := by
  have h := (patch_fixups_rounds (module_code A gt g)).same.trans
    (patch_str_fixups_rounds (string_start A gt g) _).same
  exact ⟨h.len, h.labels, h.fixups, h.num, h.funcs, h.strs, h.strNum⟩

end

/-- `void main() {}`. -/
def emptyMain : List Node :=
  [.mk 0 (.func ['m', 'a', 'i', 'n'] .null .null 262 0 0) .null .null]

/-- A generator that was never used, every static zero. -/
def Gen.zero : Gen :=
  { code_buf := fun _ => 0, code_len := 0, label_pos := fun _ => 0, next_label_id := 1
    fixups := fun _ => ⟨0, 0, false, []⟩, num_fixups := 0, func_table := [], str_pool := []
    str_fixups := fun _ => ⟨0, 0⟩, num_str_fixups := 0, lost := false, visited := 0, dropped := 0
    storeless := 0 }

/-- All addresses zero. -/
def Addresses.zero : Addresses := ⟨0, 0, 0, 0, fun _ => 0⟩

theorem emptyMain_fits : Fits (listing .zero emptyMain) where
  rooms := by decide
  strings := by decide
  calls name hname := by
    simp [emptyMain, listing, table_items, entry_items, prologue_items, epilogue_items, node_items,
      frameBytes] at hname

theorem emit_bytes_max {bs : List Byte} (h : g.code_len ≤ CODE_BUF_SIZE) :
    (g.emit_bytes bs).code_len ≤ CODE_BUF_SIZE := by
  induction bs generalizing g with
  | nil => exact h
  | cons b bs ih =>
      refine ih (g := g.emit_byte b) ?_
      unfold emit_byte
      split
      · assumption
      · exact h

theorem emit_item_max {i : Item} (h : g.code_len ≤ CODE_BUF_SIZE) :
    (emit_item i g).code_len ≤ CODE_BUF_SIZE := by
  cases i with
  | ins i => exact emit_bytes_max h
  | jump op l =>
      simp only [emit_item, emit_u32_eq]
      exact emit_bytes_max (by rw [add_fixup_len]; exact emit_bytes_max h)
  | test op l =>
      simp only [emit_item, emit_u32_eq]
      exact emit_bytes_max (by rw [add_fixup_len]; exact emit_bytes_max h)
  | call name =>
      simp only [emit_item, emit_call_rel, emit_u32_eq]
      split
      · exact emit_bytes_max (emit_bytes_max h)
      · exact emit_bytes_max (by rw [add_fixup_len]; exact emit_bytes_max h)
  | lea s =>
      simp only [emit_item, emit_u32_eq]
      exact emit_bytes_max (by rw [add_str_fixup_len]; exact emit_bytes_max h)
  | func name =>
      simp only [emit_item, register_func]
      split <;> exact h
  | alloc =>
      simp only [emit_item, alloc_label]
      split <;> exact h
  | mark l =>
      simp only [emit_item, mark_label]
      split <;> exact h
  | visit => exact h
  | drop => exact h
  | skip => exact h
  | cut => exact h

theorem emit_items_max : ∀ {xs : List Item} {g : Gen}, g.code_len ≤ CODE_BUF_SIZE →
    (emit_items xs g).code_len ≤ CODE_BUF_SIZE := by
  intro xs
  induction xs with
  | nil => intro g h; exact h
  | cons i xs ih => intro g h; exact ih (emit_item_max h)

theorem nop_align_max : ∀ {n : Nat} {g : Gen}, g.code_len ≤ CODE_BUF_SIZE →
    (nop_align n g).code_len ≤ CODE_BUF_SIZE := by
  intro n
  induction n with
  | zero => intro g h; exact h
  | succ n ih =>
      intro g h
      simp only [nop_align]
      split
      · exact ih (@emit_bytes_max _ [0x90] h)
      · exact h

/-- A binary never has more bytes than the buffer. -/
theorem binary_len (A : Addresses) (gt : List Node) (mod_name : Option Name) (mod_type : BitVec 32)
    (g : Gen) : (codegen_x86_emit A gt mod_name mod_type g).2.1 ≤ CODE_BUF_SIZE := by
  rw [(codegen_patched A gt mod_name mod_type g).2, module_code_eq]
  exact emit_bytes_max (nop_align_max (emit_items_max (show 64 ≤ CODE_BUF_SIZE by decide)))

/-- `n` times `return;`. -/
def returns : Nat → Node
  | 0 => .null
  | n + 1 => .mk 0 (.return_ .null) .null (returns n)

theorem returns_size (A : Addresses) (L : Limits) : ∀ n k : Nat,
    size (block_items A L (returns n) k) = 4 * n := by
  intro n
  induction n with
  | zero => intro k; simp only [returns, block_items, size_nil]
  | succ n ih =>
      intro k
      simp only [returns, block_items, kind_items, size_append, ih]
      have hone : size [Item.visit] + (size (if Node.null.isSome = true then
          node_items A L .null k ++ [.op .pop_rax] else [.op .xor_eax_eax]) + size epilogue_items) = 4 :=
        rfl
      omega

/-- `main` with 16400 statements `return;`. -/
def longMain : List Node :=
  [.mk 0 (.func ['m', 'a', 'i', 'n'] .null (.mk 0 (.block (returns 16400)) .null .null) 262 0 0)
    .null .null]

end Eke
