/-
The assembly listing of a program.

The traversal emits a flat sequence of items: instructions, jumps to labels, calls,
references to strings, and the bookkeeping in between.  `kind_items` and its siblings
read that sequence off the tree, with the number of the next label as the only state,
and `emit_item` hands one item to the emitters of the generator.  `gen_items` says that
the traversal is the same as emitting the listing, so that what holds of a whole
traversal is proved item by item.
-/
import Eke.Compiler.Emission

namespace Eke

open Gen Store X86

/-- One line of a listing. -/
inductive Item
  /-- An instruction with its immediate. -/
  | ins (i : Instr)
  /-- A relative jump to a label. -/
  | jump (op : Op) (label : Nat)
  /-- The same, by the path that leaves the slot's `is_func_call` as it is. -/
  | test (op : Op) (label : Nat)
  | call (name : Name)
  /-- `lea` of a string. -/
  | lea (string : Name)
  /-- A function begins. -/
  | func (name : Name)
  | alloc
  | mark (label : Nat)
  | visit
  | drop
  | skip
  /-- The rest of an argument list is left out. -/
  | cut

/-- An instruction without an immediate. -/
abbrev Item.op (op : Op) : Item := .ins ⟨op, 0⟩

/-- Hand an item to the generator. -/
def emit_item : Item → Gen → Gen
  | .ins i, g => g.emit_bytes i.bytes
  | .jump op label, g =>
      ((g.emit_bytes op.opcode).add_fixup fun f =>
        { f with label_id := label, is_func_call := false }).emit_u32 0
  | .test op label, g =>
      ((g.emit_bytes op.opcode).add_fixup fun f => { f with label_id := label }).emit_u32 0
  | .call name, g => g.emit_call_rel name
  | .lea string, g =>
      let (str_offset, g) := g.add_to_string_pool string
      ((g.emit_bytes [0x48, 0x8D, 0x05]).add_str_fixup str_offset).emit_u32 0
  | .func name, g => g.register_func name g.code_len
  | .alloc, g => g.alloc_label.2
  | .mark label, g => g.mark_label label
  | .visit, g => g.visit
  | .drop, g => g.drop
  | .skip, g => g.skipStore
  | .cut, g => g

def emit_items (is : List Item) (g : Gen) : Gen := is.foldl (fun g i => emit_item i g) g

/-- How many labels a listing allocates. -/
def allocs : List Item → Nat
  | [] => 0
  | .alloc :: is => allocs is + 1
  | _ :: is => allocs is

/-! ### The listing of a tree -/

/-- The condition a comparison operator jumps on. -/
def condOf (op : Int) : Cond :=
  if op = '<'.toNat then .l
  else if op = '>'.toNat then .g
  else if op = T_LEQ then .le
  else if op = T_GEQ then .ge
  else if op = T_EQ then .e
  else .ne

def load_items (offset : Int) : List Item :=
  [.ins ⟨if offset < 0 then .mov_rbp_rax else .mov_rbp_eax, (disp offset).toNat⟩, .op .push_rax]

def store_items (offset : Int) : List Item :=
  [.op .pop_rax, .ins ⟨if offset < 0 then .mov_rax_rbp else .mov_eax_rbp, (disp offset).toNat⟩]

def bin_items (op : Int) : List Item :=
  if op = '+'.toNat then [.op .add_rbx_rax]
  else if op = '-'.toNat then [.op .sub_rbx_rax]
  else if op = '*'.toNat then [.op .imul_rbx_rax]
  else if op = '/'.toNat then [.op .cqo, .op .idiv_rbx]
  else [.drop]

def builtin_items (addr : BitVec 64) : List Item :=
  [.ins ⟨.movabs_rbx, addr.toNat⟩, .op .call_rbx, .op .push_rax]

def pop_items (n : Nat) : List Item :=
  [.op .pop_rdi] ++ (if 2 ≤ n then [.op .pop_rsi] else []) ++ (if 3 ≤ n then [.op .pop_rdx] else []) ++
    (if 4 ≤ n then [.op .pop_rcx] else []) ++ (if 5 ≤ n then [.op .pop_r8] else []) ++
    (if 6 ≤ n then [.op .pop_r9] else [])

/-- A call of a user function with `n` arguments on the stack. -/
def call_items (name : Name) (n : Nat) : List Item :=
  .call name :: (if 0 < n then [.ins ⟨.add_rsp, (BitVec.ofNat 32 (n * 8)).toNat⟩] else []) ++
    [.op .push_rax]

def prologue_items (local_bytes : BitVec 32) : List Item :=
  [.op .push_rbp, .op .mov_rsp_rbp] ++
    (if BitVec.slt 0 (frameBytes local_bytes) then
      [.ins ⟨.sub_rsp, (frameBytes local_bytes).toNat⟩] else [])

def epilogue_items : List Item := [.op .leave, .op .ret]

/-- How many arguments of a call are emitted: of a function's, and of those of a builtin
that uses only the first. -/
structure Limits where
  args : Nat
  first : Nat

/-- The limits of the generator. -/
def Limits.code : Limits := ⟨32, 1⟩

/-- A note that more than `n` arguments are given. -/
def cut_items (n : Nat) (args : Node) : List Item := if n < chainLength args then [.cut] else []

section

variable (A : Addresses) (L : Limits)

mutual

def node_items : Node → Nat → List Item
  | .null, _ => []
  | .mk _ k _ _, n => .visit :: kind_items k n

def cond_items : Node → Nat → Bool → Nat → List Item
  | .null, _, _, _ => []
  | .mk _ (.bin op left right) _ _, label, jump_on_true, n =>
      let l := node_items left n
      [.visit] ++ l ++ node_items right (n + allocs l) ++
        [.op .pop_rbx, .op .pop_rax, .op .cmp_rbx_rax,
          .jump (.jcc (condOf (if jump_on_true then op else invert op))) label]
  | .mk _ k _ _, label, jump_on_true, n =>
      [.visit] ++ kind_items k n ++
        [.op .pop_rax, .op .test_rax_rax, .test (.jcc (if jump_on_true then .ne else .e)) label]

def block_items : Node → Nat → List Item
  | .null, _ => []
  | .mk _ (.var _ offset value) _ nx, n =>
      let d := if value.isSome then node_items value n ++ store_items offset else []
      [.visit] ++ d ++ block_items nx (n + allocs d)
  | .mk _ k _ nx, n =>
      let s := kind_items k n
      [.visit] ++ s ++ block_items nx (n + allocs s)

def args_items : Nat → Node → Nat → List Item
  | _, .null, _ => []
  | 0, _, _ => []
  | m + 1, .mk _ k _ nx, n =>
      let r := args_items m nx n
      r ++ [.visit] ++ kind_items k (n + allocs r)

def kind_items : Kind → Nat → List Item
  | .int int_val, _ => [.ins ⟨.movabs_rax, int_val.toNat⟩, .op .push_rax]
  | .elem expr, _ => [.ins ⟨.movabs_rax, (A.node expr).toNat⟩, .op .push_rax]
  | .var _ offset _, _ => load_items offset
  | .bin op left right, n =>
      let l := node_items left n
      l ++ node_items right (n + allocs l) ++ [.op .pop_rbx, .op .pop_rax] ++ bin_items op ++
        [.op .push_rax]
  | .assign offset _ left right, n =>
      let r := node_items right n
      match left with
      | .mk _ (.var _ off _) _ _ =>
          r ++ [.visit] ++ store_items (if offset ≠ 0 then offset else off)
      | .mk _ (.pointer _ value) _ _ =>
          r ++ [.visit] ++ node_items value (n + allocs r) ++
            [.op .pop_rax, .op .pop_rbx, .op .mov_rax_at_rbx]
      | _ => r ++ [.skip]
  | .return_ value, n =>
      (if value.isSome then node_items value n ++ [.op .pop_rax] else [.op .xor_eax_eax]) ++
        epilogue_items
  | .if_ cond then_stmt else_stmt, n =>
      let c := cond_items cond (if else_stmt.isSome then n else n + 1) false (n + 2)
      let t := node_items then_stmt (n + 2 + allocs c)
      [.alloc, .alloc] ++ c ++ t ++
        (if else_stmt.isSome then
          [.jump .jmp (n + 1), .mark n] ++ node_items else_stmt (n + 2 + allocs c + allocs t)
        else []) ++ [.mark (n + 1)]
  | .while_ cond then_stmt _, n =>
      let c := cond_items cond (n + 1) false (n + 2)
      [.alloc, .alloc, .mark n] ++ c ++ node_items then_stmt (n + 2 + allocs c) ++
        [.jump .jmp n, .mark (n + 1)]
  | .block body, n => block_items body n
  | .call name args _, n =>
      let arg_count := min (chainLength args) L.args
      let all := cut_items L.args args ++ args_items L.args args n
      let one := cut_items L.first args ++
        (if args.isSome then args_items L.first args n ++ [.op .pop_rdi] else [.op .xor_rdi_rdi])
      if name = ['p', 'r', 'i', 'n', 't', 'f'] then
        if arg_count = 1 then all ++ [.op .pop_rdi] ++ builtin_items A.print_str
        else if 1 < arg_count then
          all ++ pop_items arg_count ++ [.op .xor_eax_eax] ++ builtin_items A.kprintf
        else [.op .push_rax]
      else if name = ['p', 'r', 'i', 'n', 't'] ∨ name = ['k', 'p', 'r', 'i', 'n', 't', 'f'] then
        one ++ builtin_items A.print
      else if name = ['p', 'u', 't', 'c'] then one ++ builtin_items A.putc
      else all ++ call_items name arg_count
  | .pointer _ value, n => node_items value n ++ [.op .pop_rbx, .op .mov_at_rbx_rax, .op .push_rax]
  | .str string, _ => [.lea string, .op .push_rax]
  | _, _ => [.drop]

end

/-- The listing of one entry of the global table. -/
def entry_items (p : Node) (n : Nat) : List Item :=
  match p with
  | .mk _ (.func name _ body _ localvarbyte _) _ _ =>
      [.func name] ++ prologue_items (BitVec.ofInt 32 localvarbyte + 32) ++ node_items A L body n ++
        epilogue_items
  | _ => []

/-- The listing of the global table. -/
def table_items : List Node → Nat → List Item
  | [], _ => []
  | p :: ps, n =>
      let e := entry_items A L p n
      e ++ table_items ps (n + allocs e)

end

/-! ### Emitting a listing -/

variable {g g' : Gen} {xs ys : List Item}

@[simp] theorem emit_items_nil : emit_items [] g = g := rfl

@[simp] theorem emit_items_cons {i : Item} :
    emit_items (i :: xs) g = emit_items xs (emit_item i g) := rfl

@[simp] theorem emit_items_append : emit_items (xs ++ ys) g = emit_items ys (emit_items xs g) :=
  List.foldl_append

@[simp] theorem allocs_append : allocs (xs ++ ys) = allocs xs + allocs ys := by
  induction xs with
  | nil => simp [allocs]
  | cons i xs ih =>
      cases i with
      | alloc =>
          rw [List.cons_append, allocs, ih, allocs]
          omega
      | _ => simpa only [List.cons_append, allocs] using ih

/-- Only `alloc` moves the label counter. -/
theorem emit_item_next (i : Item) : (emit_item i g).next_label_id = g.next_label_id + allocs [i] := by
  cases i with
  | alloc =>
      simp only [emit_item, alloc_label]
      split <;> rfl
  | jump op label => simp [emit_item, emit_u32_eq, allocs]
  | test op label => simp [emit_item, emit_u32_eq, allocs]
  | call name =>
      simp only [emit_item, emit_call_rel]
      split <;> simp [emit_u32_eq, allocs]
  | lea string => simp [emit_item, emit_u32_eq, add_to_string_pool, allocs]
  | func name =>
      simp only [emit_item, register_func]
      split <;> rfl
  | mark label =>
      simp only [emit_item, mark_label]
      split <;> rfl
  | ins i => simp [emit_item, allocs]
  | _ => rfl

@[simp] theorem emit_items_next : (emit_items xs g).next_label_id = g.next_label_id + allocs xs := by
  induction xs generalizing g with
  | nil => rfl
  | cons i xs ih =>
      rw [emit_items_cons, ih, emit_item_next, Nat.add_assoc, ← allocs_append, List.singleton_append]

/-! ### The emitters -/

/-- What the generator emits as bytes, instruction by instruction. -/
theorem emit_ins (op : Op) (imm : Nat) :
    emit_item (.ins ⟨op, imm⟩) g = g.emit_bytes (op.opcode ++ leBytes op.width imm) := rfl

theorem leBytes_zero (v : Nat) : leBytes 0 v = [] := rfl

theorem load_items_eq (offset : Int) : g.emit_load_local offset = emit_items (load_items offset) g := by
  unfold load_items emit_load_local emit_push_rax
  split <;> simp [emit_ins, Op.opcode, Op.width, leBytes_zero, emit_u32_eq, ← emit_bytes_append]

theorem store_items_eq (offset : Int) :
    g.emit_store_local offset = emit_items (store_items offset) g := by
  unfold store_items emit_store_local emit_pop_rax
  split <;> simp [emit_ins, Op.opcode, Op.width, leBytes_zero, emit_u32_eq, ← emit_bytes_append]

theorem bin_items_eq (op : Int) : emit_bin op g = emit_items (bin_items op) g := by
  unfold bin_items emit_bin
  split_ifs
  · rfl
  · rfl
  · rfl
  · rfl
  · rfl

theorem builtin_items_eq (addr : BitVec 64) :
    g.emit_call_builtin addr = emit_items (builtin_items addr) g := by
  simp [builtin_items, emit_call_builtin, emit_push_rax, emit_ins, Op.opcode, Op.width, leBytes_zero,
    emit_u64_eq, ← emit_bytes_append]

theorem emit_op (op : Op) (h : op.width = 0) : emit_item (.op op) g = g.emit_bytes op.opcode := by
  rw [emit_ins, h, leBytes_zero, List.append_nil]

theorem emit_ite {p : Prop} [Decidable p] (i : Item) :
    emit_items (if p then [i] else []) g = if p then emit_item i g else g := by
  split
  · rw [emit_items_cons, emit_items_nil]
  · rw [emit_items_nil]

theorem pop_items_eq (n : Nat) : g.pop_args n = emit_items (pop_items n) g := by
  unfold pop_items pop_args
  simp only [emit_items_append, emit_items_cons, emit_items_nil, emit_ite, emit_op .pop_rdi rfl,
    emit_op .pop_rsi rfl, emit_op .pop_rdx rfl, emit_op .pop_rcx rfl, emit_op .pop_r8 rfl,
    emit_op .pop_r9 rfl, Op.opcode]

theorem call_items_eq (name : Name) (n : Nat) :
    g.emit_call name n = emit_items (call_items name n) g := by
  unfold call_items emit_call emit_drop_args emit_push_rax
  split <;> simp [emit_item, Instr.bytes, Op.opcode, Op.width, leBytes_zero, emit_u32_eq,
    ← emit_bytes_append]

theorem prologue_items_eq (local_bytes : BitVec 32) :
    g.emit_prologue local_bytes = emit_items (prologue_items local_bytes) g := by
  unfold prologue_items emit_prologue
  simp only
  split <;> simp [emit_ins, Op.opcode, Op.width, leBytes_zero, emit_u32_eq, ← emit_bytes_append]

theorem epilogue_items_eq : g.emit_epilogue = emit_items epilogue_items g := rfl

theorem imm_items_eq (v : BitVec 64) :
    (g.emit_mov_imm_rax v).emit_push_rax
      = emit_items [.ins ⟨.movabs_rax, v.toNat⟩, .op .push_rax] g := by
  simp [emit_mov_imm_rax, emit_push_rax, emit_ins, Op.opcode, Op.width, leBytes_zero, emit_u64_eq,
    ← emit_bytes_append]

theorem condOf_opcode (op : Int) : (Op.jcc (condOf op)).opcode = [0x0F, condJumpByte op] := by
  unfold condOf condJumpByte
  split_ifs <;> rfl

theorem cond_jump_eq (op : Int) (label : Nat) : g.emit_cond_jump op label
    = emit_items [.op .pop_rbx, .op .pop_rax, .op .cmp_rbx_rax, .jump (.jcc (condOf op)) label] g := by
  simp only [emit_items_cons, emit_items_nil, emit_item, condOf_opcode]
  rfl

theorem test_jump_eq (label : Nat) (b : Bool) : emit_test_jump label b g
    = emit_items [.op .pop_rax, .op .test_rax_rax, .test (.jcc (if b then .ne else .e)) label] g := by
  have hop : [0x0F, if b then 0x85 else 0x84] = (Op.jcc (if b then .ne else .e)).opcode := by
    cases b <;> rfl
  unfold emit_test_jump
  rw [hop]
  simp only [emit_items_cons, emit_items_nil, emit_op .pop_rax rfl, emit_op .test_rax_rax rfl]
  rfl

section

variable (g)

@[simp] theorem visit_next : g.visit.next_label_id = g.next_label_id := rfl
theorem emit_visit : emit_item .visit g = g.visit := rfl
theorem emit_drop : emit_item .drop g = g.drop := rfl
theorem emit_skip : emit_item .skip g = g.skipStore := rfl
theorem emit_mark (label : Nat) : emit_item (.mark label) g = g.mark_label label := rfl
theorem emit_alloc : emit_item .alloc g = g.alloc_label.2 := rfl
theorem emit_jump (label : Nat) : emit_item (.jump .jmp label) g = g.emit_jmp label := rfl
theorem emit_pop_rax_item : emit_item (.op .pop_rax) g = g.emit_pop_rax := rfl
theorem emit_pop_rbx_item : emit_item (.op .pop_rbx) g = g.emit_pop_rbx := rfl
theorem emit_pop_rdi_item : emit_item (.op .pop_rdi) g = g.emit_bytes [0x5F] := rfl
theorem emit_push_rax_item : emit_item (.op .push_rax) g = g.emit_push_rax := rfl
theorem emit_xor_rdi_item : emit_item (.op .xor_rdi_rdi) g = g.emit_bytes [0x48, 0x31, 0xFF] := rfl
theorem emit_xor_eax_item : emit_item (.op .xor_eax_eax) g = g.emit_bytes [0x31, 0xC0] := rfl

theorem emit_poke_items :
    emit_items [.op .pop_rax, .op .pop_rbx, .op .mov_rax_at_rbx] g = g.emit_poke := rfl

theorem emit_peek_items :
    emit_items [.op .pop_rbx, .op .mov_at_rbx_rax, .op .push_rax] g = g.emit_peek := rfl

theorem emit_lea_items (string : Name) : emit_items [.lea string, .op .push_rax] g =
    (((((g.add_to_string_pool string).2.emit_bytes [0x48, 0x8D, 0x05]).add_str_fixup
      (g.add_to_string_pool string).1).emit_u32 0).emit_push_rax) := by
  simp only [emit_items_cons, emit_items_nil, emit_op .push_rax rfl]
  rfl

end

/-! ### The traversal is the listing -/

theorem emit_cut (n : Nat) (args : Node) : emit_items (cut_items n args) g = g := by
  unfold cut_items
  split <;> rfl

theorem allocs_cut (n : Nat) (args : Node) : allocs (cut_items n args) = 0 := by
  unfold cut_items
  split <;> rfl

section

variable (A : Addresses)

theorem gen_condition_null (label : Nat) (b : Bool) (g : Gen) :
    gen_condition A .null label b g = g := rfl

theorem gen_condition_bin (t op : Int) (left right ix nx : Node) (label : Nat) (b : Bool) (g : Gen) :
    gen_condition A (.mk t (.bin op left right) ix nx) label b g =
      Gen.emit_cond_jump (if b then op else invert op) label
        (gen_code_x86 A right (gen_code_x86 A left g.visit)) := rfl

/-- A condition without a comparison operator. -/
theorem gen_condition_test {k : Kind} (hk : ∀ op left right, k ≠ .bin op left right) (t : Int)
    (ix nx : Node) (label : Nat) (b : Bool) (g : Gen) :
    gen_condition A (.mk t k ix nx) label b g = emit_test_jump label b (gen_kind A k g.visit) := by
  cases k with
  | bin op left right => exact absurd rfl (hk op left right)
  | _ => rfl

mutual

theorem gen_items : ∀ (n : Node) (g : Gen),
    gen_code_x86 A n g = emit_items (node_items A .code n g.next_label_id) g
  | .null, g => by simp only [gen_code_x86, node_items, emit_items_nil]
  | .mk _ k _ _, g => by
      simp only [gen_code_x86, node_items, emit_items_cons, emit_visit]
      rw [gen_kind_items k, visit_next]

theorem gen_condition_items : ∀ (n : Node) (label : Nat) (b : Bool) (g : Gen),
    gen_condition A n label b g = emit_items (cond_items A .code n label b g.next_label_id) g
  | .null, label, b, g => by simp only [gen_condition_null, cond_items, emit_items_nil]
  | .mk _ k _ _, label, b, g => by
      cases k with
      | bin op left right =>
          simp only [gen_condition_bin, cond_items]
          rw [gen_items left, gen_items right, cond_jump_eq]
          simp only [emit_items_append, emit_items_next, emit_items_cons, emit_items_nil, emit_visit,
            visit_next]
      | _ =>
          rw [gen_condition_test A, gen_kind_items, test_jump_eq]
          · simp only [cond_items, emit_items_append, emit_items_cons, emit_items_nil, emit_visit,
              visit_next]
          · nofun

theorem gen_block_items : ∀ (n : Node) (g : Gen),
    gen_block A n g = emit_items (block_items A .code n g.next_label_id) g
  | .null, g => by simp only [gen_block, block_items, emit_items_nil]
  | .mk _ k _ nx, g => by
      cases k with
      | var dt offset value =>
          simp only [gen_block, block_items]
          rw [gen_block_items nx]
          by_cases hv : value.isSome = true
          · simp only [if_pos hv]
            rw [gen_items value, store_items_eq]
            simp only [emit_items_append, emit_items_next, allocs_append, emit_items_cons,
              emit_items_nil, emit_visit, visit_next, Nat.add_assoc]
          · simp only [if_neg hv, emit_items_append, emit_items_cons, emit_items_nil, emit_visit,
              visit_next, allocs, Nat.add_zero]
      | _ =>
          simp only [gen_block, block_items]
          rw [gen_block_items nx, gen_kind_items]
          simp only [emit_items_append, emit_items_next, emit_items_cons, emit_items_nil, emit_visit,
            visit_next]

theorem gen_args_items : ∀ (m : Nat) (n : Node) (g : Gen),
    gen_args A m n g = emit_items (args_items A .code m n g.next_label_id) g
  | m, .null, g => by cases m <;> simp only [gen_args, args_items, emit_items_nil]
  | m, .mk _ k _ nx, g => by
      cases m with
      | zero => simp only [gen_args, args_items, emit_items_nil]
      | succ m =>
          simp only [gen_args, args_items]
          rw [gen_args_items m nx, gen_kind_items]
          simp only [emit_items_append, emit_items_next, emit_items_cons, emit_items_nil, emit_visit,
            visit_next]

theorem gen_first_items : ∀ (n : Node) (g : Gen), gen_first A n g = emit_items
    (if n.isSome then args_items A .code 1 n g.next_label_id ++ [.op .pop_rdi]
      else [.op .xor_rdi_rdi]) g
  | .null, g => by
      simp only [gen_first, Node.isSome, Bool.false_eq_true, if_false, emit_items_cons,
        emit_items_nil, emit_xor_rdi_item]
  | .mk _ k _ nx, g => by
      have hnone : args_items A .code 0 nx g.next_label_id = [] := by
        cases nx <;> simp only [args_items]
      simp only [gen_first, Node.isSome, if_true, args_items, hnone]
      rw [gen_kind_items]
      simp only [emit_items_append, emit_items_cons, emit_items_nil, emit_visit, visit_next,
        emit_pop_rdi_item, allocs, Nat.add_zero]

theorem gen_kind_items : ∀ (k : Kind) (g : Gen),
    gen_kind A k g = emit_items (kind_items A .code k g.next_label_id) g
  | .int v, g => by
      simp only [gen_kind, kind_items]
      exact imm_items_eq v
  | .elem e, g => by
      simp only [gen_kind, kind_items]
      exact imm_items_eq _
  | .var _ offset _, g => by
      simp only [gen_kind, kind_items]
      exact load_items_eq offset
  | .bin op left right, g => by
      simp only [gen_kind, kind_items]
      rw [gen_items left, gen_items right, bin_items_eq]
      simp only [emit_items_append, emit_items_next, emit_items_cons, emit_items_nil,
        emit_pop_rax_item, emit_pop_rbx_item, emit_push_rax_item]
  | .assign offset op left right, g => by
      have hr := gen_items right g
      cases left with
      | null => simp only [gen_kind, kind_items, hr, emit_items_append, emit_items_cons,
          emit_items_nil, emit_skip]
      | mk t k ix nx =>
          cases k with
          | var dt off v =>
              simp only [gen_kind, kind_items]
              rw [hr, store_items_eq]
              simp only [emit_items_append, emit_items_cons, emit_items_nil, emit_visit]
          | pointer e v =>
              simp only [gen_kind, kind_items]
              rw [hr, gen_items v, visit_next, emit_items_next, ← emit_poke_items]
              simp only [emit_items_append, emit_items_cons, emit_items_nil, emit_visit]
          | _ => simp only [gen_kind, kind_items, hr, emit_items_append, emit_items_cons,
              emit_items_nil, emit_skip]
  | .return_ value, g => by
      simp only [gen_kind, kind_items]
      by_cases hv : value.isSome = true
      · rw [if_pos hv, if_pos hv, gen_items value, epilogue_items_eq]
        simp only [emit_items_append, emit_items_cons, emit_items_nil, emit_pop_rax_item]
      · rw [if_neg hv, if_neg hv, epilogue_items_eq]
        simp only [emit_items_append, emit_items_cons, emit_items_nil, emit_xor_eax_item]
  | .if_ cond then_stmt else_stmt, g => by
      have hn : g.alloc_label.2.alloc_label.2.next_label_id = g.next_label_id + 2 := by
        rw [← emit_alloc, ← emit_alloc, emit_item_next, emit_item_next]
        rfl
      have he : g.alloc_label.2.alloc_label.1 = g.next_label_id + 1 := by
        rw [alloc_label_fst, ← emit_alloc, emit_item_next]
        rfl
      simp only [gen_kind, kind_items]
      rw [gen_items then_stmt, gen_condition_items cond, he, alloc_label_fst, emit_items_next, hn]
      by_cases hs : else_stmt.isSome = true
      · simp only [if_pos hs]
        rw [gen_items else_stmt, ← emit_jump, ← emit_mark, ← emit_mark, emit_item_next,
          emit_item_next, emit_items_next, emit_items_next, hn]
        simp only [emit_items_append, emit_items_cons, emit_items_nil, emit_alloc, allocs,
          Nat.add_zero]
      · simp only [if_neg hs, emit_items_append, emit_items_cons, emit_items_nil, emit_alloc,
          emit_mark]
  | .while_ cond then_stmt _, g => by
      have hn : g.alloc_label.2.alloc_label.2.next_label_id = g.next_label_id + 2 := by
        rw [← emit_alloc, ← emit_alloc, emit_item_next, emit_item_next]
        rfl
      have he : g.alloc_label.2.alloc_label.1 = g.next_label_id + 1 := by
        rw [alloc_label_fst, ← emit_alloc, emit_item_next]
        rfl
      have hm (label : Nat) (t : Gen) : (t.mark_label label).next_label_id = t.next_label_id := by
        rw [← emit_mark, emit_item_next]
        rfl
      simp only [gen_kind, kind_items]
      rw [gen_items then_stmt, gen_condition_items cond, he, alloc_label_fst, emit_items_next, hm, hn]
      simp only [emit_items_append, emit_items_cons, emit_items_nil, emit_alloc, emit_mark, emit_jump]
  | .block body, g => by
      simp only [gen_kind, kind_items]
      exact gen_block_items body g
  | .call name args _, g => by
      simp only [gen_kind, kind_items, show Limits.code.args = 32 from rfl,
        show Limits.code.first = 1 from rfl]
      have hall : emit_items (cut_items 32 args ++ args_items A .code 32 args g.next_label_id) g
          = gen_args A 32 args g := by
        rw [emit_items_append, emit_cut, gen_args_items]
      have hone : emit_items (cut_items 1 args ++ (if args.isSome then
          args_items A .code 1 args g.next_label_id ++ [.op .pop_rdi] else [.op .xor_rdi_rdi])) g
          = gen_first A args g := by
        rw [emit_items_append, emit_cut, gen_first_items]
      by_cases h1 : name = ['p', 'r', 'i', 'n', 't', 'f']
      · simp only [if_pos h1]
        split
        · rw [emit_items_append, emit_items_append, hall, builtin_items_eq]
          simp only [emit_items_cons, emit_items_nil, emit_pop_rdi_item]
        · split
          · rw [emit_items_append, emit_items_append, emit_items_append, hall, builtin_items_eq,
              pop_items_eq]
            simp only [emit_items_cons, emit_items_nil, emit_xor_eax_item]
          · simp only [emit_items_cons, emit_items_nil, emit_push_rax_item]
      · by_cases h2 : name = ['p', 'r', 'i', 'n', 't'] ∨ name = ['k', 'p', 'r', 'i', 'n', 't', 'f']
        · simp only [if_neg h1, if_pos h2]
          rw [emit_items_append, hone, builtin_items_eq]
        · by_cases h3 : name = ['p', 'u', 't', 'c']
          · simp only [if_neg h1, if_neg h2, if_pos h3]
            rw [emit_items_append, hone, builtin_items_eq]
          · simp only [if_neg h1, if_neg h2, if_neg h3]
            rw [emit_items_append, hall, call_items_eq]
  | .pointer _ value, g => by
      simp only [gen_kind, kind_items]
      rw [gen_items value, emit_items_append, emit_peek_items]
  | .str string, g => by
      simp only [gen_kind, kind_items, emit_lea_items]
  | .func .., g => by
      simp only [gen_kind, kind_items, emit_items_cons, emit_items_nil, emit_drop]
  | .gvar .., g => by
      simp only [gen_kind, kind_items, emit_items_cons, emit_items_nil, emit_drop]
  | .addr _, g => by
      simp only [gen_kind, kind_items, emit_items_cons, emit_items_nil, emit_drop]
  | .break_, g => by
      simp only [gen_kind, kind_items, emit_items_cons, emit_items_nil, emit_drop]
  | .continue_, g => by
      simp only [gen_kind, kind_items, emit_items_cons, emit_items_nil, emit_drop]
  | .arr_access _, g => by
      simp only [gen_kind, kind_items, emit_items_cons, emit_items_nil, emit_drop]
  | .mem_access .., g => by
      simp only [gen_kind, kind_items, emit_items_cons, emit_items_nil, emit_drop]
  | .preinc _, g => by
      simp only [gen_kind, kind_items, emit_items_cons, emit_items_nil, emit_drop]
  | .predec _, g => by
      simp only [gen_kind, kind_items, emit_items_cons, emit_items_nil, emit_drop]
  | .postinc _, g => by
      simp only [gen_kind, kind_items, emit_items_cons, emit_items_nil, emit_drop]
  | .postdec _, g => by
      simp only [gen_kind, kind_items, emit_items_cons, emit_items_nil, emit_drop]

end

theorem emit_entry_items (p : Node) (g : Gen) :
    emit_entry A p g = emit_items (entry_items A .code p g.next_label_id) g := by
  cases p with
  | null => rfl
  | mk t k ix nx =>
      cases k with
      | func name args body ret localvarbyte argcount =>
          have hreg : (g.register_func name g.code_len).next_label_id = g.next_label_id := by
            unfold register_func
            split <;> rfl
          have hpro : ∀ t : Gen, (t.emit_prologue (BitVec.ofInt 32 localvarbyte + 32)).next_label_id
              = t.next_label_id := by
            intro t
            rw [prologue_items_eq, emit_items_next]
            unfold prologue_items
            split <;> rfl
          simp only [emit_entry, entry_items]
          rw [gen_items, epilogue_items_eq, hpro, hreg, prologue_items_eq]
          simp only [emit_items_append, emit_items_cons, emit_items_nil]
          rfl
      | _ => rfl

theorem emit_entries_items : ∀ (ps : List Node) (g : Gen),
    emit_entries A ps g = emit_items (table_items A .code ps g.next_label_id) g := by
  intro ps
  induction ps with
  | nil => intro g; rfl
  | cons p ps ih =>
      intro g
      unfold emit_entries at ih ⊢
      simp only [table_items, List.foldl_cons]
      rw [ih, emit_entry_items, emit_items_next, emit_items_append]

end

end Eke
