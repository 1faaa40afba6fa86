/-
The code generator.

`Gen` holds the statics of `codegen_x86.c`.  Four more fields record what the source
does silently: `lost` is set where a byte, a label or a jump is left out because a
table is full, `visited` counts the nodes the traversal handles, `dropped` counts
the nodes and operators for which no case of a `switch` applies, and `storeless`
counts the assignments that end without a store.  No code reads them.

A full string pool takes no more characters, but every string still gets its zero; the
zeros behind the array's end are kept here, where the source writes out of bounds.
-/
import Eke.Compiler.Ast
import Eke.Lib.Loop

namespace Eke

def CODE_BUF_SIZE : Nat := 65536
def MAX_LABELS : Nat := 512
def MAX_FIXUPS : Nat := 1024
def MAX_STR_POOL : Nat := 8192
def MAX_STR_FIXUPS : Nat := 256

structure Fixup where
  label_id : Nat
  patch_pos : Nat
  is_func_call : Bool
  func_name : Name

structure StrFixup where
  lea_disp_pos : Nat
  str_pool_offset : Nat

structure FuncSym where
  name : Name
  offset : Nat

/-- What the generated code refers to but the generator does not make: the builtins, and
the addresses of nodes. -/
structure Addresses where
  print_str : BitVec 64
  kprintf : BitVec 64
  print : BitVec 64
  putc : BitVec 64
  node : Node → BitVec 64

structure Gen where
  code_buf : Store
  code_len : Nat
  label_pos : Nat → Int
  next_label_id : Nat
  fixups : Nat → Fixup
  num_fixups : Nat
  func_table : List FuncSym
  str_pool : List Byte
  str_fixups : Nat → StrFixup
  num_str_fixups : Nat
  lost : Bool
  visited : Nat
  dropped : Nat
  storeless : Nat

namespace Gen

/-! ### Bytes -/

def emit_byte (b : Byte) (g : Gen) : Gen :=
  if g.code_len < CODE_BUF_SIZE then
    { g with code_buf := g.code_buf.set g.code_len b, code_len := g.code_len + 1 }
  else { g with lost := true }

def emit_bytes (bs : List Byte) (g : Gen) : Gen := bs.foldl (fun g b => g.emit_byte b) g

def emit_u32 (val : BitVec 32) (g : Gen) : Gen :=
  g.emit_bytes [(val &&& 0xFF).setWidth 8, ((val >>> 8) &&& 0xFF).setWidth 8,
    ((val >>> 16) &&& 0xFF).setWidth 8, ((val >>> 24) &&& 0xFF).setWidth 8]

def emit_u64 (val : BitVec 64) (g : Gen) : Gen :=
  (g.emit_u32 ((val &&& 0xFFFFFFFF).setWidth 32)).emit_u32
    (((val >>> 32) &&& 0xFFFFFFFF).setWidth 32)

/-! ### Instructions -/

def emit_push_rax (g : Gen) : Gen := g.emit_bytes [0x50]
def emit_pop_rax (g : Gen) : Gen := g.emit_bytes [0x58]
def emit_pop_rbx (g : Gen) : Gen := g.emit_bytes [0x5B]
def emit_mov_imm_rax (val : BitVec 64) (g : Gen) : Gen := (g.emit_bytes [0x48, 0xB8]).emit_u64 val
def emit_add_rax_rbx (g : Gen) : Gen := g.emit_bytes [0x48, 0x01, 0xD8]
def emit_sub_rax_rbx (g : Gen) : Gen := g.emit_bytes [0x48, 0x29, 0xD8]
def emit_imul_rax_rbx (g : Gen) : Gen := g.emit_bytes [0x48, 0x0F, 0xAF, 0xC3]
def emit_idiv_rax_rbx (g : Gen) : Gen := (g.emit_bytes [0x48, 0x99]).emit_bytes [0x48, 0xF7, 0xFB]

/-- The displacement of a variable from `rbp`: parameters lie above it, locals below. -/
def disp (offset : Int) : BitVec 32 :=
  if offset < 0 then BitVec.ofInt 32 (16 + (-12 - offset).tdiv 4 * 8)
  else BitVec.ofInt 32 (-(offset + 8))

def emit_load_local (offset : Int) (g : Gen) : Gen :=
  ((g.emit_bytes (if offset < 0 then [0x48, 0x8B, 0x85] else [0x8B, 0x85])).emit_u32
    (disp offset)).emit_push_rax

def emit_store_local (offset : Int) (g : Gen) : Gen :=
  (g.emit_pop_rax.emit_bytes (if offset < 0 then [0x48, 0x89, 0x85] else [0x89, 0x85])).emit_u32
    (disp offset)

def emit_peek (g : Gen) : Gen := (g.emit_pop_rbx.emit_bytes [0x48, 0x8B, 0x03]).emit_push_rax
def emit_poke (g : Gen) : Gen := g.emit_pop_rax.emit_pop_rbx.emit_bytes [0x48, 0x89, 0x03]

/-- The frame, rounded up to 16 bytes in `int` arithmetic. -/
def frameBytes (local_bytes : BitVec 32) : BitVec 32 := (local_bytes + 15) &&& ~~~15

def emit_prologue (local_bytes : BitVec 32) (g : Gen) : Gen :=
  let g := (g.emit_bytes [0x55]).emit_bytes [0x48, 0x89, 0xE5]
  if BitVec.slt 0 (frameBytes local_bytes) then
    (g.emit_bytes [0x48, 0x81, 0xEC]).emit_u32 (frameBytes local_bytes)
  else g

def emit_epilogue (g : Gen) : Gen := (g.emit_bytes [0xC9]).emit_bytes [0xC3]

/-! ### Labels and fixups -/

def alloc_label (g : Gen) : Nat × Gen :=
  if g.next_label_id < MAX_LABELS then
    (g.next_label_id,
      { g with
        next_label_id := g.next_label_id + 1
        label_pos := fun i => if i = g.next_label_id then -1 else g.label_pos i })
  else (g.next_label_id, { g with next_label_id := g.next_label_id + 1, lost := true })

def mark_label (id : Nat) (g : Gen) : Gen :=
  if id < MAX_LABELS then
    { g with label_pos := fun i => if i = id then (g.code_len : Int) else g.label_pos i }
  else g

/-- A new fixup for the bytes emitted next: the slot's old contents through `f`. -/
def add_fixup (f : Fixup → Fixup) (g : Gen) : Gen :=
  if g.num_fixups < MAX_FIXUPS then
    { g with
      fixups := fun i => if i = g.num_fixups then
          { f (g.fixups i) with patch_pos := g.code_len } else g.fixups i
      num_fixups := g.num_fixups + 1 }
  else { g with lost := true }

def emit_jmp (label_id : Nat) (g : Gen) : Gen :=
  ((g.emit_bytes [0xE9]).add_fixup fun f =>
    { f with label_id := label_id, is_func_call := false }).emit_u32 0

/-- The second opcode byte of the conditional jump for an operator. -/
def condJumpByte (op : Int) : Byte :=
  if op = '<'.toNat then 0x8C
  else if op = '>'.toNat then 0x8F
  else if op = T_LEQ then 0x8E
  else if op = T_GEQ then 0x8D
  else if op = T_EQ then 0x84
  else 0x85

def emit_cond_jump (op : Int) (label_id : Nat) (g : Gen) : Gen :=
  (((g.emit_pop_rbx.emit_pop_rax.emit_bytes [0x48, 0x39, 0xD8]).emit_bytes
    [0x0F, condJumpByte op]).add_fixup fun f =>
      { f with label_id := label_id, is_func_call := false }).emit_u32 0

/-! ### Functions -/

def register_func (name : Name) (offset : Nat) (g : Gen) : Gen :=
  if g.func_table.length < 128 then
    { g with func_table := g.func_table ++ [⟨name.take 63, offset⟩] }
  else g

def find_func_offset (name : Name) (g : Gen) : Int :=
  match g.func_table.find? fun f => f.name = name with
  | some f => f.offset
  | none => -1

/-- The 32-bit displacement written at `pos` for a target. -/
def rel32 (target : Int) (pos : Nat) : BitVec 32 := BitVec.ofInt 32 (target - (pos + 4 : Nat))

/-- One round of `patch_fixups`. -/
def patch_fixup (i : Nat) (g : Gen) : Gen :=
  let f := g.fixups i
  let write target :=
    { g with code_buf := g.code_buf.setLe f.patch_pos 4 (rel32 target f.patch_pos).toNat }
  if f.is_func_call then
    if g.find_func_offset f.func_name ≠ -1 then write (g.find_func_offset f.func_name) else g
  else if f.label_id < MAX_LABELS ∧ g.label_pos f.label_id ≠ -1 then
    write (g.label_pos f.label_id)
  else g

def patch_fixups (g : Gen) : Gen := loop patch_fixup g.num_fixups g

/-! ### Strings -/

/-- The string between the quotes with its escapes decoded. -/
def unescape : Name → List Byte
  | '\\' :: c :: cs =>
      (if c = 'n' then 10 else if c = 't' then 9 else if c = 'r' then 13
        else if c = '0' then 0 else BitVec.ofNat 8 c.toNat) :: unescape cs
  | c :: cs => BitVec.ofNat 8 c.toNat :: unescape cs
  | [] => []

/-- The text between the quotes of a literal. -/
def stripQuotes (raw : Name) : Name :=
  let i := if raw.head? = some '"' then 1 else 0
  let stop := if i < raw.length ∧ raw.getLast? = some '"' then raw.length - 1 else raw.length
  (raw.take stop).drop i

def add_to_string_pool (raw_str : Name) (g : Gen) : Nat × Gen :=
  let chars := (unescape (stripQuotes raw_str)).take (MAX_STR_POOL - 2 - g.str_pool.length)
  (g.str_pool.length, { g with str_pool := g.str_pool ++ chars ++ [0] })

def add_str_fixup (str_offset : Nat) (g : Gen) : Gen :=
  if g.num_str_fixups < MAX_STR_FIXUPS then
    { g with
      str_fixups := fun i => if i = g.num_str_fixups then ⟨g.code_len, str_offset⟩
        else g.str_fixups i
      num_str_fixups := g.num_str_fixups + 1 }
  else g

def patch_str_fixup (start : Nat) (i : Nat) (g : Gen) : Gen :=
  let f := g.str_fixups i
  { g with
    code_buf := g.code_buf.setLe f.lea_disp_pos 4
      (rel32 (start + f.str_pool_offset : Nat) f.lea_disp_pos).toNat }

def patch_str_fixups (str_section_start : Nat) (g : Gen) : Gen :=
  loop (patch_str_fixup str_section_start) g.num_str_fixups g

/-! ### What is left out -/

def visit (g : Gen) : Gen := { g with visited := g.visited + 1 }
def drop (g : Gen) : Gen := { g with dropped := g.dropped + 1 }
def skipStore (g : Gen) : Gen := { g with storeless := g.storeless + 1 }

/-! ### Calls -/

/-- Move `n` pushed arguments to the argument registers. -/
def pop_args (n : Nat) (g : Gen) : Gen :=
  let g := g.emit_bytes [0x5F]
  let g := if 2 ≤ n then g.emit_bytes [0x5E] else g
  let g := if 3 ≤ n then g.emit_bytes [0x5A] else g
  let g := if 4 ≤ n then g.emit_bytes [0x59] else g
  let g := if 5 ≤ n then g.emit_bytes [0x41, 0x58] else g
  if 6 ≤ n then g.emit_bytes [0x41, 0x59] else g

/-- Call a builtin at a fixed address and push its result. -/
def emit_call_builtin (addr : BitVec 64) (g : Gen) : Gen :=
  (((g.emit_bytes [0x48, 0xBB]).emit_u64 addr).emit_bytes [0xFF, 0xD3]).emit_push_rax

/-- `call rel32` to a function; one that is not emitted yet is left to `patch_fixups`. -/
def emit_call_rel (name : Name) (g : Gen) : Gen :=
  let target := g.find_func_offset name
  if target ≠ -1 then
    (g.emit_bytes [0xE8]).emit_u32 (rel32 target (g.emit_bytes [0xE8]).code_len)
  else
    ((g.emit_bytes [0xE8]).add_fixup fun f =>
      { f with is_func_call := true, func_name := name.take 63 }).emit_u32 0

/-- Drop `n` arguments from the stack. -/
def emit_drop_args (n : Nat) (g : Gen) : Gen :=
  if 0 < n then (g.emit_bytes [0x48, 0x81, 0xC4]).emit_u32 (BitVec.ofNat 32 (n * 8)) else g

/-- The call of a user function, its `n` arguments already pushed. -/
def emit_call (name : Name) (n : Nat) (g : Gen) : Gen :=
  ((g.emit_call_rel name).emit_drop_args n).emit_push_rax

end Gen

/-! ### The traversal -/

/-- The length of a chain of nodes. -/
def chainLength : Node → Nat
  | .null => 0
  | .mk _ _ _ nx => chainLength nx + 1

/-- The operator the inverted condition jumps on. -/
def invert (op : Int) : Int :=
  if op = '<'.toNat then T_GEQ
  else if op = '>'.toNat then T_LEQ
  else if op = T_LEQ then '>'.toNat
  else if op = T_GEQ then '<'.toNat
  else if op = T_EQ then T_NEQ
  else if op = T_NEQ then T_EQ
  else op

/-- The instruction of a binary operator used as a value. -/
def emit_bin (op : Int) (g : Gen) : Gen :=
  if op = '+'.toNat then g.emit_add_rax_rbx
  else if op = '-'.toNat then g.emit_sub_rax_rbx
  else if op = '*'.toNat then g.emit_imul_rax_rbx
  else if op = '/'.toNat then g.emit_idiv_rax_rbx
  else g.drop

/-- The jump of a condition that is not a binary operator; the slot's `is_func_call` stays. -/
def emit_test_jump (label : Nat) (jump_on_true : Bool) (g : Gen) : Gen :=
  (((g.emit_pop_rax.emit_bytes [0x48, 0x85, 0xC0]).emit_bytes
    [0x0F, if jump_on_true then 0x85 else 0x84]).add_fixup fun f =>
      { f with label_id := label }).emit_u32 0

section

variable (A : Addresses)

mutual

def gen_code_x86 : Node → Gen → Gen
  | .null, g => g
  | .mk _ k _ _, g => gen_kind k g.visit

def gen_condition : Node → Nat → Bool → Gen → Gen
  | .null, _, _, g => g
  | .mk _ (.bin op left right) _ _, target_label, jump_on_true, g =>
      Gen.emit_cond_jump (if jump_on_true then op else invert op) target_label
        (gen_code_x86 right (gen_code_x86 left g.visit))
  | .mk _ k _ _, target_label, jump_on_true, g =>
      emit_test_jump target_label jump_on_true (gen_kind k g.visit)

/-- The statements of a block. -/
def gen_block : Node → Gen → Gen
  | .null, g => g
  | .mk _ (.var _ offset value) _ nx, g =>
      gen_block nx (if value.isSome then (gen_code_x86 value g.visit).emit_store_local offset
        else g.visit)
  | .mk _ k _ nx, g => gen_block nx (gen_kind k g.visit)

/-- At most `n` arguments of a call, the last one first. -/
def gen_args : Nat → Node → Gen → Gen
  | _, .null, g => g
  | 0, _, g => g
  | n + 1, .mk _ k _ nx, g => gen_kind k (gen_args n nx g).visit

/-- The first argument of a call. -/
def gen_first : Node → Gen → Gen
  | .null, g => g.emit_bytes [0x48, 0x31, 0xFF]
  | .mk _ k _ _, g => (gen_kind k g.visit).emit_bytes [0x5F]

/-- The cases of `gen_code_x86`. -/
def gen_kind : Kind → Gen → Gen
  | .int int_val, g => (g.emit_mov_imm_rax int_val).emit_push_rax
  | .elem expr, g => (g.emit_mov_imm_rax (A.node expr)).emit_push_rax
  | .var _ offset _, g => g.emit_load_local offset
  | .bin op left right, g =>
      (emit_bin op (gen_code_x86 right (gen_code_x86 left g)).emit_pop_rbx.emit_pop_rax).emit_push_rax
  | .assign offset _ left right, g =>
      let g := gen_code_x86 right g
      match left with
      | .mk _ (.var _ off _) _ _ =>
          g.visit.emit_store_local (if offset ≠ 0 then offset else off)
      | .mk _ (.pointer _ value) _ _ => (gen_code_x86 value g.visit).emit_poke
      | _ => g.skipStore
  | .return_ value, g =>
      Gen.emit_epilogue <|
        if value.isSome then (gen_code_x86 value g).emit_pop_rax else g.emit_bytes [0x31, 0xC0]
  | .if_ cond then_stmt else_stmt, g =>
      let (lbl_else, g) := g.alloc_label
      let (lbl_exit, g) := g.alloc_label
      let g := gen_condition cond (if else_stmt.isSome then lbl_else else lbl_exit) false g
      let g := gen_code_x86 then_stmt g
      Gen.mark_label lbl_exit <|
        if else_stmt.isSome then
          gen_code_x86 else_stmt (Gen.mark_label lbl_else (g.emit_jmp lbl_exit))
        else g
  | .while_ cond then_stmt _, g =>
      let (lbl_start, g) := g.alloc_label
      let (lbl_exit, g) := g.alloc_label
      let g := gen_condition cond lbl_exit false (g.mark_label lbl_start)
      let g := gen_code_x86 then_stmt g
      (g.emit_jmp lbl_start).mark_label lbl_exit
  | .block body, g => gen_block body g
  | .call name args _, g =>
      let arg_count := min (chainLength args) 32
      if name = ['p', 'r', 'i', 'n', 't', 'f'] then
        if arg_count = 1 then ((gen_args 32 args g).emit_bytes [0x5F]).emit_call_builtin A.print_str
        else if 1 < arg_count then
          (((gen_args 32 args g).pop_args arg_count).emit_bytes [0x31, 0xC0]).emit_call_builtin
            A.kprintf
        else g.emit_push_rax
      else if name = ['p', 'r', 'i', 'n', 't'] ∨ name = ['k', 'p', 'r', 'i', 'n', 't', 'f'] then
        (gen_first args g).emit_call_builtin A.print
      else if name = ['p', 'u', 't', 'c'] then (gen_first args g).emit_call_builtin A.putc
      else (gen_args 32 args g).emit_call name arg_count
  | .pointer _ value, g => (gen_code_x86 value g).emit_peek
  | .str string, g =>
      let (str_offset, g) := g.add_to_string_pool string
      (((g.emit_bytes [0x48, 0x8D, 0x05]).add_str_fixup str_offset).emit_u32 0).emit_push_rax
  | _, g => g.drop

end

/-! ### The driver -/

/-- The code of one entry of the global table. -/
def emit_entry (p : Node) (g : Gen) : Gen :=
  match p with
  | .mk _ (.func name _ body _ localvarbyte _) _ _ =>
      let g := g.register_func name g.code_len
      let g := g.emit_prologue (BitVec.ofInt 32 localvarbyte + 32)
      (gen_code_x86 A body g).emit_epilogue
  | _ => g

/-- The code of all entries. -/
def emit_entries (global_table : List Node) (g : Gen) : Gen :=
  global_table.foldl (fun g p => emit_entry A p g) g

/-- The state in which the first function is emitted. -/
def Gen.reset (g : Gen) : Gen :=
  { g with
    code_len := 64, num_fixups := 0, func_table := [], str_pool := [], num_str_fixups := 0
    next_label_id := 1, label_pos := fun i => if i < MAX_LABELS then -1 else g.label_pos i
    lost := false, visited := 0, dropped := 0, storeless := 0 }

/-- No-ops up to the next multiple of 8; at most `n`. -/
def nop_align : Nat → Gen → Gen
  | 0, g => g
  | n + 1, g => if g.code_len % 8 ≠ 0 then nop_align n (g.emit_byte 0x90) else g

/-- The strings behind the code, and all references resolved. -/
def emit_strings (g : Gen) : Gen :=
  let g := nop_align 7 g
  let str_section_start := g.code_len
  (g.emit_bytes g.str_pool).patch_fixups.patch_str_fixups str_section_start

/-- The entry point: `main`, `module_init`, `init`, else the first function. -/
def main_offset (g : Gen) : Int :=
  let main := g.find_func_offset ['m', 'a', 'i', 'n']
  let module_init := g.find_func_offset ['m', 'o', 'd', 'u', 'l', 'e', '_', 'i', 'n', 'i', 't']
  let init := g.find_func_offset ['i', 'n', 'i', 't']
  if main ≠ -1 then main else if module_init ≠ -1 then module_init
  else if init ≠ -1 then init else 64

/-- The `DiskModuleHeader` at byte 0. -/
def write_header (mod_name : Option Name) (mod_type : BitVec 32) (g : Gen) : Store :=
  let name := (mod_name.getD ['U', 'n', 'n', 'a', 'm', 'e', 'd', 'M', 'o', 'd']).take 31
  let buf := g.code_buf.setLe 0 4 0x454B4531
  let buf : Store := fun x => if 4 ≤ x ∧ x < 36 then
    (name[x - 4]?.map fun c => BitVec.ofNat 8 c.toNat).getD 0 else buf x
  let buf := buf.setLe 36 4 mod_type.toNat
  let buf := buf.setLe 40 4 (BitVec.ofInt 32 (main_offset g)).toNat
  let buf := buf.setLe 44 4 (BitVec.ofNat 32 (g.code_len - 64)).toNat
  buf.setLe 48 4 0

/-- The bytes handed back, their number, and the statics afterwards. -/
def codegen_x86_emit (global_table : List Node) (mod_name : Option Name) (mod_type : BitVec 32)
    (g : Gen) : Store × Nat × Gen :=
  let g := emit_strings (emit_entries A global_table g.reset)
  let code_buf := write_header mod_name mod_type g
  (code_buf, g.code_len, { g with code_buf := code_buf })

end

end Eke
