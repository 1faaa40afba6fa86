/-
A fragment of the 64-bit x86 instruction set.

Instructions are an opcode, which fixes the operands, and an immediate that follows
it little-endian.  `decode` looks the opcode up in the table of all of them; no
opcode is a prefix of another, so the bytes of an instruction decode to it and to
nothing else (`decode_of_at`).  `step` is one fetch and execute.  An access that
would run past the end of the address space, a division the processor refuses and
bytes outside the table stop the machine: `step` is `none`.

The parity, carry and adjust flags are left out, as no instruction here reads them,
and so are the values the manual calls undefined: the zero and sign flags keep
theirs over a multiplication.
-/
import Eke.Lib.Bits

namespace Eke.X86

/-- The conditions of the conditional jumps. -/
inductive Cond
  | l | g | le | ge | e | ne
  deriving DecidableEq, Repr

/-- The opcodes, each with its operands; the last operand is the destination. -/
inductive Op
  | push_rax | push_rbx | push_rbp
  | pop_rax | pop_rbx | pop_rcx | pop_rdx | pop_rsi | pop_rdi | pop_r8 | pop_r9
  | movabs_rax | movabs_rbx
  | add_rbx_rax | sub_rbx_rax | imul_rbx_rax | cqo | idiv_rbx
  | cmp_rbx_rax | test_rax_rax | xor_eax_eax | xor_rdi_rdi
  | mov_rbp_rax | mov_rbp_eax | mov_rax_rbp | mov_eax_rbp
  | mov_at_rbx_rax | mov_rax_at_rbx | mov_rsp_rbp | lea_rip_rax
  | sub_rsp | add_rsp
  | leave | ret | jmp | call | call_rbx | nop
  | jcc (c : Cond)
  deriving DecidableEq, Repr

namespace Op

/-- The bytes before the immediate. -/
def opcode : Op → List Byte
  | push_rax => [0x50]
  | push_rbx => [0x53]
  | push_rbp => [0x55]
  | pop_rax => [0x58]
  | pop_rbx => [0x5B]
  | pop_rcx => [0x59]
  | pop_rdx => [0x5A]
  | pop_rsi => [0x5E]
  | pop_rdi => [0x5F]
  | pop_r8 => [0x41, 0x58]
  | pop_r9 => [0x41, 0x59]
  | movabs_rax => [0x48, 0xB8]
  | movabs_rbx => [0x48, 0xBB]
  | add_rbx_rax => [0x48, 0x01, 0xD8]
  | sub_rbx_rax => [0x48, 0x29, 0xD8]
  | imul_rbx_rax => [0x48, 0x0F, 0xAF, 0xC3]
  | cqo => [0x48, 0x99]
  | idiv_rbx => [0x48, 0xF7, 0xFB]
  | cmp_rbx_rax => [0x48, 0x39, 0xD8]
  | test_rax_rax => [0x48, 0x85, 0xC0]
  | xor_eax_eax => [0x31, 0xC0]
  | xor_rdi_rdi => [0x48, 0x31, 0xFF]
  | mov_rbp_rax => [0x48, 0x8B, 0x85]
  | mov_rbp_eax => [0x8B, 0x85]
  | mov_rax_rbp => [0x48, 0x89, 0x85]
  | mov_eax_rbp => [0x89, 0x85]
  | mov_at_rbx_rax => [0x48, 0x8B, 0x03]
  | mov_rax_at_rbx => [0x48, 0x89, 0x03]
  | mov_rsp_rbp => [0x48, 0x89, 0xE5]
  | lea_rip_rax => [0x48, 0x8D, 0x05]
  | sub_rsp => [0x48, 0x81, 0xEC]
  | add_rsp => [0x48, 0x81, 0xC4]
  | leave => [0xC9]
  | ret => [0xC3]
  | jmp => [0xE9]
  | call => [0xE8]
  | call_rbx => [0xFF, 0xD3]
  | nop => [0x90]
  | jcc .l => [0x0F, 0x8C]
  | jcc .g => [0x0F, 0x8F]
  | jcc .le => [0x0F, 0x8E]
  | jcc .ge => [0x0F, 0x8D]
  | jcc .e => [0x0F, 0x84]
  | jcc .ne => [0x0F, 0x85]

/-- How many bytes of immediate follow. -/
def width : Op → Nat
  | movabs_rax | movabs_rbx => 8
  | mov_rbp_rax | mov_rbp_eax | mov_rax_rbp | mov_eax_rbp => 4
  | lea_rip_rax | sub_rsp | add_rsp | jmp | call | jcc _ => 4
  | _ => 0

/-- The table `decode` searches. -/
def table : List Op :=
  [push_rax, push_rbx, push_rbp, pop_rax, pop_rbx, pop_rcx, pop_rdx, pop_rsi, pop_rdi, pop_r8,
    pop_r9, movabs_rax, movabs_rbx, add_rbx_rax, sub_rbx_rax, imul_rbx_rax, cqo, idiv_rbx,
    cmp_rbx_rax, test_rax_rax, xor_eax_eax, xor_rdi_rdi, mov_rbp_rax, mov_rbp_eax, mov_rax_rbp,
    mov_eax_rbp, mov_at_rbx_rax, mov_rax_at_rbx, mov_rsp_rbp, lea_rip_rax, sub_rsp, add_rsp,
    leave, ret, jmp, call, call_rbx, nop, jcc .l, jcc .g, jcc .le, jcc .ge, jcc .e, jcc .ne]

theorem mem_table (op : Op) : op ∈ table := by
  cases op with
  | jcc c => cases c <;> decide
  | _ => decide

/-- No opcode begins another. -/
theorem prefix_free : ∀ o ∈ table, ∀ o' ∈ table, o.opcode <+: o'.opcode → o = o' := by
  decide

end Op

/-- An opcode with its immediate, read as an unsigned number. -/
structure Instr where
  op : Op
  imm : Nat
  deriving DecidableEq

/-- The bytes an instruction takes. -/
def Instr.size (i : Instr) : Nat := i.op.opcode.length + i.op.width

/-! ### Fetching -/

/-- The bytes from `a` on begin with `bs`. -/
def matchAt (m : Store) : Nat → List Byte → Bool
  | _, [] => true
  | a, b :: bs => m a == b && matchAt m (a + 1) bs

/-- The instruction whose bytes stand at `a`. -/
def decode (m : Store) (a : Nat) : Option Instr :=
  (Op.table.find? fun op => matchAt m a op.opcode).map fun op =>
    ⟨op, m.le (a + op.opcode.length) op.width⟩

/-- The bytes of `i` stand at `a`. -/
structure At (m : Store) (a : Nat) (i : Instr) : Prop where
  opcode : matchAt m a i.op.opcode = true
  imm : m.le (a + i.op.opcode.length) i.op.width = i.imm

theorem matchAt_iff {m : Store} : ∀ {bs : List Byte} {a : Nat},
    matchAt m a bs = true ↔ ∀ i (h : i < bs.length), m (a + i) = bs[i] := by
  intro bs
  induction bs with
  | nil => intro a; simp [matchAt]
  | cons b bs ih =>
      intro a
      simp only [matchAt, Bool.and_eq_true, beq_iff_eq, ih, List.length_cons]
      constructor
      · rintro ⟨h0, h⟩ i hi
        cases i with
        | zero => simpa using h0
        | succ i => simpa [Nat.add_assoc, Nat.add_comm 1 i] using h i (by omega)
      · intro h
        refine ⟨by simpa using h 0 (by omega), fun i hi => ?_⟩
        have := h (i + 1) (by omega)
        rwa [List.getElem_cons_succ, show a + (i + 1) = a + 1 + i by omega] at this

/-- Two opcodes that both match at one place are prefixes one of the other. -/
theorem matchAt_comparable {m : Store} {bs bs' : List Byte} {a : Nat} (h : matchAt m a bs = true)
    (h' : matchAt m a bs' = true) (hle : bs.length ≤ bs'.length) : bs <+: bs' := by
  rw [List.prefix_iff_eq_take]
  refine List.ext_getElem (by simp; omega) fun i hi hi' => ?_
  rw [List.getElem_take, ← matchAt_iff.mp h i hi, ← matchAt_iff.mp h' i (by omega)]

theorem decode_of_at {m : Store} {a : Nat} {i : Instr} (h : At m a i) : decode m a = some i := by
  have hmem := Op.mem_table i.op
  cases hf : Op.table.find? fun op => matchAt m a op.opcode with
  | none =>
      have := List.find?_eq_none.mp hf i.op hmem
      exact absurd h.opcode this
  | some op =>
      have hop : matchAt m a op.opcode = true := by simpa using List.find?_some hf
      have htab : op ∈ Op.table := List.mem_of_find?_eq_some hf
      have heq : op = i.op := by
        rcases Nat.le_total op.opcode.length i.op.opcode.length with hle | hle
        · exact Op.prefix_free _ htab _ hmem (matchAt_comparable hop h.opcode hle)
        · exact (Op.prefix_free _ hmem _ htab (matchAt_comparable h.opcode hop hle)).symm
      unfold decode
      rw [hf, heq, Option.map_some, h.imm]

/-- One instruction stands at a place. -/
theorem At.unique {m : Store} {a : Nat} {i j : Instr} (hi : At m a i) (hj : At m a j) : i = j :=
  Option.some.inj ((decode_of_at hi).symm.trans (decode_of_at hj))

/-- Only the bytes of the instruction matter. -/
theorem At.congr {m m' : Store} {a a' : Nat} {i : Instr} (h : At m a i)
    (hm : ∀ k, k < i.size → m' (a' + k) = m (a + k)) : At m' a' i := by
  constructor
  · refine matchAt_iff.mpr fun k hk => ?_
    rw [hm k (by unfold Instr.size; omega), matchAt_iff.mp h.opcode k hk]
  · rw [← h.imm]
    refine Store.le_congr_at fun k hk => ?_
    rw [Nat.add_assoc, Nat.add_assoc]
    exact hm _ (by unfold Instr.size; omega)

/-- The bytes of an instruction. -/
def Instr.bytes (i : Instr) : List Byte := i.op.opcode ++ Store.leBytes i.op.width i.imm

/-- Instructions whose bytes stand in the store, the immediate cut to its width. -/
theorem at_of_bytes {m : Store} {a : Nat} {op : Op} {imm : Nat}
    (h : ∀ k (hk : k < (Instr.bytes ⟨op, imm⟩).length), m (a + k) = (Instr.bytes ⟨op, imm⟩)[k]) :
    At m a ⟨op, imm % 256 ^ op.width⟩ := by
  constructor
  · refine matchAt_iff.mpr fun k (hk : k < op.opcode.length) => ?_
    rw [h k (by simp only [Instr.bytes, List.length_append]; omega)]
    simp only [Instr.bytes]
    rw [List.getElem_append_left hk]
  · refine Store.le_of_leBytes fun k (hk : k < (Store.leBytes op.width imm).length) => ?_
    rw [Nat.add_assoc, h (op.opcode.length + k) (by
      simp only [Instr.bytes, List.length_append]
      omega)]
    simp [Instr.bytes]

/-! ### Executing -/

structure Cpu where
  rax : BitVec 64
  rbx : BitVec 64
  rcx : BitVec 64
  rdx : BitVec 64
  rsi : BitVec 64
  rdi : BitVec 64
  rbp : BitVec 64
  rsp : BitVec 64
  r8 : BitVec 64
  r9 : BitVec 64
  rip : BitVec 64
  zf : Bool
  sf : Bool
  of : Bool
  mem : Store

/-- An access of `n` bytes at `a` stays inside the address space. -/
def fits (a : BitVec 64) (n : Nat) : Bool := a.toNat + n ≤ 2 ^ 64

/-- A 32-bit immediate as the processor uses it in 64-bit arithmetic. -/
def sext (imm : Nat) : BitVec 64 := (BitVec.ofNat 32 imm).signExtend 64

/-- The 32-bit word at `a`. -/
def dword (m : Store) (a : Nat) : BitVec 32 := BitVec.ofNat 32 (m.le a 4)

namespace Cpu

/-- The flags an arithmetic instruction leaves for its result `r`. -/
def flags (c : Cpu) (r : BitVec 64) (overflow : Bool) : Cpu :=
  { c with zf := r == 0, sf := r.msb, of := overflow }

def push (c : Cpu) (v : BitVec 64) : Option Cpu :=
  if fits (c.rsp - 8) 8 then
    some { c with rsp := c.rsp - 8, mem := c.mem.setWord (c.rsp - 8).toNat v }
  else none

def pop (c : Cpu) : Option (BitVec 64 × Cpu) :=
  if fits c.rsp 8 then some (c.mem.word c.rsp.toNat, { c with rsp := c.rsp + 8 }) else none

theorem push_some {c d : Cpu} {v : BitVec 64} (h : c.push v = some d) :
    d = { c with rsp := c.rsp - 8, mem := c.mem.setWord (c.rsp - 8).toNat v } := by
  unfold push at h
  split at h
  · exact (Option.some.inj h).symm
  · cases h

theorem pop_some {c d : Cpu} {v : BitVec 64} (h : c.pop = some (v, d)) :
    v = c.mem.word c.rsp.toNat ∧ d = { c with rsp := c.rsp + 8 } := by
  unfold pop at h
  split at h
  · have hpair := Option.some.inj h
    exact ⟨(congrArg Prod.fst hpair).symm, (congrArg Prod.snd hpair).symm⟩
  · cases h

def holds (c : Cpu) : Cond → Bool
  | .l => c.sf != c.of
  | .g => !c.zf && c.sf == c.of
  | .le => c.zf || c.sf != c.of
  | .ge => c.sf == c.of
  | .e => c.zf
  | .ne => !c.zf

/-- Signed division of rdx:rax by rbx. -/
def idiv (c : Cpu) : Option Cpu :=
  let n := c.rdx.toInt * 2 ^ 64 + c.rax.toNat
  let d := c.rbx.toInt
  if d = 0 then none
  else if n.tdiv d < -(2 ^ 63) ∨ 2 ^ 63 ≤ n.tdiv d then none
  else some { c with rax := BitVec.ofInt 64 (n.tdiv d), rdx := BitVec.ofInt 64 (n.tmod d) }

/-- The effect of an instruction; `rip` is already behind it. -/
def exec (c : Cpu) (i : Instr) : Option Cpu :=
  match i.op with
  | .push_rax => c.push c.rax
  | .push_rbx => c.push c.rbx
  | .push_rbp => c.push c.rbp
  | .pop_rax => c.pop.map fun r => { r.2 with rax := r.1 }
  | .pop_rbx => c.pop.map fun r => { r.2 with rbx := r.1 }
  | .pop_rcx => c.pop.map fun r => { r.2 with rcx := r.1 }
  | .pop_rdx => c.pop.map fun r => { r.2 with rdx := r.1 }
  | .pop_rsi => c.pop.map fun r => { r.2 with rsi := r.1 }
  | .pop_rdi => c.pop.map fun r => { r.2 with rdi := r.1 }
  | .pop_r8 => c.pop.map fun r => { r.2 with r8 := r.1 }
  | .pop_r9 => c.pop.map fun r => { r.2 with r9 := r.1 }
  | .movabs_rax => some { c with rax := BitVec.ofNat 64 i.imm }
  | .movabs_rbx => some { c with rbx := BitVec.ofNat 64 i.imm }
  | .add_rbx_rax =>
      some { c.flags (c.rax + c.rbx) (c.rax.saddOverflow c.rbx) with rax := c.rax + c.rbx }
  | .sub_rbx_rax =>
      some { c.flags (c.rax - c.rbx) (c.rax.ssubOverflow c.rbx) with rax := c.rax - c.rbx }
  | .imul_rbx_rax =>
      some { c with rax := c.rax * c.rbx, of := c.rax.smulOverflow c.rbx }
  | .cqo => some { c with rdx := if c.rax.msb then BitVec.allOnes 64 else 0 }
  | .idiv_rbx => c.idiv
  | .cmp_rbx_rax => some (c.flags (c.rax - c.rbx) (c.rax.ssubOverflow c.rbx))
  | .test_rax_rax => some (c.flags c.rax false)
  | .xor_eax_eax => some { c.flags 0 false with rax := 0 }
  | .xor_rdi_rdi => some { c.flags 0 false with rdi := 0 }
  | .mov_rbp_rax =>
      let a := c.rbp + sext i.imm
      if fits a 8 then some { c with rax := c.mem.word a.toNat } else none
  | .mov_rbp_eax =>
      let a := c.rbp + sext i.imm
      if fits a 4 then some { c with rax := (dword c.mem a.toNat).setWidth 64 } else none
  | .mov_rax_rbp =>
      let a := c.rbp + sext i.imm
      if fits a 8 then some { c with mem := c.mem.setWord a.toNat c.rax } else none
  | .mov_eax_rbp =>
      let a := c.rbp + sext i.imm
      if fits a 4 then some { c with mem := c.mem.setLe a.toNat 4 c.rax.toNat } else none
  | .mov_at_rbx_rax =>
      if fits c.rbx 8 then some { c with rax := c.mem.word c.rbx.toNat } else none
  | .mov_rax_at_rbx =>
      if fits c.rbx 8 then some { c with mem := c.mem.setWord c.rbx.toNat c.rax } else none
  | .mov_rsp_rbp => some { c with rbp := c.rsp }
  | .lea_rip_rax => some { c with rax := c.rip + sext i.imm }
  | .sub_rsp =>
      some { c.flags (c.rsp - sext i.imm) (c.rsp.ssubOverflow (sext i.imm)) with
        rsp := c.rsp - sext i.imm }
  | .add_rsp =>
      some { c.flags (c.rsp + sext i.imm) (c.rsp.saddOverflow (sext i.imm)) with
        rsp := c.rsp + sext i.imm }
  | .leave => ({ c with rsp := c.rbp } : Cpu).pop.map fun r => { r.2 with rbp := r.1 }
  | .ret => c.pop.map fun r => { r.2 with rip := r.1 }
  | .jmp => some { c with rip := c.rip + sext i.imm }
  | .call => (c.push c.rip).map fun d => { d with rip := d.rip + sext i.imm }
  | .call_rbx => (c.push c.rip).map fun d => { d with rip := d.rbx }
  | .nop => some c
  | .jcc k => some (if c.holds k then { c with rip := c.rip + sext i.imm } else c)

/-- Fetch and execute one instruction. -/
def step (c : Cpu) : Option Cpu :=
  match decode c.mem c.rip.toNat with
  | none => none
  | some i =>
      if fits c.rip i.size then
        ({ c with rip := c.rip + BitVec.ofNat 64 i.size } : Cpu).exec i
      else none

/-- `n` instructions. -/
def run : Nat → Cpu → Option Cpu
  | 0, c => some c
  | n + 1, c => c.step.bind (run n)

end Cpu

/-! ### Comparing and dividing -/

/-- What a condition says of two numbers that were compared. -/
def Cond.compares : Cond → Int → Int → Bool
  | .l, a, b => decide (a < b)
  | .g, a, b => decide (b < a)
  | .le, a, b => decide (a ≤ b)
  | .ge, a, b => decide (b ≤ a)
  | .e, a, b => decide (a = b)
  | .ne, a, b => decide (a ≠ b)

theorem Cond.compares_add (c : Cond) (a b z : Int) : c.compares (a + z) (b + z) = c.compares a b := by
  cases c <;> simp [Cond.compares]

/-- Only the order of the numbers matters. -/
theorem Cond.compares_lt (c : Cond) {a b : Int} (h : a < b) : c.compares a b = c.compares 0 1 := by
  cases c <;> simp [Cond.compares] <;> omega

theorem Cond.compares_gt (c : Cond) {a b : Int} (h : b < a) : c.compares a b = c.compares 1 0 := by
  cases c <;> simp [Cond.compares] <;> omega

/-- The conditions that do not tell less from greater. -/
theorem Cond.compares_swap (c : Cond) : c.compares 0 1 = c.compares 1 0 ↔ c = .e ∨ c = .ne := by
  cases c <;> decide

theorem sub_less (a b : BitVec 64) :
    ((a - b).msb != a.ssubOverflow b) = decide (a.toInt < b.toInt) := by
  have ha := BitVec.two_mul_toInt_lt (x := a)
  have ha' := BitVec.le_two_mul_toInt (x := a)
  have hb := BitVec.two_mul_toInt_lt (x := b)
  have hb' := BitVec.le_two_mul_toInt (x := b)
  rw [BitVec.msb_eq_toInt, BitVec.toInt_sub]
  unfold BitVec.ssubOverflow
  have hmod : (a.toInt - b.toInt).bmod (2 ^ 64) = if a.toInt - b.toInt < -2 ^ 63 then a.toInt - b.toInt + 2 ^ 64
      else if 2 ^ 63 ≤ a.toInt - b.toInt then a.toInt - b.toInt - 2 ^ 64 else a.toInt - b.toInt := by
    rw [Int.bmod_def]
    split_ifs <;> omega
  rw [hmod]
  grind

theorem holds_cmp (c : Cpu) (a b : BitVec 64) (k : Cond) :
    (c.flags (a - b) (a.ssubOverflow b)).holds k = k.compares a.toInt b.toInt := by
  have hz : (a - b == 0) = decide (a.toInt = b.toInt) := by
    rw [Bool.eq_iff_iff, beq_iff_eq, decide_eq_true_iff, BitVec.toInt_inj, BitVec.sub_eq_iff_eq_add]
    simp
  have hl := sub_less a b
  have hge : ((a - b).msb == a.ssubOverflow b) = decide (b.toInt ≤ a.toInt) := by
    rw [← Bool.not_not ((a - b).msb == _)]
    show (!((a - b).msb != _)) = _
    rw [hl, ← decide_not]
    simp
  cases k <;> simp only [Cpu.flags, Cpu.holds, Cond.compares, hz, hl, hge]
  · grind
  · grind
  · rw [← decide_not]

/-- The quotient of two signed words, where the processor has one. -/
def quotient (u w : BitVec 64) : Option (BitVec 64) :=
  if w.toInt = 0 ∨ 2 ^ 63 ≤ u.toInt.tdiv w.toInt then none
  else some (BitVec.ofInt 64 (u.toInt.tdiv w.toInt))

theorem tdiv_lower (u : BitVec 64) (z : Int) : -(2 ^ 63) ≤ u.toInt.tdiv z := by
  have hu := BitVec.two_mul_toInt_lt (x := u)
  have hu' := BitVec.le_two_mul_toInt (x := u)
  have habs := Int.natAbs_tdiv_le_natAbs u.toInt z
  omega

/-- A division of a word whose sign was extended into `rdx`. -/
theorem idiv_eq (c : Cpu) (h : c.rdx = if c.rax.msb then BitVec.allOnes 64 else 0) :
    c.idiv = (quotient c.rax c.rbx).map fun q =>
      { c with rax := q, rdx := BitVec.ofInt 64 (c.rax.toInt.tmod c.rbx.toInt) } := by
  have hn : c.rdx.toInt * 2 ^ 64 + c.rax.toNat = c.rax.toInt := by
    have hones : (BitVec.allOnes 64).toInt = -1 := by decide
    have hlt := c.rax.isLt
    rw [h, BitVec.toInt_eq_msb_cond (x := c.rax)]
    split
    · rw [hones]
      omega
    · simp
  unfold Cpu.idiv quotient
  simp only [hn]
  by_cases hz : c.rbx.toInt = 0
  · rw [if_pos hz, if_pos (Or.inl hz)]
    rfl
  · have hlow := tdiv_lower c.rax c.rbx.toInt
    rw [if_neg hz]
    by_cases hbig : 2 ^ 63 ≤ c.rax.toInt.tdiv c.rbx.toInt
    · rw [if_pos (Or.inr hbig), if_pos (Or.inr hbig)]
      rfl
    · rw [if_neg (by omega), if_neg (by omega)]
      rfl

variable {c : Cpu}

/-! ### One instruction of code that stands at a place -/

theorem step_of_at {i : Instr} (h : At c.mem c.rip.toNat i) (hb : c.rip.toNat + i.size < 2 ^ 64) :
    c.step = ({ c with rip := c.rip + BitVec.ofNat 64 i.size } : Cpu).exec i := by
  unfold Cpu.step
  rw [decode_of_at h]
  exact if_pos (decide_eq_true (Nat.le_of_lt hb))

end Eke.X86
