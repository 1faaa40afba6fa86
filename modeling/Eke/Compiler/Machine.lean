/-
A binary in memory.

The bytes of a binary stand in memory from some base on.  A listing that stands in the
binary is then code the processor executes there: each instruction has its own lemma, and a
jump or a call leads to the place its distance was computed for.
-/
import Eke.Compiler.Completeness

namespace Eke

open Gen Store X86

variable {bin m : Store} {len base p t : Nat} {c : Cpu} {op : Op}

/-- The binary stands at `base`, and ends before the address space does. -/
structure Loaded (bin : Store) (len base : Nat) (m : Store) : Prop where
  bytes : ∀ x, x < len → m (base + x) = bin x
  room : base + len < 2 ^ 64

/-- An address inside a binary that is loaded at `base`. -/
abbrev place (base p : Nat) : BitVec 64 := BitVec.ofNat 64 (base + p)

theorem place_toNat (h : base + p < 2 ^ 64) : (place base p).toNat = base + p := by
  unfold place
  rw [BitVec.toNat_ofNat, Nat.mod_eq_of_lt h]

theorem place_ne {q : Nat} (hp : base + p < 2 ^ 64) (hq : base + q < 2 ^ 64) (h : p ≠ q) :
    place base p ≠ place base q := by
  intro heq
  have := congrArg BitVec.toNat heq
  rw [place_toNat hp, place_toNat hq] at this
  omega

theorem place_add (base p n : Nat) : place base p + BitVec.ofNat 64 n = place base (p + n) := by
  unfold place
  rw [← Nat.add_assoc, ← BitVec.ofNat_add]

/-- A binary is loaded at address 0 of a memory that is the binary. -/
theorem loaded_self (hmax : len < 2 ^ 31) : Loaded bin len 0 bin :=
  ⟨fun x _ => by rw [Nat.zero_add], by omega⟩

theorem Loaded.place_inj {q : Nat} (h : Loaded bin len base m) (hp : p ≤ len) (hq : q ≤ len)
    (heq : place base p = place base q) : p = q := by
  have hroom := h.room
  by_contra hne
  exact place_ne (by omega) (by omega) hne heq

/-- The instruction that stands at a place of a loaded binary is executed there. -/
theorem Loaded.step {base : Nat} {c : Cpu} {i : Instr} (h : Loaded bin len base c.mem)
    (hrip : c.rip = place base p) (hi : At bin p i) (hlen : p + i.size ≤ len) :
    c.step = ({ c with rip := place base (p + i.size) } : Cpu).exec i := by
  have hroom := h.room
  have hp : c.rip.toNat = base + p := by
    rw [hrip]
    exact place_toNat (by omega)
  rw [step_of_at (i := i), hrip, place_add]
  · rw [hp]
    refine hi.congr fun k hk => ?_
    rw [Nat.add_assoc, h.bytes _ (by omega)]
  · rw [hp]
    omega

/-- A 32-bit distance added to an address. -/
theorem sext_rel32 {q : Nat} (ht : t < 2 ^ 31) (hq : q + 4 < 2 ^ 31) :
    place base (q + 4) + sext (rel32 t q).toNat = place base t := by
  have hint : (rel32 t q).toInt = (t : Int) - (q + 4 : Nat) := by
    unfold rel32
    rw [BitVec.toInt_ofInt]
    refine Int.bmod_eq_of_le ?_ ?_ <;> omega
  unfold sext place
  rw [BitVec.ofNat_toNat, BitVec.setWidth_eq, BitVec.signExtend, hint]
  rw [← BitVec.ofInt_natCast, ← BitVec.ofInt_natCast, ← BitVec.ofInt_add]
  congr 1
  omega

theorem RelAt.at {t : Nat} (h : RelAt bin p op t) (hw : op.width = 4) :
    At bin p ⟨op, (rel32 t (p + op.opcode.length)).toNat⟩ := by
  refine ⟨matchAt_iff.mpr fun k (hk : k < op.opcode.length) => h.opcode k hk, ?_⟩
  rw [← h.rel]
  show bin.le _ op.width = _
  rw [hw]

section

variable (h : Loaded bin len base c.mem) (hrip : c.rip = place base p)
include h hrip

/-- The instruction whose bytes stand at `rip`. -/
theorem step_ins {imm : Nat} (hb : BytesAt bin p (Instr.bytes ⟨op, imm⟩))
    (hlen : p + (Instr.bytes ⟨op, imm⟩).length ≤ len) :
    c.step = ({ c with rip := place base (p + (Instr.bytes ⟨op, imm⟩).length) } : Cpu).exec
      ⟨op, imm % 256 ^ op.width⟩ := by
  have hsize : Instr.size ⟨op, imm % 256 ^ op.width⟩ = (Instr.bytes ⟨op, imm⟩).length := by
    simp [Instr.size, Instr.bytes]
  rw [h.step hrip (at_of_bytes hb) (by rw [hsize]; exact hlen), hsize]

/-- The relative instruction whose bytes stand at `rip`. -/
theorem step_rel (hr : RelAt bin p op t) (hw : op.width = 4)
    (hlen : p + (op.opcode.length + 4) ≤ len) :
    c.step = ({ c with rip := place base (p + (op.opcode.length + 4)) } : Cpu).exec
      ⟨op, (rel32 t (p + op.opcode.length)).toNat⟩ := by
  have hsize : Instr.size ⟨op, (rel32 t (p + op.opcode.length)).toNat⟩ = op.opcode.length + 4 := by
    simp [Instr.size, hw]
  rw [h.step hrip (hr.at hw) (by rw [hsize]; exact hlen), hsize]

/-- A jump. -/
theorem step_jmp (hr : RelAt bin p .jmp t) (hlen : p + 5 ≤ len) (hmax : len < 2 ^ 31)
    (ht : t ≤ len) : c.step = some { c with rip := place base t } := by
  rw [step_rel h hrip hr rfl hlen]
  show some { c with rip := place base (p + 1 + 4) + sext (rel32 t (p + 1)).toNat } = _
  rw [sext_rel32 (by omega) (by omega)]

/-- A conditional jump. -/
theorem step_jcc {k : Cond} (hr : RelAt bin p (.jcc k) t) (hlen : p + 6 ≤ len) (hmax : len < 2 ^ 31)
    (ht : t ≤ len) :
    c.step = some { c with rip := if c.holds k then place base t else place base (p + 6) } := by
  have hop : (Op.jcc k).opcode.length = 2 := by cases k <;> rfl
  rw [step_rel h hrip hr rfl (by rw [hop]; exact hlen), hop]
  have hexec : ∀ d : Cpu, d.exec ⟨.jcc k, (rel32 t (p + 2)).toNat⟩ = some (if d.holds k then
      { d with rip := d.rip + sext (rel32 t (p + 2)).toNat } else d) := fun _ => rfl
  have hholds : Cpu.holds { c with rip := place base (p + (2 + 4)) } k = c.holds k := by
    cases k <;> rfl
  rw [hexec, hholds]
  split
  · show some { c with rip := place base (p + 2 + 4) + _ } = _
    rw [sext_rel32 (by omega) (by omega)]
  · rfl

/-- A call. -/
theorem step_call (hr : RelAt bin p .call t) (hlen : p + 5 ≤ len) (hmax : len < 2 ^ 31)
    (ht : t ≤ len) :
    c.step = (c.push (place base (p + 5))).map fun d => { d with rip := place base t } := by
  rw [step_rel h hrip hr rfl hlen]
  have hexec : ∀ d : Cpu, d.exec ⟨.call, (rel32 t (p + 1)).toNat⟩ = (d.push d.rip).map fun e =>
      { e with rip := e.rip + sext (rel32 t (p + 1)).toNat } := fun _ => rfl
  show Cpu.exec { c with rip := place base (p + 5) } ⟨.call, (rel32 t (p + 1)).toNat⟩ = _
  rw [hexec]
  unfold Cpu.push
  simp only
  split
  · show some { c with
        rip := place base (p + 1 + 4) + sext (rel32 t (p + 1)).toNat, rsp := _, mem := _ } = _
    rw [sext_rel32 (by omega) (by omega)]
    rfl
  · rfl

end

/-! ### Where calls lead -/

/-- The call at `p` leads to `t`, wherever the binary is loaded. -/
def CallsTo (bin : Store) (len p t : Nat) : Prop :=
  ∀ (base : Nat) (c : Cpu), Loaded bin len base c.mem → c.rip = place base p →
    c.step = (c.push (place base (p + 5))).map fun d => { d with rip := place base t }

theorem RelAt.callsTo (hr : RelAt bin p .call t) (hlen : p + 5 ≤ len) (hmax : len < 2 ^ 31)
    (ht : t ≤ len) : CallsTo bin len p t :=
  fun _ _ h hrip => step_call h hrip hr hlen hmax ht

/-- A call leads to one place. -/
theorem CallsTo.unique {t' : Nat} (h : CallsTo bin len p t) (h' : CallsTo bin len p t')
    (hmax : len < 2 ^ 31) (ht : t ≤ len) (ht' : t' ≤ len) : t = t' := by
  let c : Cpu :=
    { rax := 0, rbx := 0, rcx := 0, rdx := 0, rsi := 0, rdi := 0, rbp := 0, rsp := 8, r8 := 0
      r9 := 0, rip := place 0 p, zf := false, sf := false, of := false, mem := bin }
  have hload : Loaded bin len 0 c.mem := ⟨fun x _ => by rw [Nat.zero_add], by omega⟩
  have heq := (h 0 c hload rfl).symm.trans (h' 0 c hload rfl)
  have hrip := congrArg (Option.map Cpu.rip) heq
  have hpush : c.push (place 0 (p + 5)) =
      some { c with rsp := c.rsp - 8, mem := c.mem.setWord (c.rsp - 8).toNat (place 0 (p + 5)) } :=
    if_pos (show fits ((8 : BitVec 64) - 8) 8 = true by decide)
  rw [hpush] at hrip
  have hplace : place 0 t = place 0 t' := Option.some.inj hrip
  have := congrArg BitVec.toNat hplace
  rwa [place_toNat (by omega), place_toNat (by omega), Nat.zero_add, Nat.zero_add] at this

end Eke
