/-
Code that runs beside a stack.

A `Setting` is the binary in memory and a stack that does not touch it.  `On` says where
the processor is: at a place of the binary, with a frame pointer and a stack pointer.  Each
instruction the generator emits has one lemma about where it leaves the processor and which
bytes it changes; everything below the stack's limit plus `room` counts as used up (`Low`).
-/
import Eke.Compiler.Machine
import Eke.Lib.Leads

namespace Eke

open Gen Store X86

/-- The store changed at most where `W` says. -/
def Changes (W : Nat → Prop) (m m' : Store) : Prop := ∀ x, ¬ W x → m' x = m x

section

variable {W W' : Nat → Prop} {m m' m'' : Store} {a : Nat}

theorem Changes.refl : Changes W m m := fun _ _ => rfl

theorem Changes.trans (h : Changes W m m') (h' : Changes W m' m'') : Changes W m m'' :=
  fun x hx => (h' x hx).trans (h x hx)

theorem Changes.mono (h : Changes W m m') (hW : ∀ x, W x → W' x) : Changes W' m m' :=
  fun x hx => h x fun hw => hx (hW x hw)

theorem Changes.word (h : Changes W m m') (ha : ∀ x, a ≤ x → x < a + 8 → ¬ W x) :
    m'.word a = m.word a := by
  unfold Store.word
  rw [le_congr fun x hx hx' => h x (ha x hx hx')]

theorem changes_setWord {v : BitVec 64} (ha : ∀ x, a ≤ x → x < a + 8 → W x) :
    Changes W m (m.setWord a v) := by
  intro x hx
  refine setWord_out ?_
  by_contra hin
  exact hx (ha x (by omega) (by omega))

theorem changes_setLe {k v : Nat} (ha : ∀ x, a ≤ x → x < a + k → W x) :
    Changes W m (m.setLe a k v) := by
  intro x hx
  refine setLe_out ?_
  by_contra hin
  exact hx (ha x (by omega) (by omega))

end

/-- A binary and a stack: `base` is where the binary is loaded, the stack lies between `lo` and
`hi`, and a program wants to keep `room` bytes of it. -/
structure Setting (bin : Store) (len : Nat) where
  base : Nat
  lo : Nat
  hi : Nat
  room : Nat
  small : len < 2 ^ 31
  apart : base + len ≤ lo ∨ hi ≤ base
  top : hi < 2 ^ 64
  margin : 16 ≤ room

variable {bin : Store} {len : Nat} {M : Setting bin len} {Y : Symbols} {p q t B S n : Nat} {c d : Cpu}
  {xs ys : List Item} {op : Op} {imm : Nat} {Q : Cpu → Prop}

/-- Less of the stack is left than the program needs. -/
def Setting.Low (M : Setting bin len) (c : Cpu) : Prop := c.rsp.toNat < M.lo + M.room

/-- The stack below an address. -/
def Setting.below (M : Setting bin len) (S x : Nat) : Prop := M.lo ≤ x ∧ x < S

/-- What a function changes: the stack below its frame pointer, and its parameters. -/
def Setting.frame (M : Setting bin len) (B argc x : Nat) : Prop :=
  M.lo ≤ x ∧ x < B ∨ B + 16 ≤ x ∧ x < B + 16 + 8 * argc

/-- The processor is at `p`, its frame pointer is `B` and its stack pointer is `S`. -/
structure On (M : Setting bin len) (p B S : Nat) (c : Cpu) : Prop where
  loaded : Loaded bin len M.base c.mem
  rip : c.rip = place M.base p
  rbp : c.rbp.toNat = B
  rsp : c.rsp.toNat = S

/-- Changes on the stack leave the binary alone. -/
theorem Setting.loaded {W : Nat → Prop} {m m' : Store} (h : Loaded bin len M.base m)
    (hm : Changes W m m') (hW : ∀ x, W x → M.lo ≤ x ∧ x < M.hi) : Loaded bin len M.base m' := by
  refine ⟨fun x hx => ?_, h.room⟩
  rw [hm _ fun hw => ?_, h.bytes x hx]
  have := hW _ hw
  have := M.apart
  omega

/-- The listing stands at `p`, inside the binary. -/
structure Code (bin : Store) (len : Nat) (Y : Symbols) (p : Nat) (xs : List Item) : Prop where
  here : Assembled bin Y p xs
  inside : p + size xs ≤ len

theorem Code.left (h : Code bin len Y p (xs ++ ys)) : Code bin len Y p xs := by
  have := h.inside
  rw [size_append] at this
  exact ⟨(assembled_append.mp h.here).1, by omega⟩

theorem Code.right (h : Code bin len Y p (xs ++ ys)) : Code bin len Y (p + size xs) ys := by
  have := h.inside
  rw [size_append] at this
  exact ⟨(assembled_append.mp h.here).2, by omega⟩

theorem Code.tail {i : Item} (h : Code bin len Y p (i :: xs)) : Code bin len Y (p + i.size) xs := by
  have := h.inside
  rw [size_cons] at this
  exact ⟨h.here.2, by omega⟩

theorem Code.at {xs : List Item} (h : Code bin len Y p (.ins ⟨op, imm⟩ :: xs)) :
    At bin p ⟨op, imm % 256 ^ op.width⟩ ∧ p + Instr.size ⟨op, imm % 256 ^ op.width⟩ ≤ len ∧
    Item.size (.ins ⟨op, imm⟩) = Instr.size ⟨op, imm % 256 ^ op.width⟩ := by
  have hsize : Item.size (.ins ⟨op, imm⟩) = Instr.size ⟨op, imm % 256 ^ op.width⟩ := by
    simp [Item.size, Instr.size, Instr.bytes]
  have hin := h.inside
  rw [size_cons] at hin
  exact ⟨at_of_bytes h.here.1, by omega, hsize⟩

/-- The next instruction of the listing. -/
theorem On.fetch (h : On M p B S c) (hc : Code bin len Y p (.ins ⟨op, imm⟩ :: xs)) :
    c.step = ({ c with rip := place M.base (p + (Instr.bytes ⟨op, imm⟩).length) } : Cpu).exec
      ⟨op, imm % 256 ^ op.width⟩ := by
  refine step_ins h.loaded h.rip hc.here.1 ?_
  have := hc.inside
  rw [size_cons] at this
  simp only [Item.size] at this
  omega

/-! ### Instructions that leave the stack alone -/

/-- The instructions that change `rax`, `rbx` and the flags only. -/
def quiet : Op → Bool
  | .movabs_rax | .add_rbx_rax | .sub_rbx_rax | .imul_rbx_rax | .cmp_rbx_rax | .xor_eax_eax => true
  | _ => false

theorem quiet_exec (imm : Nat) (hq : quiet op = true) (c : Cpu) : ∃ d, c.exec ⟨op, imm⟩ = some d ∧
    d.mem = c.mem ∧ d.rbp = c.rbp ∧ d.rsp = c.rsp ∧ d.rip = c.rip := by
  cases op with
  | movabs_rax => exact ⟨_, rfl, rfl, rfl, rfl, rfl⟩
  | add_rbx_rax => exact ⟨_, rfl, rfl, rfl, rfl, rfl⟩
  | sub_rbx_rax => exact ⟨_, rfl, rfl, rfl, rfl, rfl⟩
  | imul_rbx_rax => exact ⟨_, rfl, rfl, rfl, rfl, rfl⟩
  | cmp_rbx_rax => exact ⟨_, rfl, rfl, rfl, rfl, rfl⟩
  | xor_eax_eax => exact ⟨_, rfl, rfl, rfl, rfl, rfl⟩
  | _ => cases hq

theorem On.quiet (h : On M p B S c) (hc : Code bin len Y p (.ins ⟨op, imm⟩ :: xs))
    (hq : quiet op = true) :
    ∃ d, c.step = some d ∧ On M (p + Item.size (.ins ⟨op, imm⟩)) B S d ∧ d.mem = c.mem := by
  obtain ⟨d, hd, hmem, hrbp, hrsp, hrip⟩ := quiet_exec (imm % 256 ^ op.width) hq
    { c with rip := place M.base (p + (Instr.bytes ⟨op, imm⟩).length) }
  refine ⟨d, (h.fetch hc).trans hd, ⟨?_, hrip, ?_, ?_⟩, hmem⟩
  · rw [hmem]
    exact h.loaded
  · rw [hrbp]
    exact h.rbp
  · rw [hrsp]
    exact h.rsp

/-! ### Pushing and popping -/

theorem rsp_sub (h : c.rsp.toNat = S) (h8 : 8 ≤ S) : (c.rsp - 8).toNat = S - 8 := by
  rw [BitVec.toNat_sub_of_le (by rw [BitVec.le_def, h]; exact h8), h]
  rfl

theorem push_eq (h : c.rsp.toNat = S) (h8 : 8 ≤ S) (v : BitVec 64) :
    c.push v = some { c with rsp := c.rsp - 8, mem := c.mem.setWord (S - 8) v } := by
  have hlt := c.rsp.isLt
  unfold Cpu.push
  rw [rsp_sub h h8, if_pos]
  unfold fits
  rw [rsp_sub h h8]
  exact decide_eq_true (by omega)

theorem rsp_add (h : c.rsp.toNat = S) {k : Nat} (hk : S + k < 2 ^ 64) :
    (c.rsp + BitVec.ofNat 64 k).toNat = S + k := by
  rw [BitVec.toNat_add, BitVec.toNat_ofNat, h, Nat.mod_eq_of_lt (by omega : k < 2 ^ 64),
    Nat.mod_eq_of_lt hk]

theorem pop_eq (h : c.rsp.toNat = S) (h8 : S + 8 < 2 ^ 64) :
    c.pop = some (c.mem.word S, { c with rsp := c.rsp + 8 }) := by
  unfold Cpu.pop
  rw [h, if_pos]
  unfold fits
  rw [h]
  exact decide_eq_true (by omega)

/-- The word that was pushed stands below the old stack pointer. -/
theorem On.push (h : On M p B S c) (hc : Code bin len Y p (.op .push_rax :: xs)) (hS : S ≤ M.hi)
    (hlow : ¬ M.Low c) :
    ∃ d, c.step = some d ∧ On M (p + 1) B (S - 8) d ∧ Changes (M.below S) c.mem d.mem ∧
      d.mem.word (S - 8) = c.rax := by
  have hroom : M.lo + M.room ≤ S := by
    unfold Setting.Low at hlow
    rw [h.rsp] at hlow
    exact Nat.not_lt.mp hlow
  have hmargin := M.margin
  have hmem : Changes (M.below S) c.mem (c.mem.setWord (S - 8) c.rax) :=
    changes_setWord fun x hx hx' => ⟨by omega, by omega⟩
  refine ⟨{ c with
    rip := place M.base (p + 1), rsp := c.rsp - 8, mem := c.mem.setWord (S - 8) c.rax }, ?_,
    ⟨?_, rfl, h.rbp, rsp_sub h.rsp (by omega)⟩, hmem, word_setWord⟩
  · rw [h.fetch hc]
    exact push_eq (c := { c with rip := place M.base (p + 1) }) h.rsp (by omega) c.rax
  · exact Setting.loaded h.loaded hmem fun x hx => ⟨hx.1, Nat.lt_of_lt_of_le hx.2 hS⟩

theorem On.pop_rax (h : On M p B S c) (hc : Code bin len Y p (.op .pop_rax :: xs))
    (hS : S + 8 < 2 ^ 64) :
    ∃ d, c.step = some d ∧ On M (p + 1) B (S + 8) d ∧ d.mem = c.mem ∧ d.rax = c.mem.word S ∧
      d.rbx = c.rbx := by
  refine ⟨{ c with rip := place M.base (p + 1), rsp := c.rsp + 8, rax := c.mem.word S }, ?_,
    ⟨h.loaded, rfl, h.rbp, rsp_add h.rsp hS⟩, rfl, rfl, rfl⟩
  have hpop := pop_eq (c := { c with rip := place M.base (p + 1) }) h.rsp hS
  rw [h.fetch hc]
  show (Cpu.pop { c with rip := place M.base (p + 1) }).map _ = _
  rw [hpop]
  rfl

theorem On.pop_rbx (h : On M p B S c) (hc : Code bin len Y p (.op .pop_rbx :: xs))
    (hS : S + 8 < 2 ^ 64) :
    ∃ d, c.step = some d ∧ On M (p + 1) B (S + 8) d ∧ d.mem = c.mem ∧ d.rbx = c.mem.word S := by
  refine ⟨{ c with rip := place M.base (p + 1), rsp := c.rsp + 8, rbx := c.mem.word S }, ?_,
    ⟨h.loaded, rfl, h.rbp, rsp_add h.rsp hS⟩, rfl, rfl⟩
  have hpop := pop_eq (c := { c with rip := place M.base (p + 1) }) h.rsp hS
  rw [h.fetch hc]
  show (Cpu.pop { c with rip := place M.base (p + 1) }).map _ = _
  rw [hpop]
  rfl

/-! ### Variables -/

/-- A displacement added to an address. -/
theorem sext_add {v : BitVec 32} {z : Int} {b : BitVec 64} {a : Nat} (hz : v.toInt = z)
    (hb : b.toNat = B) (ha : (B : Int) + z = a) (hmax : a < 2 ^ 64) :
    (b + sext (v.toNat % 256 ^ 4)).toNat = a := by
  have hv : v.toNat % 256 ^ 4 = v.toNat := Nat.mod_eq_of_lt v.isLt
  have hbase : b = BitVec.ofInt 64 (B : Int) := by
    rw [BitVec.ofInt_natCast, ← hb, BitVec.ofNat_toNat, BitVec.setWidth_eq]
  unfold sext
  rw [hv, BitVec.ofNat_toNat, BitVec.setWidth_eq, BitVec.signExtend, hz, hbase, ← BitVec.ofInt_add, ha,
    BitVec.ofInt_natCast, BitVec.toNat_ofNat, Nat.mod_eq_of_lt hmax]

/-- An offset of a local variable. -/
def Local (lv : Nat) (offset : Int) : Prop := 0 ≤ offset ∧ offset % 4 = 0 ∧ offset < lv

/-- An offset of a parameter. -/
def Param (argc : Nat) (offset : Int) : Prop := ∃ i : Nat, i < argc ∧ offset = -12 - 4 * i

/-- The frame of a function with `lv` bytes of local variables and `argc` parameters lies on
the stack, above the stack pointer. -/
structure Framed (M : Setting bin len) (lv argc B S : Nat) : Prop where
  words : lv % 4 = 0
  ints : lv < 2 ^ 31
  params : argc ≤ 2 ^ 27
  low : M.lo + lv + 8 ≤ B
  high : B + 16 + 8 * argc ≤ M.hi
  sp : S ≤ B

variable {lv argc : Nat} {offset : Int}

theorem disp_local (hoff : Local lv offset) (hlv : lv % 4 = 0) (hmax : lv < 2 ^ 31) :
    (disp offset).toInt = -(offset + 8) := by
  obtain ⟨h0, h4, hlt⟩ := hoff
  unfold disp
  rw [if_neg (by omega), BitVec.toInt_ofInt]
  refine Int.bmod_eq_of_le ?_ ?_ <;> omega

theorem disp_param {i : Nat} (hmax : i < 2 ^ 27) :
    (disp (-12 - 4 * (i : Int))).toInt = 16 + 8 * i := by
  unfold disp
  have hdiv : (-12 - (-12 - 4 * (i : Int))).tdiv 4 = i := by
    rw [show -12 - (-12 - 4 * (i : Int)) = i * 4 by omega]
    exact Int.mul_tdiv_cancel _ (by decide)
  rw [if_pos (by omega), hdiv, BitVec.toInt_ofInt]
  refine (Int.bmod_eq_of_le ?_ ?_).trans ?_ <;> omega

/-- `emit_load_local` of a parameter loads its word. -/
theorem load_param {i : Nat} (hb : c.rbp.toNat = B) (hi : i < 2 ^ 27)
    (hmax : B + 16 + 8 * i + 8 ≤ 2 ^ 64) :
    c.exec ⟨.mov_rbp_rax, (disp (-12 - 4 * (i : Int))).toNat % 256 ^ 4⟩ =
      some { c with rax := c.mem.word (B + 16 + 8 * i) } := by
  have ha := sext_add (a := B + 16 + 8 * i) (disp_param hi) hb (by push_cast; omega) (by omega)
  unfold Cpu.exec
  simp only
  rw [ha, if_pos]
  unfold fits
  rw [ha]
  exact decide_eq_true hmax

/-- `emit_store_local` to a parameter stores to its word. -/
theorem store_param {i : Nat} (hb : c.rbp.toNat = B) (hi : i < 2 ^ 27)
    (hmax : B + 16 + 8 * i + 8 ≤ 2 ^ 64) :
    c.exec ⟨.mov_rax_rbp, (disp (-12 - 4 * (i : Int))).toNat % 256 ^ 4⟩ =
      some { c with mem := c.mem.setWord (B + 16 + 8 * i) c.rax } := by
  have ha := sext_add (a := B + 16 + 8 * i) (disp_param hi) hb (by push_cast; omega) (by omega)
  unfold Cpu.exec
  simp only
  rw [ha, if_pos]
  unfold fits
  rw [ha]
  exact decide_eq_true hmax

/-- Where a local variable stands. -/
theorem local_address (hb : c.rbp.toNat = B) (hoff : Local lv offset) (hlv : lv % 4 = 0)
    (hmax : lv < 2 ^ 31) (hlow : lv + 8 ≤ B) :
    (c.rbp + sext ((disp offset).toNat % 256 ^ 4)).toNat = B - (offset.toNat + 8) := by
  have hlt := c.rbp.isLt
  obtain ⟨h0, h4, h⟩ := hoff
  exact sext_add (disp_local ⟨h0, h4, h⟩ hlv hmax) hb (by omega) (by omega)

/-- Loading a variable changes `rax` only. -/
theorem load_exec (hb : c.rbp.toNat = B) (hf : Framed M lv argc B S)
    (hoff : Local lv offset ∨ Param argc offset) :
    ∃ v, c.exec ⟨if offset < 0 then .mov_rbp_rax else .mov_rbp_eax, (disp offset).toNat % 256 ^ 4⟩
      = some { c with rax := v } := by
  have hlt := c.rbp.isLt
  have htop := M.top
  have hlow := hf.low
  have hhigh := hf.high
  have hparams := hf.params
  rcases hoff with hoff | ⟨i, hi, rfl⟩
  · have ha := local_address hb hoff hf.words hf.ints (by omega)
    rw [if_neg (by have := hoff.1; omega)]
    refine ⟨_, if_pos ?_⟩
    unfold fits
    rw [ha]
    exact decide_eq_true (by omega)
  · rw [if_pos (by omega)]
    exact ⟨_, load_param hb (by omega) (by omega)⟩

/-- Storing to a variable changes the frame only. -/
theorem store_exec (hb : c.rbp.toNat = B) (hf : Framed M lv argc B S)
    (hoff : Local lv offset ∨ Param argc offset) :
    ∃ m, c.exec ⟨if offset < 0 then .mov_rax_rbp else .mov_eax_rbp, (disp offset).toNat % 256 ^ 4⟩
      = some { c with mem := m } ∧ Changes (M.frame B argc) c.mem m := by
  have hlt := c.rbp.isLt
  have htop := M.top
  have hlow := hf.low
  have hhigh := hf.high
  have hparams := hf.params
  rcases hoff with hoff | ⟨i, hi, rfl⟩
  · have ha := local_address hb hoff hf.words hf.ints (by omega)
    have hwords := hf.words
    obtain ⟨h0, h4, hoff⟩ := hoff
    rw [if_neg (by omega)]
    refine ⟨_, if_pos ?_, ?_⟩
    · unfold fits
      rw [ha]
      exact decide_eq_true (by omega)
    · rw [ha]
      exact changes_setLe fun x hx hx' => Or.inl ⟨by omega, by omega⟩
  · rw [if_pos (by omega)]
    exact ⟨_, store_param hb (by omega) (by omega),
      changes_setWord fun x hx hx' => Or.inr ⟨by omega, by omega⟩⟩

theorem Framed.top_le (hf : Framed M lv argc B S) : S + 16 ≤ M.hi := by
  have := hf.high
  have := hf.sp
  omega

/-- A variable is loaded and pushed. -/
theorem On.load (h : On M p B S c) (hc : Code bin len Y p (load_items offset ++ xs))
    (hf : Framed M lv argc B S) (hoff : Local lv offset ∨ Param argc offset) (hlow : ¬ M.Low c) :
    Leads Cpu.step n (fun d => On M (p + size (load_items offset)) B (S - 8) d ∧
      Changes (M.below S) c.mem d.mem) c := by
  have hw : (if offset < 0 then Op.mov_rbp_rax else .mov_rbp_eax).width = 4 := by split <;> rfl
  have hfetch := h.fetch hc
  rw [hw] at hfetch
  obtain ⟨v, hv⟩ := load_exec (c := { c with rip := place M.base (p + (Instr.bytes
    ⟨if offset < 0 then .mov_rbp_rax else .mov_rbp_eax, (disp offset).toNat⟩).length) }) h.rbp hf hoff
  have htop := hf.top_le
  obtain ⟨d, hd, hon, hch, -⟩ := On.push (M := M) (c := { c with rax := v, rip := _ })
    ⟨h.loaded, rfl, h.rbp, h.rsp⟩ hc.tail (by omega) hlow
  refine .ahead (hfetch.trans hv) (.ahead hd (.here ⟨?_, hch⟩))
  simpa [load_items, Item.size, Instr.bytes, Op.width, Op.opcode, Nat.add_assoc] using hon

/-- A value is popped and stored to a variable. -/
theorem On.store (h : On M p B S c) (hc : Code bin len Y p (store_items offset ++ xs))
    (hf : Framed M lv argc B (S + 8)) (hoff : Local lv offset ∨ Param argc offset) :
    Leads Cpu.step n (fun d => On M (p + size (store_items offset)) B (S + 8) d ∧
      Changes (M.frame B argc) c.mem d.mem) c := by
  have htop := M.top
  have hle := hf.top_le
  obtain ⟨d, hd, hon, hmem, -⟩ := h.pop_rax hc (by omega)
  have hw : (if offset < 0 then Op.mov_rax_rbp else .mov_eax_rbp).width = 4 := by split <;> rfl
  have hfetch := hon.fetch hc.tail
  rw [hw] at hfetch
  obtain ⟨m, hm, hch⟩ := store_exec (c := { d with rip := place M.base (p + 1 + (Instr.bytes
    ⟨if offset < 0 then .mov_rax_rbp else .mov_eax_rbp, (disp offset).toNat⟩).length) }) hon.rbp hf hoff
  refine .ahead hd (.ahead (hfetch.trans hm) (.here ⟨⟨?_, ?_, hon.rbp, hon.rsp⟩, ?_⟩))
  · refine Setting.loaded hon.loaded hch fun x hx => ?_
    have := hf.low
    have := hf.high
    unfold Setting.frame at hx
    omega
  · show place M.base (p + 1 + (Instr.bytes _).length) = _
    simp [store_items, Item.size, Instr.bytes, Op.opcode, Op.width, Nat.add_assoc]
  · rw [← hmem]
    exact hch

/-! ### Jumps -/

theorem On.jump {l : Nat} (h : On M p B S c) (hc : Code bin len Y p (.jump .jmp l :: xs))
    (hl : Y.label l ≤ len) :
    ∃ d, c.step = some d ∧ On M (Y.label l) B S d ∧ d.mem = c.mem := by
  have hin := hc.inside
  rw [size_cons] at hin
  exact ⟨_, step_jmp h.loaded h.rip hc.here.1 (by simp only [Item.size, Op.opcode] at hin; simp at hin; omega) M.small hl,
    ⟨h.loaded, rfl, h.rbp, h.rsp⟩, rfl⟩

theorem On.branch {k : Cond} {l : Nat} (h : On M p B S c)
    (hc : Code bin len Y p (.jump (.jcc k) l :: xs)) (hl : Y.label l ≤ len) :
    ∃ d, c.step = some d ∧ On M (if c.holds k then Y.label l else p + 6) B S d ∧ d.mem = c.mem := by
  have hin := hc.inside
  have hop : (Op.jcc k).opcode.length = 2 := by cases k <;> rfl
  rw [size_cons] at hin
  simp only [Item.size, hop] at hin
  refine ⟨_, step_jcc h.loaded h.rip hc.here.1 (by omega) M.small hl, ⟨h.loaded, ?_, h.rbp, h.rsp⟩, rfl⟩
  exact (apply_ite (place M.base) ..).symm

/-! ### Calling and returning -/

/-- The return address is pushed. -/
theorem On.call {f : Name} (h : On M p B S c) (hc : Code bin len Y p (.call f :: xs))
    (hf : Y.func f ≤ len) (hS : S ≤ M.hi) (hlow : ¬ M.Low c) :
    ∃ d, c.step = some d ∧ On M (Y.func f) B (S - 8) d ∧
      d.mem = c.mem.setWord (S - 8) (place M.base (p + 5)) := by
  have hroom : M.lo + M.room ≤ S := by
    unfold Setting.Low at hlow
    rw [h.rsp] at hlow
    exact Nat.not_lt.mp hlow
  have hmargin := M.margin
  have hin := hc.inside
  rw [size_cons] at hin
  simp only [Item.size] at hin
  have hstep := step_call h.loaded h.rip hc.here.1 (by omega) M.small hf
  rw [push_eq h.rsp (by omega)] at hstep
  refine ⟨_, hstep, ⟨?_, rfl, h.rbp, rsp_sub h.rsp (by omega)⟩, rfl⟩
  refine Setting.loaded (W := M.below S) h.loaded
    (changes_setWord fun x hx hx' => ⟨by omega, by omega⟩) fun x hx => ⟨hx.1, ?_⟩
  exact Nat.lt_of_lt_of_le hx.2 hS

/-- The frame of a function in the arithmetic of the generator. -/
theorem frame_bound {v : BitVec 32} (hv : v = BitVec.ofInt 32 (lv : Int) + 32)
    (hpos : BitVec.slt 0 (frameBytes v) = true) :
    (frameBytes v).toInt = (frameBytes v).toNat ∧ (frameBytes v).toNat ≤ lv + 47 := by
  have hle : (frameBytes v).toNat ≤ (v + 15).toNat := by
    unfold frameBytes
    rw [BitVec.toNat_and]
    exact Nat.and_le_left
  have hsum : (v + 15).toNat ≤ lv + 47 := by
    rw [hv, BitVec.ofInt_natCast, BitVec.toNat_add, BitVec.toNat_add, BitVec.toNat_ofNat]
    have h32 : (32 : BitVec 32).toNat = 32 := rfl
    have h15 : (15 : BitVec 32).toNat = 15 := rfl
    rw [h32, h15]
    omega
  refine ⟨?_, by omega⟩
  rw [BitVec.slt_iff_toInt_lt] at hpos
  have hzero : (0 : BitVec 32).toInt = 0 := rfl
  rw [hzero] at hpos
  rw [BitVec.toInt_eq_toNat_cond] at hpos ⊢
  split
  · rfl
  · rename_i hbig
    rw [if_neg hbig] at hpos
    have := (frameBytes v).isLt
    omega

/-- The frame of a function has room for its local variables. -/
theorem frame_reserves {v : BitVec 32} (hv : v = BitVec.ofInt 32 (lv : Int) + 32) (hlv : lv + 47 < 2 ^ 31) :
    lv + 32 ≤ (frameBytes v).toNat ∧ BitVec.slt 0 (frameBytes v) = true := by
  have hmask : ~~~(15 : BitVec 32) = BitVec.allOnes 32 <<< 4 := by decide
  have hsum : (v + 15).toNat = lv + 47 := by
    have h32 : (32 : BitVec 32).toNat = 32 := rfl
    have h15 : (15 : BitVec 32).toNat = 15 := rfl
    rw [hv, BitVec.ofInt_natCast, BitVec.toNat_add, BitVec.toNat_add, BitVec.toNat_ofNat, h32, h15]
    omega
  have hframe : (frameBytes v).toNat = (lv + 47) / 16 * 16 := by
    unfold frameBytes
    rw [hmask, toNat_clear, hsum]
    rfl
  refine ⟨by omega, ?_⟩
  rw [BitVec.slt_iff_toInt_lt, BitVec.toInt_eq_toNat_of_lt (by omega : 2 * (frameBytes v).toNat < 2 ^ 32)]
  show (0 : Int) < _
  omega

/-- A function's frame is set up. -/
theorem On.prologue {v : BitVec 32} (h : On M p B S c) (hc : Code bin len Y p (prologue_items v ++ xs))
    (hv : v = BitVec.ofInt 32 (lv : Int) + 32) (hS : S ≤ M.hi) (hroom : M.lo + lv + 56 ≤ S) :
    Leads Cpu.step n (fun d => ∃ S', S' ≤ S - 8 ∧ On M (p + size (prologue_items v)) (S - 8) S' d ∧
      d.mem = c.mem.setWord (S - 8) c.rbp ∧ (lv + 47 < 2 ^ 31 → S' + lv + 8 ≤ S - 8)) c := by
  have hlt := c.rsp.isLt
  rw [h.rsp] at hlt
  unfold prologue_items at hc ⊢
  rw [List.append_assoc] at hc
  have hmem : Changes (M.below S) c.mem (c.mem.setWord (S - 8) c.rbp) :=
    changes_setWord fun x hx hx' => ⟨by omega, by omega⟩
  have hload := Setting.loaded h.loaded hmem fun x hx => ⟨hx.1, Nat.lt_of_lt_of_le hx.2 hS⟩
  -- push rbp, then mov rbp, rsp
  have h1 := (h.fetch hc).trans
    (push_eq (c := { c with rip := place M.base (p + 1) }) h.rsp (by omega) c.rbp)
  let c1 : Cpu := { c with rip := place M.base (p + 1), rsp := c.rsp - 8, mem := c.mem.setWord (S - 8) c.rbp }
  have hon1 : On M (p + 1) B (S - 8) c1 := ⟨hload, rfl, h.rbp, rsp_sub h.rsp (by omega)⟩
  have h2 : c1.step = some { c1 with rip := place M.base (p + 4), rbp := c1.rsp } :=
    hon1.fetch (Code.tail hc)
  have hon2 : On M (p + 4) (S - 8) (S - 8) { c1 with rip := place M.base (p + 4), rbp := c1.rsp } :=
    ⟨hload, rfl, hon1.rsp, hon1.rsp⟩
  refine .ahead h1 (.ahead h2 ?_)
  have hrest : Code bin len Y (p + 4) ((if BitVec.slt 0 (frameBytes v) then
      [.ins ⟨.sub_rsp, (frameBytes v).toNat⟩] else []) ++ xs) := Code.tail (Code.tail hc)
  by_cases hpos : BitVec.slt 0 (frameBytes v) = true
  · rw [if_pos hpos] at hrest ⊢
    obtain ⟨hint, hle⟩ := frame_bound hv hpos
    have hfetch := hon2.fetch hrest
    refine .ahead hfetch (.here ⟨S - 8 - (frameBytes v).toNat, by omega, ⟨hload, ?_, hon1.rsp, ?_⟩, rfl,
      fun hlv => ?_⟩)
    · show place M.base (p + 4 + (Instr.bytes _).length) = _
      simp [Item.size, Instr.bytes, Op.opcode, Op.width, Nat.add_assoc]
    · have hs : sext ((frameBytes v).toNat % 256 ^ 4) = BitVec.ofNat 64 (frameBytes v).toNat := by
        have hmod : (frameBytes v).toNat % 256 ^ 4 = (frameBytes v).toNat :=
          Nat.mod_eq_of_lt (frameBytes v).isLt
        unfold sext
        rw [hmod, BitVec.ofNat_toNat, BitVec.setWidth_eq,
          BitVec.signExtend, hint, BitVec.ofInt_natCast]
      show (c1.rsp - sext ((frameBytes v).toNat % 256 ^ 4)).toNat = _
      have hnat : (BitVec.ofNat 64 (frameBytes v).toNat).toNat = (frameBytes v).toNat := by
        rw [BitVec.toNat_ofNat, Nat.mod_eq_of_lt (by omega)]
      rw [hs, BitVec.toNat_sub_of_le, hon1.rsp, hnat]
      rw [BitVec.le_def, hnat, hon1.rsp]
      omega
    · have := (frame_reserves hv hlv).1
      omega
  · rw [if_neg hpos]
    refine .here ⟨S - 8, Nat.le_refl _, ?_, rfl, fun hlv => absurd (frame_reserves hv hlv).2 hpos⟩
    simpa [Item.size, Instr.bytes, Op.opcode, Op.width] using hon2

/-- The processor left a function with frame pointer `B` that was entered with memory `m`. -/
structure Left (M : Setting bin len) (B argc : Nat) (m : Store) (c : Cpu) : Prop where
  rip : c.rip = m.word (B + 8)
  rbp : c.rbp = m.word B
  rsp : c.rsp.toNat = B + 16
  mem : Changes (M.frame B argc) m c.mem

theorem On.epilogue (argc : Nat) (h : On M p B S c) (hc : Code bin len Y p (epilogue_items ++ xs))
    (hB : B + 16 < 2 ^ 64) : Leads Cpu.step n (Left M B argc c.mem) c := by
  have hleave : c.step = some { c with
      rip := place M.base (p + 1), rsp := c.rbp + 8, rbp := c.mem.word B } := by
    have hpop := pop_eq (c := { c with rip := place M.base (p + 1), rsp := c.rbp }) h.rbp (by omega)
    rw [h.fetch hc]
    show (Cpu.pop { c with rip := place M.base (p + 1), rsp := c.rbp }).map _ = _
    rw [hpop]
    rfl
  have hrsp : (c.rbp + 8).toNat = B + 8 := rsp_add (k := 8) (c := { c with rsp := c.rbp }) h.rbp (by omega)
  have hon : On M (p + 1) (c.mem.word B).toNat (B + 8)
      { c with rip := place M.base (p + 1), rsp := c.rbp + 8, rbp := c.mem.word B } :=
    ⟨h.loaded, rfl, rfl, hrsp⟩
  have hpop := pop_eq (S := B + 8) (c := { c with
    rip := place M.base (p + 2), rsp := c.rbp + 8, rbp := c.mem.word B }) hrsp (by omega)
  have hret := hon.fetch (Code.tail hc)
  refine .ahead hleave (.ahead (hret.trans (congrArg (Option.map _) hpop)) (.here ⟨rfl, rfl, ?_, .refl⟩))
  exact rsp_add (k := 8) (c := { c with rsp := c.rbp + 8 }) hrsp (by omega)

/-- The arguments of a call are dropped. -/
theorem On.drop {k : Nat} (h : On M p B S c)
    (hc : Code bin len Y p (.ins ⟨.add_rsp, (BitVec.ofNat 32 (k * 8)).toNat⟩ :: xs)) (hk : k ≤ 32)
    (hS : S + k * 8 < 2 ^ 64) :
    ∃ d, c.step = some d ∧ On M (p + 7) B (S + k * 8) d ∧ d.mem = c.mem ∧ d.rax = c.rax := by
  refine ⟨_, h.fetch hc, ⟨h.loaded, rfl, h.rbp, ?_⟩, rfl, rfl⟩
  refine sext_add (z := (k * 8 : Nat)) ?_ h.rsp (by omega) hS
  rw [BitVec.toInt_ofNat']
  refine Int.bmod_eq_of_le ?_ ?_ <;> omega

end Eke
