/-
The balance of the stack.

A path through code is a sequence of steps of which the processor can do each with some contents of
its registers and its memory, so that every conditional jump can go both ways; a call is one step,
as what is called returns with the stack pointer it was called with.  `Leaves` says how many words
the ways through a tree leave on the stack, and `node_moves` that these are the paths through its
code: the code of a statement leaves the stack as it was if and only if every way through the
statement does.
-/
import Eke.Compiler.Image
import Eke.Lib.Paths

namespace Eke

open Gen Store X86 Paths

variable {bin : Store} {len : Nat} {Y : Symbols} {p q n : Nat} {u w : Int} {op : Op} {imm : Nat}
  {xs ys : List Item} {R T F : Int → Prop}

/-! ### Steps and what they leave -/

/-- The instructions that leave the function or go to another one. -/
def X86.Op.outward : Op → Bool
  | .call | .call_rbx | .leave | .ret => true
  | _ => false

/-- A step from `p` to `q` that leaves `u` more words on the stack. -/
inductive Edge (bin : Store) (len : Nat) : Nat → Nat → Int → Prop
  | step {base p q : Nat} {u : Int} {c d : Cpu} {i : Instr} : Loaded bin len base c.mem →
      c.rip = place base p → At bin p i → i.op.outward = false → c.step = some d → d.rip = place base q →
      q ≤ len → (c.rsp - d.rsp).toInt = 8 * u → Edge bin len p q u
  | call {p : Nat} {i : Instr} : At bin p i → i.op = .call ∨ i.op = .call_rbx →
      Edge bin len p (p + i.size) 0

/-- The words an instruction leaves on the stack, apart from those that adjust `rsp`. -/
def X86.Op.words : Op → Int
  | .push_rax | .push_rbx | .push_rbp => 1
  | .pop_rax | .pop_rbx | .pop_rcx | .pop_rdx | .pop_rsi | .pop_rdi | .pop_r8 | .pop_r9 => -1
  | _ => 0

/-- The instructions of expressions and assignments that go on behind themselves. -/
def X86.Op.plain : Op → Bool
  | .push_rax | .pop_rax | .pop_rbx | .pop_rcx | .pop_rdx | .pop_rsi | .pop_rdi | .pop_r8 | .pop_r9
  | .movabs_rax | .movabs_rbx | .add_rbx_rax | .sub_rbx_rax | .imul_rbx_rax | .cqo | .idiv_rbx
  | .cmp_rbx_rax | .test_rax_rax | .xor_eax_eax | .xor_rdi_rdi | .mov_rbp_rax | .mov_rbp_eax
  | .mov_rax_rbp | .mov_eax_rbp | .mov_at_rbx_rax | .mov_rax_at_rbx | .lea_rip_rax => true
  | _ => false

theorem sub_up (a b : BitVec 64) : a - (a + b) = -b := by grind

theorem sub_down (a b : BitVec 64) : a - (a - b) = b := by grind

theorem words_zero {a : BitVec 64} (h : (a - a).toInt = 8 * u) : u = 0 := by
  rw [BitVec.sub_self, BitVec.toInt_zero] at h
  omega

theorem pop_words {c d : Cpu} {v : BitVec 64} (h : c.pop = some (v, d)) :
    d.rip = c.rip ∧ c.rsp - d.rsp = -8 := by
  rw [(Cpu.pop_some h).2]
  exact ⟨rfl, sub_up c.rsp 8⟩

/-- What a plain instruction does to `rip` and `rsp`. -/
theorem plain_exec {c d : Cpu} (hop : op.plain = true) (h : c.exec ⟨op, imm⟩ = some d) :
    d.rip = c.rip ∧ (c.rsp - d.rsp).toInt = 8 * op.words := by
  have hzero : (c.rsp - c.rsp).toInt = 8 * 0 := by
    rw [BitVec.sub_self]
    rfl
  have hpop : ∀ {f : BitVec 64 × Cpu → Cpu}, c.pop.map f = some d → (∀ v e, (f (v, e)).rip = e.rip) →
      (∀ v e, (f (v, e)).rsp = e.rsp) → d.rip = c.rip ∧ (c.rsp - d.rsp).toInt = 8 * -1 := by
    intro f hf hrip hrsp
    obtain ⟨⟨v, e⟩, he, rfl⟩ := Option.map_eq_some_iff.mp hf
    obtain ⟨h1, h2⟩ := pop_words he
    rw [hrip, hrsp, h1, h2]
    exact ⟨rfl, rfl⟩
  have hite : ∀ {b : Bool} {e : Cpu}, (if b then some e else none) = some d → e.rip = c.rip →
      e.rsp = c.rsp → d.rip = c.rip ∧ (c.rsp - d.rsp).toInt = 8 * 0 := by
    intro b e hb hrip hrsp
    split at hb
    · cases hb
      rw [hrip, hrsp]
      exact ⟨rfl, hzero⟩
    · cases hb
  cases op with
  | push_rax =>
      rw [Cpu.push_some h]
      refine ⟨rfl, ?_⟩
      show (c.rsp - (c.rsp - 8)).toInt = 8
      rw [sub_down]
      rfl
  | pop_rax | pop_rbx | pop_rcx | pop_rdx | pop_rsi | pop_rdi | pop_r8 | pop_r9 =>
      exact hpop h (fun _ _ => rfl) fun _ _ => rfl
  | mov_rbp_rax | mov_rbp_eax | mov_rax_rbp | mov_eax_rbp | mov_at_rbx_rax | mov_rax_at_rbx =>
      exact hite h rfl rfl
  | idiv_rbx =>
      unfold Cpu.exec Cpu.idiv at h
      simp only at h
      split at h
      · cases h
      split at h
      · cases h
      · cases h
        exact ⟨rfl, hzero⟩
  | movabs_rax | movabs_rbx | add_rbx_rax | sub_rbx_rax | imul_rbx_rax | cqo | cmp_rbx_rax | test_rax_rax
  | xor_eax_eax | xor_rdi_rdi | lea_rip_rax =>
      cases h
      exact ⟨rfl, hzero⟩
  | _ => cases hop

/-- A processor in front of `p` that can do what is there. -/
def ready (bin : Store) (p imm : Nat) : Cpu :=
  { rax := 0, rbx := 1, rcx := 0, rdx := 0, rsi := 0, rdi := 0, rbp := -sext imm, rsp := 65536, r8 := 0
    r9 := 0, rip := place 0 p, zf := false, sf := false, of := false, mem := bin }

theorem ready_exec (hop : op.plain = true) (bin : Store) (p imm : Nat) (a : BitVec 64) :
    ∃ d, ({ ready bin p imm with rip := a } : Cpu).exec ⟨op, imm⟩ = some d := by
  have hfits : ∀ n, n ≤ 8 → fits (-sext imm + sext imm) n = true := by
    intro n hn
    have hzero : -sext imm + sext imm = 0 := BitVec.add_left_neg _
    rw [hzero]
    exact decide_eq_true (by show 0 + n ≤ 2 ^ 64; omega)
  have hdiv : ∀ c : Cpu, c.rax = 0 → c.rdx = 0 → c.rbx = 1 → ∃ d, c.idiv = some d := by
    intro c ha hd hb
    have hone : (1 : BitVec 64).toInt = 1 := rfl
    have hzero : (0 : BitVec 64).toInt * 2 ^ 64 + (0 : BitVec 64).toNat = 0 := rfl
    unfold Cpu.idiv
    rw [ha, hd, hb, hone, hzero]
    exact ⟨_, rfl⟩
  cases op with
  | mov_rbp_rax => exact ⟨_, if_pos (hfits 8 (by omega))⟩
  | mov_rbp_eax => exact ⟨_, if_pos (hfits 4 (by omega))⟩
  | mov_rax_rbp => exact ⟨_, if_pos (hfits 8 (by omega))⟩
  | mov_eax_rbp => exact ⟨_, if_pos (hfits 4 (by omega))⟩
  | push_rax => exact ⟨_, if_pos (by decide : fits ((65536 : BitVec 64) - 8) 8 = true)⟩
  | idiv_rbx => exact hdiv { ready bin p imm with rip := a } rfl rfl rfl
  | movabs_rax | movabs_rbx | add_rbx_rax | sub_rbx_rax | imul_rbx_rax | cqo | cmp_rbx_rax | test_rax_rax
  | xor_eax_eax | xor_rdi_rdi | lea_rip_rax | pop_rax | pop_rbx | pop_rcx | pop_rdx | pop_rsi | pop_rdi
  | pop_r8 | pop_r9 | mov_at_rbx_rax | mov_rax_at_rbx => exact ⟨_, rfl⟩
  | _ => cases hop

/-! ### The edges of the instructions -/

section

variable {i : Instr} (hi : At bin p i) (hlen : p + i.size ≤ len)
include hi hlen

/-- What an instruction that stays in the function does when it is executed. -/
theorem edge_exec (hout : i.op.outward = false) : Edge bin len p q u ↔ ∃ (base : Nat) (c d : Cpu),
    Loaded bin len base c.mem ∧ c.rip = place base p ∧
    ({ c with rip := place base (p + i.size) } : Cpu).exec i = some d ∧ d.rip = place base q ∧ q ≤ len ∧
    (c.rsp - d.rsp).toInt = 8 * u := by
  constructor
  · intro h
    cases h with
    | @step base _ _ _ c d j hload hrip hj _ hstep hq hle hu =>
        obtain rfl := hj.unique hi
        rw [hload.step hrip hi hlen] at hstep
        exact ⟨base, c, d, hload, hrip, hstep, hq, hle, hu⟩
    | call hj hop =>
        obtain rfl := hj.unique hi
        rcases hop with hop | hop <;> rw [hop] at hout <;> cases hout
  · rintro ⟨base, c, d, hload, hrip, hexec, hq, hle, hu⟩
    exact .step hload hrip hi hout ((hload.step hrip hi hlen).trans hexec) hq hle hu

theorem edge_plain (hmax : len < 2 ^ 31) (hop : i.op.plain = true) :
    Edge bin len p q u ↔ q = p + i.size ∧ u = i.op.words := by
  have hout : i.op.outward = false := by
    revert hop
    cases i.op <;> first | exact fun _ => rfl | exact fun h => nomatch h
  rw [edge_exec hi hlen hout]
  constructor
  · rintro ⟨base, c, d, hload, hrip, hexec, hq, hle, hu⟩
    obtain ⟨hrip', hrsp⟩ := plain_exec hop hexec
    refine ⟨hload.place_inj hle hlen (hq.symm.trans hrip'), ?_⟩
    have hrsp : (c.rsp - d.rsp).toInt = 8 * i.op.words := hrsp
    omega
  · rintro ⟨rfl, rfl⟩
    obtain ⟨d, hd⟩ := ready_exec hop bin p i.imm (place 0 (p + i.size))
    obtain ⟨hrip', hrsp⟩ := plain_exec hop hd
    exact ⟨0, ready bin p i.imm, d, loaded_self hmax, rfl, hd, hrip', hlen, hrsp⟩

theorem edge_stuck (hop : i.op = .leave) : ¬ Edge bin len p q u := by
  intro h
  cases h with
  | step _ _ hj hout =>
      obtain rfl := hj.unique hi
      rw [hop] at hout
      cases hout
  | call hj hcall =>
      obtain rfl := hj.unique hi
      rw [hop] at hcall
      rcases hcall with hcall | hcall <;> cases hcall

theorem edge_call (hop : i.op = .call ∨ i.op = .call_rbx) :
    Edge bin len p q u ↔ q = p + i.size ∧ u = 0 := by
  constructor
  · intro h
    cases h with
    | step _ _ hj hout =>
        obtain rfl := hj.unique hi
        rcases hop with hop | hop <;> rw [hop] at hout <;> cases hout
    | call hj =>
        obtain rfl := hj.unique hi
        exact ⟨rfl, rfl⟩
  · rintro ⟨rfl, rfl⟩
    exact .call hi hop

end

/-- The clean-up behind a call: `n` words are taken from the stack. -/
theorem edge_add_rsp {n : Nat} (hi : At bin p ⟨.add_rsp, n * 8⟩) (hlen : p + 7 ≤ len) (hmax : len < 2 ^ 31)
    (hn : n ≤ 32) : Edge bin len p q u ↔ q = p + 7 ∧ u = -n := by
  have hwords : ∀ a : BitVec 64, (a - (a + sext (n * 8))).toInt = 8 * -n := by
    intro a
    rw [sub_up]
    have hall : ∀ m ≤ 32, (-sext (m * 8)).toInt = 8 * -(m : Int) := by decide
    exact hall n hn
  rw [edge_exec hi hlen rfl]
  constructor
  · rintro ⟨base, c, d, hload, hrip, hexec, hq, hle, hu⟩
    cases hexec
    refine ⟨hload.place_inj hle hlen hq.symm, ?_⟩
    have hrsp := hwords c.rsp
    have hu : (c.rsp - (c.rsp + sext (n * 8))).toInt = 8 * u := hu
    omega
  · rintro ⟨rfl, rfl⟩
    exact ⟨0, ready bin p 0, _, loaded_self hmax, rfl, rfl, rfl, hlen, hwords _⟩

theorem edge_jmp {t : Nat} (h : RelAt bin p .jmp t) (hlen : p + 5 ≤ len) (hmax : len < 2 ^ 31)
    (ht : t ≤ len) : Edge bin len p q u ↔ q = t ∧ u = 0 := by
  have hrel : ∀ base, place base (p + 5) + sext (rel32 t (p + 1)).toNat = place base t :=
    fun base => sext_rel32 (by omega) (by omega)
  rw [edge_exec (h.at rfl) hlen rfl]
  constructor
  · rintro ⟨base, c, d, hload, hrip, hexec, hq, hle, hu⟩
    cases hexec
    exact ⟨hload.place_inj hle ht (hq.symm.trans (hrel base)), words_zero hu⟩
  · rintro ⟨rfl, rfl⟩
    refine ⟨0, ready bin p 0, _, loaded_self hmax, rfl, rfl, hrel 0, ht, ?_⟩
    exact congrArg BitVec.toInt (BitVec.sub_self (65536 : BitVec 64))

theorem jcc_taken {c : Cpu} {k : Cond} (h : c.holds k = true) :
    c.exec ⟨.jcc k, imm⟩ = some { c with rip := c.rip + sext imm } :=
  congrArg some (if_pos h)

theorem jcc_missed {c : Cpu} {k : Cond} (h : c.holds k = false) : c.exec ⟨.jcc k, imm⟩ = some c :=
  congrArg some (if_neg (by rw [h]; exact Bool.false_ne_true))

/-- A processor in front of `p` whose flags are such that a condition holds, or does not. -/
theorem ready_holds (bin : Store) (p : Nat) (k : Cond) (b : Bool) (a : BitVec 64) : ∃ c : Cpu, c.mem = bin ∧
    c.rip = place 0 p ∧ ({ c with rip := a } : Cpu).holds k = b := by
  have hflags : ∃ z s o : Bool,
      ({ ready (fun _ => 0) 0 0 with zf := z, sf := s, of := o } : Cpu).holds k = b := by
    cases k <;> cases b <;> decide
  obtain ⟨z, s, o, h⟩ := hflags
  refine ⟨{ ready bin p 0 with zf := z, sf := s, of := o }, rfl, rfl, h ▸ ?_⟩
  cases k <;> rfl

theorem edge_jcc {k : Cond} {t : Nat} (h : RelAt bin p (.jcc k) t) (hlen : p + 6 ≤ len)
    (hmax : len < 2 ^ 31) (ht : t ≤ len) : Edge bin len p q u ↔ (q = p + 6 ∨ q = t) ∧ u = 0 := by
  have hop : (Op.jcc k).opcode.length = 2 := by cases k <;> rfl
  have hsize : Instr.size ⟨.jcc k, (rel32 t (p + (Op.jcc k).opcode.length)).toNat⟩ = 6 := by
    unfold Instr.size
    rw [hop]
    rfl
  have hrel : ∀ base,
      place base (p + 6) + sext (rel32 t (p + (Op.jcc k).opcode.length)).toNat = place base t := by
    intro base
    rw [hop]
    exact sext_rel32 (by omega) (by omega)
  rw [edge_exec (h.at rfl) (by rw [hsize]; exact hlen) rfl, hsize]
  constructor
  · rintro ⟨base, c, d, hload, hrip, hexec, hq, hle, hu⟩
    cases hk : ({ c with rip := place base (p + 6) } : Cpu).holds k with
    | true =>
        rw [jcc_taken hk] at hexec
        cases hexec
        exact ⟨.inr (hload.place_inj hle ht (hq.symm.trans (hrel base))), words_zero hu⟩
    | false =>
        rw [jcc_missed hk] at hexec
        cases hexec
        exact ⟨.inl (hload.place_inj hle hlen hq.symm), words_zero hu⟩
  · rintro ⟨hq, rfl⟩
    have hload : ∀ c : Cpu, c.mem = bin → Loaded bin len 0 c.mem :=
      fun c hc => hc ▸ loaded_self hmax
    have hsame : ∀ a : BitVec 64, (a - a).toInt = 8 * 0 :=
      fun a => congrArg BitVec.toInt (BitVec.sub_self a)
    rcases hq with rfl | rfl
    · obtain ⟨c, hmem, hrip, hk⟩ := ready_holds bin p k false (place 0 (p + 6))
      exact ⟨0, c, _, hload c hmem, hrip, jcc_missed hk, rfl, hlen, hsame _⟩
    · obtain ⟨c, hmem, hrip, hk⟩ := ready_holds bin p k true (place 0 (p + 6))
      exact ⟨0, c, _, hload c hmem, hrip, jcc_taken hk, hrel 0, ht, hsame _⟩

/-! ### The paths through a listing -/

/-- The code of a listing is left at its end, and `R` are the words it may leave. -/
def Moves (bin : Store) (len : Nat) (Y : Symbols) (xs : List Item) (R : Int → Prop) : Prop :=
  ∀ p, Code bin len Y p xs → Passes (Edge bin len) p (p + size xs) (p + size xs) R

/-- The code of a condition is left at its end or at a label outside. -/
def Forks (bin : Store) (len : Nat) (Y : Symbols) (xs : List Item) (l : Nat) (R F : Int → Prop) : Prop :=
  ∀ p, Code bin len Y p xs → Y.label l ≤ len → ¬ (p ≤ Y.label l ∧ Y.label l < p + size xs) →
    Branches (Edge bin len) p (p + size xs) (Y.label l) R F

/-- An item that is neither a jump nor an instruction that moves `rsp` by its immediate. -/
def Item.straight : Item → Bool
  | .ins i => i.op.plain || i.op == .call_rbx
  | .jump _ _ => false
  | .test _ _ => false
  | _ => true

def Item.words : Item → Int
  | .ins i => i.op.words
  | _ => 0

def words (xs : List Item) : Int := (xs.map Item.words).sum

/-- Code with one way through it, which leaves `u` words. -/
def Straight (xs : List Item) (u : Int) : Prop := xs.all Item.straight = true ∧ words xs = u

theorem not_at_end (a b : Nat) : ¬ (a ≤ b ∧ b < b) := fun h => Nat.lt_irrefl b h.2

theorem plus_only {v : Int} : Plus (Only u) (Only v) w ↔ Only (u + v) w := by
  constructor
  · rintro ⟨x, y, rfl, rfl, rfl⟩
    rfl
  · exact fun h => ⟨u, v, rfl, rfl, h⟩

theorem plus_plus_only {v : Int} : Plus (Plus R (Only u)) (Only v) w ↔ Plus R (Only (u + v)) w := by
  rw [plus_assoc]
  constructor
  · rintro ⟨x, y, hx, hy, rfl⟩
    exact ⟨x, y, hx, plus_only.mp hy, rfl⟩
  · rintro ⟨x, y, hx, hy, rfl⟩
    exact ⟨x, y, hx, plus_only.mpr hy, rfl⟩

theorem plus_never : Plus R Never w ↔ Never w :=
  ⟨fun ⟨_, _, _, h, _⟩ => h, fun h => h.elim⟩

theorem Moves.congr (h : Moves bin len Y xs R) (hR : ∀ w, R w ↔ T w) : Moves bin len Y xs T :=
  fun p hc => (h p hc).congr hR

theorem moves_nil : Moves bin len Y [] (Only 0) := fun p _ => passes_nil p

theorem Moves.append (hx : Moves bin len Y xs R) (hy : Moves bin len Y ys T) :
    Moves bin len Y (xs ++ ys) (Plus R T) := by
  intro p hc
  have hy := hy _ hc.right
  rw [size_append, ← Nat.add_assoc]
  exact (hx p hc.left).append hy (Nat.le_add_right _ _) (Nat.le_add_right _ _) (not_at_end _ _)

theorem Moves.skip {i : Item} (h : Moves bin len Y xs R) (hi : i.size = 0) :
    Moves bin len Y (i :: xs) R := by
  intro p hc
  have hc := hc.tail
  rw [hi] at hc
  rw [size_cons, hi, Nat.zero_add]
  exact h p hc

/-- An instruction with one way on. -/
theorem moves_edge {i : Item} (hpos : 0 < i.size)
    (h : ∀ p, Code bin len Y p [i] → ∀ q v, Edge bin len p q v ↔ q = p + i.size ∧ v = u) :
    Moves bin len Y [i] (Only u) := by
  intro p hc
  rw [size_cons, size_nil, Nat.add_zero]
  exact passes_edge (by omega) (not_at_end _ _) (h p hc)

theorem Instr.size_pos (i : Instr) : 0 < i.size := by
  unfold Instr.size
  cases i.op with
  | jcc k => cases k <;> exact Nat.zero_lt_succ _
  | _ => exact Nat.zero_lt_succ _

section

variable (hmax : len < 2 ^ 31)
include hmax

theorem item_moves {i : Item} (hi : i.straight = true) : Moves bin len Y [i] (Only i.words) := by
  have hskip : ∀ {j : Item}, j.size = 0 → Moves bin len Y [j] (Only 0) := fun hj => moves_nil.skip hj
  cases i with
  | ins i =>
      obtain ⟨op, imm⟩ := i
      have hpos : 0 < Item.size (.ins ⟨op, imm⟩) := by
        have h := Instr.size_pos ⟨op, imm⟩
        simpa [Item.size, Instr.size, Instr.bytes] using h
      refine moves_edge hpos fun p hc q v => ?_
      obtain ⟨hat, hlen, hsize⟩ := hc.at
      rw [hsize]
      rcases Bool.or_eq_true_iff.mp hi with hop | hop
      · exact edge_plain hat hlen hmax hop
      · obtain rfl : op = .call_rbx := eq_of_beq hop
        exact edge_call hat hlen (.inr rfl)
  | call f =>
      refine moves_edge (by decide : 0 < 5) fun p hc q v => ?_
      have hin := hc.inside
      exact edge_call (RelAt.at hc.here.1 rfl) hin (.inl rfl)
  | lea s =>
      refine moves_edge (by decide : 0 < 7) fun p hc q v => ?_
      have hin := hc.inside
      obtain ⟨t, hat, -⟩ := hc.here.1
      exact edge_plain (hat.at rfl) hin hmax rfl
  | jump op l => cases hi
  | test op l => cases hi
  | func f => exact hskip rfl
  | alloc => exact hskip rfl
  | mark l => exact hskip rfl
  | visit => exact hskip rfl
  | drop => exact hskip rfl
  | skip => exact hskip rfl
  | cut => exact hskip rfl

theorem Straight.moves : ∀ {xs : List Item} {u : Int}, Straight xs u → Moves bin len Y xs (Only u) := by
  intro xs
  induction xs with
  | nil =>
      rintro u ⟨-, rfl⟩
      exact moves_nil
  | cons i xs ih =>
      rintro u ⟨hall, rfl⟩
      obtain ⟨hi, hxs⟩ := Bool.and_eq_true_iff.mp hall
      exact ((item_moves hmax hi).append (ih ⟨hxs, rfl⟩)).congr fun w => plus_only

theorem jump_moves {l : Nat} (hc : Code bin len Y p (.jump .jmp l :: xs)) (hl : Y.label l ≤ len)
    (hout : ¬ (p ≤ Y.label l ∧ Y.label l < p + 5)) :
    Passes (Edge bin len) p (p + 5) (Y.label l) (Only 0) := by
  have hin := hc.inside
  rw [size_cons] at hin
  have hsize : Item.size (.jump .jmp l) = 5 := rfl
  exact passes_edge (by omega) hout fun q v => edge_jmp hc.here.1 (by omega) hmax hl

/-- Code in front of a conditional jump. -/
theorem turn_moves {k : Cond} {l : Nat} {j : Item} (hj : j = .jump (.jcc k) l ∨ j = .test (.jcc k) l)
    (h : Moves bin len Y xs R) : Forks bin len Y (xs ++ [j]) l R R := by
  have hop : (Op.jcc k).opcode.length = 2 := by cases k <;> rfl
  have hsize : j.size = 6 := by
    rcases hj with rfl | rfl <;> simp [Item.size, hop]
  intro p hc hl hout
  have hin := hc.inside
  have hjump := hc.right
  have hrel : RelAt bin (p + size xs) (.jcc k) (Y.label l) := by
    rcases hj with rfl | rfl <;> exact hjump.here.1
  rw [size_append, size_cons, size_nil, hsize] at hin hout ⊢
  have hbr : Branches (Edge bin len) (p + size xs) (p + size xs + 6) (Y.label l) (Only 0) (Only 0) :=
    branches_edge (by omega) (by omega) fun q v => edge_jcc hrel (by omega) hmax hl
  have hboth := (h p hc.left).branch hbr (by omega) (by omega) (by omega)
  exact hboth.congr (fun w => plus_zero_right) fun w => plus_zero_right

omit hmax in
/-- A conditional without an else branch. -/
theorem if_moves {l : Nat} (hcond : Forks bin len Y xs l R F) (ht : Moves bin len Y ys T) :
    Moves bin len Y (xs ++ ys ++ [.mark l]) (Either (Plus R T) (Plus F (Only 0))) := by
  intro p hc
  have hlab : Y.label l = p + size (xs ++ ys) := hc.right.here.1
  have hin := hc.inside
  have hbr := hcond p hc.left.left
  have hthen := ht _ hc.left.right
  simp only [size_append, size_cons, size_nil, Item.size, Nat.add_zero] at hlab hin ⊢
  rw [Nat.add_assoc, ← hlab] at hthen
  rw [← hlab]
  exact (hbr (by omega) (by omega)).choose hthen (passes_nil _) (by omega) (by omega) (by omega)

/-- A conditional with an else branch. -/
theorem if_else_moves {S : Int → Prop} {zs : List Item} {l l' : Nat} (hcond : Forks bin len Y xs l R F)
    (ht : Moves bin len Y ys T) (he : Moves bin len Y zs S) :
    Moves bin len Y (xs ++ ys ++ (.jump .jmp l' :: .mark l :: (zs ++ [.mark l'])))
      (Either (Plus R T) (Plus F S)) := by
  intro p hc
  have hjump := hc.right
  have hmark := hjump.tail
  have hzs : Code bin len Y _ (zs ++ [.mark l']) := hmark.tail
  have hlab : Y.label l = _ := hmark.here.1
  have hlab' : Y.label l' = _ := hzs.right.here.1
  have hin := hc.inside
  have hbr := hcond p hc.left.left
  have hthen := ht _ hc.left.right
  have hleap := jump_moves hmax hjump
  have helse := he _ hzs.left
  have hsize : Item.size (.jump .jmp l') = 5 := rfl
  have hzero : ∀ k, Item.size (.mark k) = 0 := fun _ => rfl
  simp only [size_append, size_cons, size_nil, hsize, hzero, Nat.add_zero] at *
  have hleap : Passes (Edge bin len) (p + size xs + size ys) _ _ _ :=
    (hleap (by omega) (by omega)).at (by omega) rfl rfl
  have hboth := hthen.append hleap (by omega) (by omega) (by omega)
  have hthen := (hboth.congr fun w => plus_zero_right).at rfl hlab.symm hlab'
  have hall := (hbr (by omega) (by omega)).choose hthen (helse.at hlab.symm rfl rfl)
    (by omega) (by omega) (by omega)
  exact hall.at rfl (by omega) (by omega)

/-- A loop. -/
theorem while_moves {l l' : Nat} (hcond : Forks bin len Y xs l' R F) (ht : Moves bin len Y ys T) :
    Moves bin len Y (.mark l :: (xs ++ ys ++ [.jump .jmp l, .mark l'])) (Laps (Plus R T) F) := by
  intro p hc
  have hlab : Y.label l = p := hc.here.1
  have hc' : Code bin len Y p (xs ++ ys ++ [.jump .jmp l, .mark l']) := hc.tail
  have hjump := hc'.right
  have hlab' : Y.label l' = _ := hjump.tail.here.1
  have hin := hc.inside
  have hbr := hcond p hc'.left.left
  have hbody := ht _ hc'.left.right
  have hback := fun q v => edge_jmp (q := q) (u := v) hjump.here.1 hjump.inside hmax
  have hsize : Item.size (.jump .jmp l) = 5 := rfl
  have hzero : ∀ k, Item.size (.mark k) = 0 := fun _ => rfl
  simp only [size_append, size_cons, size_nil, hsize, hzero, Nat.add_zero] at *
  have hback : ∀ q v, Edge bin len (p + size xs + size ys) q v ↔ q = p ∧ v = 0 := by
    intro q v
    have h := hback q v (by omega)
    rwa [hlab, ← Nat.add_assoc] at h
  have hloop := (hbr (by omega) (by omega)).loop hbody hback (by omega) (by omega) (by omega)
  exact hloop.at rfl (by omega) (by omega)

end

/-! ### The ways through a tree -/

mutual

/-- The words that the ways through an expression or a statement leave on the stack. -/
def Leaves : Node → Int → Prop
  | .null => Only 0
  | .mk _ k _ _ => KindLeaves k

/-- A condition takes what it computes. -/
def CondLeaves : Node → Int → Prop
  | .null => Only 0
  | .mk _ (.bin _ left right) _ _ => Plus (Plus (Leaves left) (Leaves right)) (Only (-2))
  | .mk _ k _ _ => Plus (KindLeaves k) (Only (-1))

def BlockLeaves : Node → Int → Prop
  | .null => Only 0
  | .mk _ (.var _ _ value) _ nx =>
      Plus (if value.isSome then Plus (Leaves value) (Only (-1)) else Only 0) (BlockLeaves nx)
  | .mk _ k _ nx => Plus (KindLeaves k) (BlockLeaves nx)

def ArgsLeave : Nat → Node → Int → Prop
  | _, .null => Only 0
  | 0, _ => Only 0
  | m + 1, .mk _ k _ nx => Plus (ArgsLeave m nx) (KindLeaves k)

def KindLeaves : Kind → Int → Prop
  | .int _ => Only 1
  | .elem _ => Only 1
  | .var _ _ _ => Only 1
  | .str _ => Only 1
  | .bin _ left right => Plus (Plus (Leaves left) (Leaves right)) (Only (-1))
  | .assign _ _ left right =>
      match left with
      | .mk _ (.var _ _ _) _ _ => Plus (Leaves right) (Only (-1))
      | .mk _ (.pointer _ value) _ _ => Plus (Plus (Leaves right) (Leaves value)) (Only (-2))
      | _ => Leaves right
  | .return_ _ => Never
  | .if_ cond then_stmt else_stmt =>
      Either (Plus (CondLeaves cond) (Leaves then_stmt))
        (Plus (if cond.isSome then CondLeaves cond else Never) (Leaves else_stmt))
  | .while_ cond then_stmt _ =>
      Laps (Plus (CondLeaves cond) (Leaves then_stmt)) (if cond.isSome then CondLeaves cond else Never)
  | .block body => BlockLeaves body
  | .call name args _ =>
      let arg_count := min (chainLength args) Limits.code.args
      let one := if args.isSome then ArgsLeave Limits.code.first args else Only 1
      if name = ['p', 'r', 'i', 'n', 't', 'f'] then
        -- six arguments are popped at most
        if arg_count = 1 then ArgsLeave Limits.code.args args
        else if 1 < arg_count then Plus (ArgsLeave Limits.code.args args) (Only (1 - min arg_count 6))
        else Only 1
      else if name = ['p', 'r', 'i', 'n', 't'] ∨ name = ['k', 'p', 'r', 'i', 'n', 't', 'f'] then one
      else if name = ['p', 'u', 't', 'c'] then one
      else Plus (ArgsLeave Limits.code.args args) (Only (1 - arg_count))
  | .pointer _ value => Leaves value
  | _ => Only 0

end

theorem load_straight (o : Int) : Straight (load_items o) 1 := by
  unfold load_items
  split <;> exact ⟨rfl, rfl⟩

theorem store_straight (o : Int) : Straight (store_items o) (-1) := by
  unfold store_items
  split <;> exact ⟨rfl, rfl⟩

theorem bin_straight (op : Int) :
    Straight ([Item.op .pop_rbx, Item.op .pop_rax] ++ (bin_items op ++ [Item.op .push_rax])) (-1) := by
  unfold bin_items
  split_ifs <;> exact ⟨rfl, rfl⟩

/-- Six words are popped at most. -/
theorem pop_straight {n : Nat} (hn : 0 < n) : Straight (pop_items n) (-min n 6) := by
  have hall : ∀ m ≤ 6, 0 < m → (pop_items m).all Item.straight = true ∧ words (pop_items m) = -(m : Int) := by
    decide
  have hmin : pop_items n = pop_items (min n 6) := by
    unfold pop_items
    simp only [Nat.le_min, Nat.reduceLeDiff, and_true]
  rw [hmin]
  obtain ⟨h1, h2⟩ := hall (min n 6) (by omega) (by omega)
  exact ⟨h1, h2.trans (by omega)⟩

theorem cut_straight (n : Nat) (args : Node) : Straight (cut_items n args) 0 := by
  unfold cut_items
  split <;> exact ⟨rfl, rfl⟩

theorem pop_rdi_straight : Straight [.op .pop_rdi] (-1) := ⟨rfl, rfl⟩

theorem builtin_straight (a : BitVec 64) : Straight (builtin_items a) 1 := ⟨rfl, rfl⟩

theorem Straight.append {v : Int} (hx : Straight xs u) (hy : Straight ys v) : Straight (xs ++ ys) (u + v) := by
  obtain ⟨hx, rfl⟩ := hx
  obtain ⟨hy, rfl⟩ := hy
  refine ⟨by rw [List.all_append, hx, hy]; rfl, ?_⟩
  unfold words
  rw [List.map_append, List.sum_append]

section

variable (hmax : len < 2 ^ 31)
include hmax

/-- Code with a straight end. -/
theorem Moves.then (h : Moves bin len Y xs R) (hys : Straight ys u) :
    Moves bin len Y (xs ++ ys) (Plus R (Only u)) :=
  h.append (hys.moves hmax)

omit hmax in
theorem return_moves (h : Moves bin len Y xs R) : Moves bin len Y (xs ++ epilogue_items) Never := by
  have hend : Moves bin len Y epilogue_items Never := by
    intro p hc
    obtain ⟨hat, hlen, -⟩ := hc.at
    exact passes_stuck (Nat.lt_add_of_pos_right (by decide)) fun q v => edge_stuck hat hlen rfl
  exact (h.append hend).congr fun w => plus_never

theorem call_moves (f : Name) {n : Nat} (hn : n ≤ 32) :
    Moves bin len Y (call_items f n) (Only (1 - n)) := by
  have hcall : Moves bin len Y [.call f] (Only 0) := Straight.moves hmax ⟨rfl, rfl⟩
  have hpush : Moves bin len Y [.op .push_rax] (Only 1) := Straight.moves hmax ⟨rfl, rfl⟩
  have hclean : Moves bin len Y (if 0 < n then [.ins ⟨.add_rsp, (BitVec.ofNat 32 (n * 8)).toNat⟩] else [])
      (Only (-n)) := by
    split
    · refine moves_edge (by decide : 0 < 7) fun p hc q v => ?_
      obtain ⟨hat, hlen, -⟩ := hc.at
      have himm : (BitVec.ofNat 32 (n * 8)).toNat % 256 ^ Op.add_rsp.width = n * 8 := by
        have hall : ∀ m ≤ 32, (BitVec.ofNat 32 (m * 8)).toNat % 256 ^ 4 = m * 8 := by decide
        exact hall n hn
      rw [himm] at hat
      exact edge_add_rsp hat hlen hmax hn
    · obtain rfl : n = 0 := by omega
      exact moves_nil
  refine ((hcall.append hclean).append hpush).congr fun w => ?_
  unfold Plus Only
  constructor
  · rintro ⟨_, _, ⟨_, _, rfl, rfl, rfl⟩, rfl, rfl⟩
    omega
  · rintro rfl
    exact ⟨-n, 1, ⟨0, -n, rfl, rfl, by omega⟩, rfl, by omega⟩

end

variable (A : Addresses)

/-- A call, from its arguments. -/
theorem call_kind_moves (hmax : len < 2 ^ 31) {args : Node}
    (hargs : ∀ m k, Moves bin len Y (args_items A .code m args k) (ArgsLeave m args)) (f : Name) (n : Int)
    (k : Nat) : Moves bin len Y (kind_items A .code (.call f args n) k) (KindLeaves (.call f args n)) := by
  have hall : Moves bin len Y
      (cut_items Limits.code.args args ++ args_items A .code Limits.code.args args k)
      (ArgsLeave Limits.code.args args) :=
    (((cut_straight _ args).moves hmax).append (hargs _ k)).congr fun w => plus_zero_left
  have hone : ∀ a, Moves bin len Y (cut_items Limits.code.first args ++
      (if args.isSome then args_items A .code Limits.code.first args k ++ [.op .pop_rdi]
        else [.op .xor_rdi_rdi]) ++ builtin_items a)
      (if args.isSome then ArgsLeave Limits.code.first args else Only 1) := by
    intro a
    have hcut : Moves bin len Y _ _ := (cut_straight Limits.code.first args).moves hmax
    by_cases ha : args.isSome = true
    · rw [if_pos ha, if_pos ha]
      have hpop := (hargs Limits.code.first k).then hmax pop_rdi_straight
      have h := (hcut.append hpop).congr fun w => plus_zero_left
      exact (h.then hmax (builtin_straight a)).congr fun w => plus_plus_only.trans plus_zero_right
    · rw [if_neg ha, if_neg ha]
      have hxor : Moves bin len Y [.op .xor_rdi_rdi] (Only 0) := Straight.moves hmax ⟨rfl, rfl⟩
      have h := (hcut.append hxor).congr fun w => plus_zero_left
      exact (h.then hmax (builtin_straight a)).congr fun w => plus_zero_left
  unfold kind_items KindLeaves
  simp only
  by_cases hprintf : f = ['p', 'r', 'i', 'n', 't', 'f']
  · rw [if_pos hprintf, if_pos hprintf]
    by_cases hsingle : min (chainLength args) Limits.code.args = 1
    · rw [if_pos hsingle, if_pos hsingle]
      have h := (hall.then hmax pop_rdi_straight).then hmax (builtin_straight A.print_str)
      exact h.congr fun w => plus_plus_only.trans plus_zero_right
    rw [if_neg hsingle, if_neg hsingle]
    by_cases hmany : 1 < min (chainLength args) Limits.code.args
    · rw [if_pos hmany, if_pos hmany]
      have hxor : Straight [.op .xor_eax_eax] 0 := ⟨rfl, rfl⟩
      have hpop := (pop_straight (n := min (chainLength args) Limits.code.args) (by omega)).append hxor
      have h := (hall.then hmax hpop).then hmax (builtin_straight A.kprintf)
      rw [← List.append_assoc] at h
      refine h.congr fun w => plus_plus_only.trans (iff_of_eq ?_)
      congr 2
      omega
    · rw [if_neg hmany, if_neg hmany]
      exact Straight.moves hmax ⟨rfl, rfl⟩
  rw [if_neg hprintf, if_neg hprintf]
  by_cases hprint : f = ['p', 'r', 'i', 'n', 't'] ∨ f = ['k', 'p', 'r', 'i', 'n', 't', 'f']
  · rw [if_pos hprint, if_pos hprint]
    exact hone A.print
  rw [if_neg hprint, if_neg hprint]
  by_cases hputc : f = ['p', 'u', 't', 'c']
  · rw [if_pos hputc, if_pos hputc]
    exact hone A.putc
  · rw [if_neg hputc, if_neg hputc]
    exact hall.append (call_moves hmax f (Nat.min_le_right _ _))

mutual

theorem node_moves (hmax : len < 2 ^ 31) : ∀ (n : Node) (k : Nat),
    Moves bin len Y (node_items A .code n k) (Leaves n) := by
  intro n k
  cases n with
  | null => exact moves_nil
  | mk t kind ix nx => exact (kind_moves hmax kind k).skip rfl

/-- A condition that is there jumps to its label, and one that is not does not. -/
theorem cond_turns (hmax : len < 2 ^ 31) : ∀ (c : Node) (l k : Nat),
    Forks bin len Y (cond_items A .code c l false k) l (CondLeaves c)
      (if c.isSome then CondLeaves c else Never) := by
  intro c l k
  cases c with
  | null => exact fun p _ _ _ => branches_nil p _
  | mk t kind ix nx =>
      have hplain : Moves bin len Y (kind_items A .code kind k ++ [.op .pop_rax, .op .test_rax_rax])
          (Plus (KindLeaves kind) (Only (-1))) := (kind_moves hmax kind k).then hmax ⟨rfl, rfl⟩
      have hturn := turn_moves hmax (k := .e) (l := l) (.inr rfl) (hplain.skip (i := .visit) rfl)
      rw [List.cons_append, List.append_assoc] at hturn
      cases kind with
      | bin op left right =>
          have hright := node_moves hmax right (k + allocs (node_items A .code left k))
          have hpops : Straight [.op .pop_rbx, .op .pop_rax, .op .cmp_rbx_rax] (-2) := ⟨rfl, rfl⟩
          have hpair := ((node_moves hmax left k).append hright).then hmax hpops
          have hjump := turn_moves hmax (k := condOf (invert op)) (l := l) (.inl rfl)
            (hpair.skip (i := .visit) rfl)
          rw [List.cons_append, List.append_assoc] at hjump
          exact hjump
      | _ => exact hturn

theorem kind_moves (hmax : len < 2 ^ 31) : ∀ (kind : Kind) (k : Nat),
    Moves bin len Y (kind_items A .code kind k) (KindLeaves kind) := by
  intro kind k
  cases kind with
  | int v => exact Straight.moves hmax ⟨rfl, rfl⟩
  | elem e => exact Straight.moves hmax ⟨rfl, rfl⟩
  | var dt off v => exact (load_straight off).moves hmax
  | str s => exact Straight.moves hmax ⟨rfl, rfl⟩
  | bin op left right =>
      have hright := node_moves hmax right (k + allocs (node_items A .code left k))
      have h := ((node_moves hmax left k).append hright).then hmax (bin_straight op)
      rw [← List.append_assoc, ← List.append_assoc] at h
      exact h
  | assign off op left right =>
      have hr := node_moves hmax right k
      cases left with
      | null => exact (hr.then hmax ⟨rfl, rfl⟩).congr fun w => plus_zero_right
      | mk t kind ix nx =>
          cases kind with
          | var dt o v =>
              have hstore : Moves bin len Y _ _ := (store_straight (if off ≠ 0 then off else o)).moves hmax
              have h := hr.append (hstore.skip (i := .visit) rfl)
              rw [← List.singleton_append, ← List.append_assoc] at h
              exact h
          | pointer e value =>
              have haddr := node_moves hmax value (k + allocs (node_items A .code right k))
              have hpoke : Straight [.op .pop_rax, .op .pop_rbx, .op .mov_rax_at_rbx] (-2) := ⟨rfl, rfl⟩
              have h := (hr.append (haddr.skip (i := .visit) rfl)).then hmax hpoke
              rw [← List.singleton_append, ← List.append_assoc] at h
              exact h
          | _ => exact (hr.then hmax ⟨rfl, rfl⟩).congr fun w => plus_zero_right
  | return_ value =>
      refine return_moves (R := if value.isSome then Plus (Leaves value) (Only (-1)) else Only 0) ?_
      split
      · exact (node_moves hmax value k).then hmax ⟨rfl, rfl⟩
      · exact Straight.moves hmax ⟨rfl, rfl⟩
  | if_ c t e =>
      have ht := node_moves hmax t
        (k + 2 + allocs (cond_items A .code c (if e.isSome then k else k + 1) false (k + 2)))
      have hc := cond_turns hmax c (if e.isSome then k else k + 1) (k + 2)
      unfold kind_items KindLeaves
      by_cases he : e.isSome = true
      · rw [if_pos he] at hc ht
        have helse := node_moves hmax e (k + 2 + allocs (cond_items A .code c k false (k + 2)) +
          allocs (node_items A .code t (k + 2 + allocs (cond_items A .code c k false (k + 2)))))
        have hboth : Moves bin len Y
            (_ ++ _ ++ (.jump .jmp (k + 1) :: .mark k :: (_ ++ [.mark (k + 1)]))) _ :=
          if_else_moves hmax hc ht helse
        have h := (hboth.skip (i := .alloc) rfl).skip (i := .alloc) rfl
        simp only [if_pos he]
        simpa only [List.append_assoc, List.cons_append, List.nil_append] using h
      · rw [if_neg he] at hc ht
        have h := ((if_moves hc ht).skip (i := .alloc) rfl).skip (i := .alloc) rfl
        have hnull : Leaves e = Only 0 := by
          cases e with
          | null => rfl
          | mk t kind ix nx => exact absurd rfl he
        rw [hnull]
        simp only [if_neg he]
        simpa only [List.append_assoc, List.cons_append, List.nil_append] using h
  | while_ c t f =>
      have ht := node_moves hmax t (k + 2 + allocs (cond_items A .code c (k + 1) false (k + 2)))
      have hloop := while_moves (l := k) hmax (cond_turns hmax c (k + 1) (k + 2)) ht
      have h := (hloop.skip (i := .alloc) rfl).skip (i := .alloc) rfl
      unfold kind_items KindLeaves
      simpa only [List.append_assoc, List.cons_append, List.nil_append] using h
  | block b => exact block_moves hmax b k
  | call f args n => exact call_kind_moves A hmax (fun m k => args_move hmax m args k) f n k
  | pointer e value => exact ((node_moves hmax value k).then hmax ⟨rfl, rfl⟩).congr fun w => plus_zero_right
  | _ => exact Straight.moves hmax ⟨rfl, rfl⟩

theorem block_moves (hmax : len < 2 ^ 31) : ∀ (n : Node) (k : Nat),
    Moves bin len Y (block_items A .code n k) (BlockLeaves n) := by
  intro n k
  cases n with
  | null => exact moves_nil
  | mk t kind ix nx =>
      cases kind with
      | var dt off value =>
          have hd : Moves bin len Y
              (if value.isSome then node_items A .code value k ++ store_items off else [])
              (if value.isSome then Plus (Leaves value) (Only (-1)) else Only 0) := by
            by_cases hv : value.isSome = true
            · rw [if_pos hv, if_pos hv]
              exact (node_moves hmax value k).then hmax (store_straight off)
            · rw [if_neg hv, if_neg hv]
              exact moves_nil
          exact (hd.skip (i := .visit) rfl).append (block_moves hmax nx _)
      | _ => exact ((kind_moves hmax _ k).skip rfl).append (block_moves hmax nx _)

theorem args_move (hmax : len < 2 ^ 31) : ∀ (m : Nat) (n : Node) (k : Nat),
    Moves bin len Y (args_items A .code m n k) (ArgsLeave m n) := by
  intro m n k
  cases n with
  | null => exact moves_nil
  | mk t kind ix nx =>
      cases m with
      | zero => exact moves_nil
      | succ m =>
          have h := (args_move hmax m nx k).append (Moves.skip (i := .visit)
            (kind_moves hmax kind (k + allocs (args_items A .code m nx k))) rfl)
          rw [← List.singleton_append, ← List.append_assoc] at h
          exact h

end

/-! ### StackBalanced statements -/

/-- Every path through the code from `p` to `q` that leaves it at its end leaves the stack as it was. -/
def StackBalanced (bin : Store) (len p q : Nat) : Prop := ∀ n w, Way (Edge bin len) p q n p q w → w = 0

theorem Passes.stack_balanced (h : Passes (Edge bin len) p q q R) : StackBalanced bin len p q ↔ ∀ w, R w → w = 0 := by
  constructor
  · intro hbal w hw
    obtain ⟨n, hpath⟩ := (h q w).mpr ⟨rfl, hw⟩
    exact hbal n w hpath
  · exact fun hR n w hpath => hR w ((h q w).mp ⟨n, hpath⟩).2

/-- **Statements and the stack.**  The code of a statement leaves the stack as it was on every path to
its end if and only if every way through the statement does. -/
theorem stack_balanced_iff {s : Node} {k : Nat} (hmax : len < 2 ^ 31)
    (hc : Code bin len Y p (node_items A .code s k)) :
    StackBalanced bin len p (p + size (node_items A .code s k)) ↔ ∀ w, Leaves s w → w = 0 :=
  Passes.stack_balanced (node_moves A hmax s k p hc)

/-- `x = 1;` -/
def oneAssigned : Node :=
  .mk 0 (.assign 0 '='.toNat (.mk 0 (.var 0 (-4) .null) .null .null) (.mk 0 (.int 1) .null .null))
    .null .null

theorem assignment_balanced : StackBalanced (imageStore .none (node_items .zero .code oneAssigned 0))
    (size (node_items .zero .code oneAssigned 0)) 0 (0 + size (node_items .zero .code oneAssigned 0)) := by
  refine (stack_balanced_iff .zero (by decide) (image_code (by decide))).mpr ?_
  rintro w ⟨u, v, hu, hv, rfl⟩
  have hu : u = 1 := hu
  have hv : v = -1 := hv
  omega

/-- `{ x + 1; }` -/
def sumStatement : Node :=
  .mk 0 (.block (.mk 0 (.bin '+'.toNat (.mk 0 (.var 0 (-4) .null) .null .null) (.mk 0 (.int 1) .null .null))
    .null .null)) .null .null

/-- The sum stays on the stack. -/
theorem sum_unbalanced : ¬ ∀ (bin : Store) (len p k : Nat) (Y : Symbols) (A : Addresses) (s : Node),
    len < 2 ^ 31 → Code bin len Y p (node_items A .code s k) →
      StackBalanced bin len p (p + size (node_items A .code s k)) := by
  intro hall
  have hbal := hall _ _ 0 0 .none .zero sumStatement (by decide) (image_code (by decide))
  have hpaths := node_moves (Y := .none) .zero (by decide) sumStatement 0 0 (image_code (by decide))
  have hleaves : Leaves sumStatement 1 := ⟨1, 0, ⟨2, -1, ⟨1, 1, rfl, rfl, rfl⟩, rfl, rfl⟩, rfl, rfl⟩
  obtain ⟨n, hpath⟩ := (hpaths _ 1).mpr ⟨rfl, hleaves⟩
  exact absurd (hbal n 1 hpath) (by decide)

end Eke
