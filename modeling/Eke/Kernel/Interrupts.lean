/-
Interrupts, from the stub to `iretq`.

What the processor does when an interrupt comes and the code of `idt_asm.s`, line by line.
Whatever the vector, the registers of the interrupted program end up in one frame on its stack,
laid out as `struct Registers` says, and whichever frame `isr_handler` hands back is what the
registers are loaded from.
-/
import Eke.Lib.Bits

namespace Eke

open Store

namespace Interrupts

/-- The general registers, without the stack pointer. -/
inductive Gpr
  | rax | rbx | rcx | rdx | rsi | rdi | rbp | r8 | r9 | r10 | r11 | r12 | r13 | r14 | r15
  deriving DecidableEq

/-- The registers a program runs with. -/
structure Core where
  gpr : Gpr → BitVec 64
  rip : BitVec 64
  cs : BitVec 64
  rflags : BitVec 64
  rsp : BitVec 64
  ss : BitVec 64

/-- The interrupt flag. -/
def IF : BitVec 64 := 0x200

/-! ### The code -/

/-- The instructions of `idt_asm.s`. -/
inductive Line
  | push (r : Gpr)
  | pushq (v : BitVec 64)
  | mov_rsp_rdi
  | call_isr_handler
  | mov_rax_rsp
  | pop (r : Gpr)
  | add_rsp (v : BitVec 64)
  | iretq

open Gpr Line

/-- The vectors for which the processor pushes an error code. -/
def hasError (n : Nat) : Bool := n ∈ [8, 10, 11, 12, 13, 14, 17, 21, 29, 30]

/-- `ISR_ERRCODE` and `ISR_NOERRCODE`, up to the jump. -/
def isr (n : Nat) : List Line :=
  if hasError n then [pushq (BitVec.ofNat 64 n)] else [pushq 0, pushq (BitVec.ofNat 64 n)]

/-- The pushes of `isr_common`. -/
def pushed : List Gpr := [rax, rbx, rcx, rdx, rsi, rdi, rbp, r8, r9, r10, r11, r12, r13, r14, r15]

/-- Its pops. -/
def popped : List Gpr := [r15, r14, r13, r12, r11, r10, r9, r8, rbp, rdi, rsi, rdx, rcx, rbx, rax]

/-- `isr_common`. -/
def isr_common : List Line :=
  pushed.map push ++ [mov_rsp_rdi, call_isr_handler, mov_rax_rsp] ++ popped.map pop ++ [add_rsp 16, iretq]

/-- The processor and its memory. -/
abbrev Machine := Core × Store

/-- A word is pushed. -/
def pushWord (v : BitVec 64) (s : Machine) : Machine :=
  ({ s.1 with rsp := s.1.rsp - 8 }, s.2.setWord (s.1.rsp - 8).toNat v)

def Core.set (c : Core) (r : Gpr) (v : BitVec 64) : Core :=
  { c with gpr := fun q => if q = r then v else c.gpr q }

/-- One instruction; `handler` is what the call does. -/
def exec (handler : Machine → Machine) : Line → Machine → Machine
  | push r, s => pushWord (s.1.gpr r) s
  | pushq v, s => pushWord v s
  | mov_rsp_rdi, s => (s.1.set rdi s.1.rsp, s.2)
  | call_isr_handler, s => handler s
  | mov_rax_rsp, s => ({ s.1 with rsp := s.1.gpr rax }, s.2)
  | pop r, s => ({ s.1.set r (s.2.word s.1.rsp.toNat) with rsp := s.1.rsp + 8 }, s.2)
  | add_rsp v, s => ({ s.1 with rsp := s.1.rsp + v }, s.2)
  | iretq, s =>
      let a := s.1.rsp.toNat
      ({ s.1 with
        rip := s.2.word a, cs := s.2.word (a + 8), rflags := s.2.word (a + 16), rsp := s.2.word (a + 24)
        ss := s.2.word (a + 32) }, s.2)

def execAll (handler : Machine → Machine) (is : List Line) (s : Machine) : Machine :=
  is.foldl (fun s i => exec handler i s) s

/-- The processor's part: the stack is aligned, the state is pushed, and interrupts are off. -/
def deliver (n : Nat) (err : BitVec 64) (s : Machine) : Machine :=
  let c := s.1
  let s := pushWord c.ss ({ c with rsp := c.rsp &&& BitVec.allOnes 64 <<< 4 }, s.2)
  let s := pushWord c.rip (pushWord c.cs (pushWord c.rflags (pushWord c.rsp s)))
  let s := if hasError n then pushWord err s else s
  ({ s.1 with rflags := s.1.rflags &&& ~~~IF }, s.2)

/-- An interrupt, from the instruction before which it comes to the one that is executed next. -/
def interrupt (handler : Machine → Machine) (n : Nat) (err : BitVec 64) (s : Machine) : Machine :=
  execAll handler (isr n ++ isr_common) (deliver n err s)

/-! ### The frame -/

/-- Where a register stands in `struct Registers`. -/
def Gpr.offset : Gpr → Nat
  | r15 => 0
  | r14 => 8
  | r13 => 16
  | r12 => 24
  | r11 => 32
  | r10 => 40
  | r9 => 48
  | r8 => 56
  | rbp => 64
  | rdi => 72
  | rsi => 80
  | rdx => 88
  | rcx => 96
  | rbx => 104
  | rax => 112

abbrev INT_NO : Nat := 120
abbrev ERR_CODE : Nat := 128
abbrev RIP : Nat := 136
abbrev CS : Nat := 144
abbrev RFLAGS : Nat := 152
abbrev RSP : Nat := 160
abbrev SS : Nat := 168

/-- `sizeof(Registers)` -/
abbrev FRAME : Nat := 176

/-- The registers a frame stands for. -/
def load (m : Store) (a : Nat) : Core where
  gpr r := m.word (a + r.offset)
  rip := m.word (a + RIP)
  cs := m.word (a + CS)
  rflags := m.word (a + RFLAGS)
  rsp := m.word (a + RSP)
  ss := m.word (a + SS)

/-- Where the frame of an interrupted program goes. -/
def Core.frame (c : Core) : Nat := c.rsp.toNat / 16 * 16 - FRAME

variable {c : Core} {m m' : Store} {s : Machine} {handler : Machine → Machine} {n a : Nat} {err : BitVec 64}

/-- A frame depends on its own bytes. -/
theorem load_congr (h : ∀ x, a ≤ x → x < a + FRAME → m' x = m x) : load m' a = load m a := by
  have hword : ∀ k, k + 8 ≤ FRAME → m'.word (a + k) = m.word (a + k) := fun k hk =>
    word_congr fun j hj => h _ (by omega) (by omega)
  have hgpr : (fun r : Gpr => m'.word (a + r.offset)) = fun r => m.word (a + r.offset) := by
    funext r
    refine hword _ ?_
    cases r <;> decide
  unfold load
  rw [hgpr, hword RIP (by decide), hword CS (by decide), hword RFLAGS (by decide), hword RSP (by decide),
    hword SS (by decide)]

/-! ### Pushes and pops -/

/-- The words are pushed, in this order. -/
def pushAll (ws : List (BitVec 64)) (s : Machine) : Machine := ws.foldl (fun s w => pushWord w s) s

theorem pushAll_core : ∀ (ws : List (BitVec 64)) (s : Machine), 8 * ws.length ≤ s.1.rsp.toNat →
    (pushAll ws s).1 = { s.1 with rsp := (pushAll ws s).1.rsp } ∧
      (pushAll ws s).1.rsp.toNat = s.1.rsp.toNat - 8 * ws.length := by
  intro ws
  induction ws with
  | nil => intro s _; exact ⟨rfl, rfl⟩
  | cons w ws ih =>
      intro s h
      rw [List.length_cons] at h ⊢
      have hsub : (s.1.rsp - 8).toNat = s.1.rsp.toNat - 8 :=
        BitVec.toNat_sub_of_le (by rw [BitVec.le_def]; show 8 ≤ _; omega)
      have hlen : 8 * ws.length ≤ (pushWord w s).1.rsp.toNat := by
        show _ ≤ (s.1.rsp - 8).toNat
        omega
      obtain ⟨hcore, hrsp⟩ := ih (pushWord w s) hlen
      refine ⟨hcore, hrsp.trans ?_⟩
      show (s.1.rsp - 8).toNat - _ = _
      omega

/-- The words stand below the old stack pointer, and nothing else changed. -/
theorem pushAll_words : ∀ (ws : List (BitVec 64)) (s : Machine), 8 * ws.length ≤ s.1.rsp.toNat →
    (∀ i (h : i < ws.length), (pushAll ws s).2.word (s.1.rsp.toNat - 8 * (i + 1)) = ws[i]) ∧
      ∀ x, x < s.1.rsp.toNat - 8 * ws.length ∨ s.1.rsp.toNat ≤ x → (pushAll ws s).2 x = s.2 x := by
  intro ws
  induction ws with
  | nil => intro s _; exact ⟨fun i h => absurd h (Nat.not_lt_zero i), fun x _ => rfl⟩
  | cons w ws ih =>
      intro s h
      rw [List.length_cons] at h
      have hsub : (s.1.rsp - 8).toNat = s.1.rsp.toNat - 8 :=
        BitVec.toNat_sub_of_le (by rw [BitVec.le_def]; show 8 ≤ _; omega)
      have hrsp : (pushWord w s).1.rsp.toNat = s.1.rsp.toNat - 8 := hsub
      obtain ⟨hwords, hout⟩ := ih (pushWord w s) (by omega)
      rw [hrsp] at hwords hout
      refine ⟨fun i hi => ?_, fun x hx => ?_⟩
      · cases i with
        | zero =>
            have hkeep : (pushAll ws (pushWord w s)).2.word (s.1.rsp.toNat - 8) =
                (pushWord w s).2.word (s.1.rsp.toNat - 8) :=
              word_congr fun k hk => hout _ (by omega)
            show (pushAll ws (pushWord w s)).2.word _ = w
            rw [Nat.zero_add, Nat.mul_one, hkeep]
            show (s.2.setWord (s.1.rsp - 8).toNat w).word _ = w
            rw [hsub, word_setWord]
        | succ i =>
            have hi' : i < ws.length := Nat.lt_of_succ_lt_succ hi
            have := hwords i hi'
            rw [show s.1.rsp.toNat - 8 - 8 * (i + 1) = s.1.rsp.toNat - 8 * (i + 1 + 1) by omega] at this
            exact this
      · rw [List.length_cons] at hx
        refine (hout x (by omega)).trans ?_
        show s.2.setWord (s.1.rsp - 8).toNat w x = s.2 x
        rw [hsub]
        exact setWord_out (by omega)

theorem execAll_append (is js : List Line) (s : Machine) :
    execAll handler (is ++ js) s = execAll handler js (execAll handler is s) := List.foldl_append

theorem execAll_cons (i : Line) (is : List Line) (s : Machine) :
    execAll handler (i :: is) s = execAll handler is (exec handler i s) := rfl

theorem pushAll_append (ws vs : List (BitVec 64)) (s : Machine) :
    pushAll (ws ++ vs) s = pushAll vs (pushAll ws s) := List.foldl_append

/-- Registers that are pushed are pushed with their values. -/
theorem execAll_push (rs : List Gpr) : ∀ s : Machine,
    execAll handler (rs.map push) s = pushAll (rs.map s.1.gpr) s := by
  induction rs with
  | nil => exact fun _ => rfl
  | cons r rs ih => exact fun s => ih (pushWord (s.1.gpr r) s)

/-- Registers that are popped hold the words above the stack pointer. -/
theorem execAll_pop : ∀ (rs : List Gpr) (s : Machine), rs.Nodup → s.1.rsp.toNat + 8 * rs.length < 2 ^ 64 →
    (execAll handler (rs.map pop) s).2 = s.2 ∧
      (execAll handler (rs.map pop) s).1.rsp.toNat = s.1.rsp.toNat + 8 * rs.length ∧
      (∀ i (h : i < rs.length),
        (execAll handler (rs.map pop) s).1.gpr rs[i] = s.2.word (s.1.rsp.toNat + 8 * i)) ∧
      ∀ r, r ∉ rs → (execAll handler (rs.map pop) s).1.gpr r = s.1.gpr r := by
  intro rs
  induction rs with
  | nil => intro s _ _; exact ⟨rfl, rfl, fun i h => absurd h (Nat.not_lt_zero i), fun r _ => rfl⟩
  | cons r rs ih =>
      intro s hnd h
      rw [List.length_cons] at h
      obtain ⟨hr, hnd⟩ := List.nodup_cons.mp hnd
      let t : Machine := exec handler (pop r) s
      have hadd : t.1.rsp.toNat = s.1.rsp.toNat + 8 := by
        show (s.1.rsp + 8).toNat = _
        rw [BitVec.toNat_add]
        show (_ + 8) % 2 ^ 64 = _
        exact Nat.mod_eq_of_lt (by omega)
      obtain ⟨hmem, hrsp, hgpr, hother⟩ := ih t hnd (by omega)
      refine ⟨hmem, hrsp.trans (by rw [hadd, List.length_cons]; omega), fun i hi => ?_, fun q hq => ?_⟩
      · cases i with
        | zero =>
            refine (hother r hr).trans ?_
            show (if r = r then _ else _) = _
            rw [if_pos rfl]
            rfl
        | succ i =>
            have hi' : i < rs.length := Nat.lt_of_succ_lt_succ hi
            refine (hgpr i hi').trans ?_
            rw [hadd, show s.1.rsp.toNat + 8 + 8 * i = s.1.rsp.toNat + 8 * (i + 1) by omega]
            rfl
      · rw [List.mem_cons, not_or] at hq
        refine (hother q hq.2).trans ?_
        show (if q = r then _ else _) = _
        rw [if_neg hq.1]

/-! ### In and out -/

theorem frame_add (h : 191 ≤ c.rsp.toNat) : c.frame + FRAME = c.rsp.toNat / 16 * 16 := by
  show c.rsp.toNat / 16 * 16 - 176 + 176 = _
  omega

/-- Only the stack pointer of the core matters to a push. -/
theorem pushAll_flags (f : BitVec 64) : ∀ (ws : List (BitVec 64)) (s : Machine),
    pushAll ws ({ s.1 with rflags := f }, s.2) = ({ (pushAll ws s).1 with rflags := f }, (pushAll ws s).2) := by
  intro ws
  induction ws with
  | nil => exact fun _ => rfl
  | cons w ws ih => exact fun s => ih (pushWord w s)

theorem pushAll_rflags : ∀ (ws : List (BitVec 64)) (s : Machine), (pushAll ws s).1.rflags = s.1.rflags := by
  intro ws
  induction ws with
  | nil => exact fun _ => rfl
  | cons w ws ih => exact fun s => ih (pushWord w s)

theorem pushAll_gpr : ∀ (ws : List (BitVec 64)) (s : Machine), (pushAll ws s).1.gpr = s.1.gpr := by
  intro ws
  induction ws with
  | nil => exact fun _ => rfl
  | cons w ws ih => exact fun s => ih (pushWord w s)

/-- What is on the stack when the handler is called. -/
def saved (n : Nat) (err : BitVec 64) (c : Core) : List (BitVec 64) :=
  [c.ss, c.rsp, c.rflags, c.cs, c.rip, if hasError n then err else 0, BitVec.ofNat 64 n] ++ pushed.map c.gpr

/-- The processor and the stub push the same words for every vector. -/
theorem entry_eq (handler : Machine → Machine) (n : Nat) (err : BitVec 64) (c : Core) (m : Store) :
    execAll handler (isr n ++ pushed.map push) (deliver n err (c, m)) =
      pushAll (saved n err c)
        ({ c with rsp := c.rsp &&& BitVec.allOnes 64 <<< 4, rflags := c.rflags &&& ~~~IF }, m) := by
  let aligned : Machine := ({ c with rsp := c.rsp &&& BitVec.allOnes 64 <<< 4 }, m)
  let top : List (BitVec 64) := [c.ss, c.rsp, c.rflags, c.cs, c.rip]
  let low : List (BitVec 64) := [if hasError n then err else 0, BitVec.ofNat 64 n]
  let base : Machine := ({ aligned.1 with rflags := c.rflags &&& ~~~IF }, m)
  -- The flag is cleared after the pushes, or before them.
  have hflags : ∀ ws, ({ (pushAll ws aligned).1 with rflags := (pushAll ws aligned).1.rflags &&& ~~~IF },
      (pushAll ws aligned).2) = pushAll ws base := by
    intro ws
    have hkeep : (pushAll ws aligned).1.rflags = c.rflags := pushAll_rflags ws aligned
    rw [hkeep]
    exact (pushAll_flags _ ws aligned).symm
  have hstub : execAll handler (isr n) (deliver n err (c, m)) = pushAll (top ++ low) base := by
    by_cases hn : hasError n = true
    · have hd : deliver n err (c, m) = pushAll (top ++ [err]) base := by
        rw [← hflags (top ++ [err])]
        dsimp only [deliver]
        rw [if_pos hn]
        rfl
      have hl : low = [err] ++ [BitVec.ofNat 64 n] := by
        show [if hasError n then err else 0, _] = _
        rw [if_pos hn]
        rfl
      unfold isr
      rw [if_pos hn, hd, hl, ← List.append_assoc, pushAll_append]
      rfl
    · have hd : deliver n err (c, m) = pushAll top base := by
        rw [← hflags top]
        dsimp only [deliver]
        rw [if_neg hn]
        rfl
      have hl : low = [0, BitVec.ofNat 64 n] := by
        show [if hasError n then err else 0, _] = _
        rw [if_neg hn]
      unfold isr
      rw [if_neg hn, hd, hl, pushAll_append]
      rfl
  have hgpr : (pushAll (top ++ low) base).1.gpr = c.gpr := pushAll_gpr _ base
  rw [execAll_append, hstub, execAll_push, hgpr, ← pushAll_append]
  rfl

/-- **Saving.**  Whatever the vector, the handler is called with its frame below the aligned stack
pointer, and nothing else was written. -/
theorem entered (handler : Machine → Machine) (n : Nat) (err : BitVec 64) (c : Core) (m : Store)
    (h : 191 ≤ c.rsp.toNat) :
    let t := execAll handler (isr n ++ pushed.map push) (deliver n err (c, m))
    t.1.rsp.toNat = c.frame ∧ load t.2 c.frame = c ∧
      t.2.word (c.frame + INT_NO) = BitVec.ofNat 64 n ∧
      t.2.word (c.frame + ERR_CODE) = (if hasError n then err else 0) ∧
      ∀ x, x < c.frame ∨ c.frame + FRAME ≤ x → t.2 x = m x := by
  intro t
  let base : Machine := ({ c with rsp := c.rsp &&& BitVec.allOnes 64 <<< 4, rflags := c.rflags &&& ~~~IF }, m)
  have ht : t = pushAll (saved n err c) base := entry_eq handler n err c m
  have hbase : base.1.rsp.toNat = c.frame + FRAME := by
    rw [frame_add h]
    exact toNat_clear c.rsp 4
  have hlen : 8 * (saved n err c).length = FRAME := rfl
  have hle : 8 * (saved n err c).length ≤ base.1.rsp.toNat := by
    rw [hbase, hlen]
    exact Nat.le_add_left _ _
  obtain ⟨-, hrsp⟩ := pushAll_core _ base hle
  obtain ⟨hwords, hout⟩ := pushAll_words _ base hle
  rw [hbase] at hrsp hwords hout
  rw [hlen] at hrsp hout
  rw [← ht] at hrsp hwords hout
  -- The word at an offset is the one pushed that far below the top.
  have hword : ∀ k (hk : k < 22), t.2.word (c.frame + (168 - 8 * k)) = (saved n err c).get ⟨k, hk⟩ := by
    intro k hk
    have hat : c.frame + FRAME - 8 * (k + 1) = c.frame + (168 - 8 * k) := by
      have hframe : FRAME = 176 := rfl
      omega
    rw [← hat]
    exact hwords k hk
  refine ⟨hrsp.trans (Nat.add_sub_cancel _ _), ?_, hword 6 (by decide), hword 5 (by decide),
    fun x hx => hout x (hx.imp (fun hx => by omega) id)⟩
  have hgpr : (fun r : Gpr => t.2.word (c.frame + r.offset)) = c.gpr := by
    funext r
    cases r with
    | rax => exact hword 7 (by decide)
    | rbx => exact hword 8 (by decide)
    | rcx => exact hword 9 (by decide)
    | rdx => exact hword 10 (by decide)
    | rsi => exact hword 11 (by decide)
    | rdi => exact hword 12 (by decide)
    | rbp => exact hword 13 (by decide)
    | r8 => exact hword 14 (by decide)
    | r9 => exact hword 15 (by decide)
    | r10 => exact hword 16 (by decide)
    | r11 => exact hword 17 (by decide)
    | r12 => exact hword 18 (by decide)
    | r13 => exact hword 19 (by decide)
    | r14 => exact hword 20 (by decide)
    | r15 => exact hword 21 (by decide)
  unfold load
  rw [hgpr, hword 4 (by decide), hword 3 (by decide), hword 2 (by decide), hword 1 (by decide),
    hword 0 (by decide)]
  rfl

/-- **Restoring.**  Whatever frame the handler returns is what the processor goes on with. -/
theorem left (handler : Machine → Machine) (c : Core) (m : Store) (h : (c.gpr rax).toNat + FRAME < 2 ^ 64) :
    execAll handler (mov_rax_rsp :: (popped.map pop ++ [add_rsp 16, iretq])) (c, m) =
      (load m (c.gpr rax).toNat, m) := by
  let s : Machine := ({ c with rsp := c.gpr rax }, m)
  have hlen : s.1.rsp.toNat + 8 * popped.length < 2 ^ 64 := by
    show (c.gpr rax).toNat + 8 * 15 < _
    have : FRAME = 176 := rfl
    omega
  obtain ⟨hmem, hrsp, hgpr, -⟩ := @execAll_pop handler popped s (by decide) hlen
  let t : Machine := execAll handler (popped.map pop) s
  have hrun : execAll handler (mov_rax_rsp :: (popped.map pop ++ [add_rsp 16, iretq])) (c, m) =
      execAll handler [add_rsp 16, iretq] t := by
    rw [execAll_cons, execAll_append]
    rfl
  have hbase : (t.1.rsp + 16).toNat = (c.gpr rax).toNat + RIP := by
    rw [BitVec.toNat_add]
    show (t.1.rsp.toNat + 16) % 2 ^ 64 = _
    rw [hrsp]
    show ((c.gpr rax).toNat + 120 + 16) % 2 ^ 64 = _
    exact Nat.mod_eq_of_lt (by have : FRAME = 176 := rfl; omega)
  have hall : t.1.gpr = fun r => m.word ((c.gpr rax).toNat + r.offset) := by
    funext r
    cases r with
    | r15 => exact hgpr 0 (by decide)
    | r14 => exact hgpr 1 (by decide)
    | r13 => exact hgpr 2 (by decide)
    | r12 => exact hgpr 3 (by decide)
    | r11 => exact hgpr 4 (by decide)
    | r10 => exact hgpr 5 (by decide)
    | r9 => exact hgpr 6 (by decide)
    | r8 => exact hgpr 7 (by decide)
    | rbp => exact hgpr 8 (by decide)
    | rdi => exact hgpr 9 (by decide)
    | rsi => exact hgpr 10 (by decide)
    | rdx => exact hgpr 11 (by decide)
    | rcx => exact hgpr 12 (by decide)
    | rbx => exact hgpr 13 (by decide)
    | rax => exact hgpr 14 (by decide)
  have hm : t.2 = m := hmem
  rw [hrun]
  show (Core.mk t.1.gpr (t.2.word (t.1.rsp + 16).toNat) (t.2.word ((t.1.rsp + 16).toNat + 8))
      (t.2.word ((t.1.rsp + 16).toNat + 16)) (t.2.word ((t.1.rsp + 16).toNat + 24))
      (t.2.word ((t.1.rsp + 16).toNat + 32)), t.2) = _
  rw [hbase, hm, hall]
  rfl

/-- **An interrupt.**  The handler runs on the machine with the frame in place, and the processor goes
on with the frame it returns. -/
theorem interrupt_eq (handler : Machine → Machine) (n : Nat) (err : BitVec 64) (s : Machine) :
    let e := execAll handler (isr n ++ pushed.map push) (deliver n err s)
    let t := handler (e.1.set rdi e.1.rsp, e.2)
    (t.1.gpr rax).toNat + FRAME < 2 ^ 64 →
      interrupt handler n err s = (load t.2 (t.1.gpr rax).toNat, t.2) := by
  intro e t ht
  have hsplit : isr n ++ isr_common = (isr n ++ pushed.map push) ++
      ([mov_rsp_rdi, call_isr_handler] ++ (mov_rax_rsp :: (popped.map pop ++ [add_rsp 16, iretq]))) := by
    unfold isr_common
    simp only [List.append_assoc, List.cons_append, List.nil_append]
  unfold interrupt
  rw [hsplit, execAll_append, execAll_append]
  exact left handler t.1 t.2 ht

end Interrupts

end Eke
