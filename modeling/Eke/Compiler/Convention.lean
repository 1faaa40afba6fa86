/-
The calling convention.

The caller pushes the arguments, the last one first, and drops them after the call; the
callee finds them above its return address.  For programs of blocks, conditionals, loops,
declarations, assignments and expressions with calls, `Evals` and `Executes` say what the code of
an expression and of a statement does to the stack, whatever it computes.  Both are proved
for every number of steps, by induction on that number: a call and a loop's jump back take
one step each.
-/
import Eke.Compiler.Calls
import Eke.Compiler.Stack

namespace Eke

open Gen Store X86

/-! ### The programs -/

/-- The parameters of the function an entry of the global table stands for. -/
def Node.paramCount : Node → Int
  | .mk _ (.func _ _ _ _ _ argcount) _ _ => argcount
  | _ => 0

/-- `f` has one entry, with `n` parameters, and is none of the builtins. -/
structure Callee (gt : List Node) (f : Name) (n : Nat) : Prop where
  plain : ¬ isBuiltin f
  few : n ≤ 32
  one : ∃ d, gt.filter (fun q => q.funcName = some f) = [d] ∧ d.paramCount = n

/-- The offset of a variable of a function with `lv` bytes of local variables and `argc`
parameters. -/
def Variable (lv argc : Nat) (offset : Int) : Prop := Local lv offset ∨ Param argc offset

section

variable (gt : List Node) (lv argc : Nat)

mutual

/-- An expression of literals, variables, `+`, `-`, `*` and calls. -/
def IsExpr : Node → Prop
  | .null => False
  | .mk _ k _ _ => IsExprKind k

def IsExprKind : Kind → Prop
  | .int _ => True
  | .var _ offset _ => Variable lv argc offset
  | .bin op left right =>
      (op = '+'.toNat ∨ op = '-'.toNat ∨ op = '*'.toNat) ∧ IsExpr left ∧ IsExpr right
  | .call f args _ => Callee gt f (chainLength args) ∧ AreArgs args
  | _ => False

/-- A list of arguments. -/
def AreArgs : Node → Prop
  | .null => True
  | .mk _ k _ nx => IsExprKind k ∧ AreArgs nx

end

/-- A comparison of two expressions. -/
def IsCond : Node → Prop
  | .mk _ (.bin _ left right) _ _ => IsExpr gt lv argc left ∧ IsExpr gt lv argc right
  | _ => False

/-- The variable an assignment goes to. -/
def IsTarget (offset : Int) : Node → Prop
  | .mk _ (.var _ off _) _ _ => Variable lv argc (if offset ≠ 0 then offset else off)
  | _ => False

mutual

def IsStmt : Node → Prop
  | .null => True
  | .mk _ k _ _ => IsStmtKind k

/-- The statements of a block; a variable is a declaration there. -/
def IsBlock : Node → Prop
  | .null => True
  | .mk _ (.var _ offset value) _ nx =>
      (value.isSome → Local lv offset ∧ IsExpr gt lv argc value) ∧ IsBlock nx
  | .mk _ k _ nx => IsStmtKind k ∧ IsBlock nx

def IsStmtKind : Kind → Prop
  | .block body => IsBlock body
  | .if_ cond then_stmt else_stmt => IsCond gt lv argc cond ∧ IsStmt then_stmt ∧ IsStmt else_stmt
  | .while_ cond then_stmt _ => IsCond gt lv argc cond ∧ IsStmt then_stmt
  | .assign offset _ left right => IsTarget lv argc offset left ∧ IsExpr gt lv argc right
  | .return_ value => value.isSome → IsExpr gt lv argc value
  | k => IsExprKind gt lv argc k

end

end

/-- A function with such a body, its offsets as the parser counts them. -/
def IsFunction (gt : List Node) : Node → Prop
  | .mk _ (.func _ _ body _ localvarbyte argcount) _ _ =>
      0 ≤ localvarbyte ∧ localvarbyte % 4 = 0 ∧ localvarbyte < 2 ^ 31 ∧ 0 ≤ argcount ∧
        IsStmt gt localvarbyte.toNat argcount.toNat body
  | _ => True

/-- The bytes of local variables of the function an entry stands for. -/
def Node.localBytes : Node → Int
  | .mk _ (.func _ _ _ _ localvarbyte _) _ _ => localvarbyte
  | _ => 0

def Node.body : Node → Node
  | .mk _ (.func _ _ body _ _ _) _ _ => body
  | _ => .null

/-- The stack a function wants below its return address. -/
def Node.frameNeed : Node → Nat
  | .mk _ (.func _ _ _ _ localvarbyte _) _ _ => localvarbyte.toNat + 64
  | _ => 0

/-- The argument list from the `i`-th argument on. -/
def Node.drop : Nat → Node → Node
  | 0, args => args
  | i + 1, args => Node.drop i args.next

/-! ### What code does to the stack -/

variable {bin : Store} {len : Nat} (M : Setting bin len) (Y : Symbols) (A : Addresses)
  (gt : List Node)

/-- The code of an expression pushes one word. -/
def Evals (n lv argc : Nat) (xs : List Item) : Prop :=
  ∀ p B S c, Code bin len Y p xs → Framed M lv argc B S → On M p B S c →
    Leads Cpu.step n (fun d => M.Low d ∨
      On M (p + size xs) B (S - 8) d ∧ Changes (M.below S) c.mem d.mem) c

/-- The code of a statement runs to its end or leaves the function. -/
def Executes (n lv argc : Nat) (xs : List Item) : Prop :=
  ∀ p B S c, Code bin len Y p xs → Framed M lv argc B S → On M p B S c →
    Leads Cpu.step n (fun d => M.Low d ∨
      (∃ S', S' ≤ S ∧ On M (p + size xs) B S' d ∧ Changes (M.frame B argc) c.mem d.mem) ∨
      Left M B argc c.mem d) c

/-- The arguments `args` were pushed on the way from `c` to `d`, each by its own code. -/
structure Pushed (p B S m : Nat) (args : Node) (k : Nat) (c d : Cpu) : Prop where
  on : On M (p + size (args_items A .code m args k)) B (S - 8 * chainLength args) d
  mem : Changes (M.below S) c.mem d.mem
  words : ∀ i, i < chainLength args → ∃ x, Gets Cpu.step c x ∧ Gets Cpu.step x d ∧
    On M (p + size (args_items A .code (m - i) (args.drop i) k)) B
      (S - 8 * (chainLength args - i)) x ∧
    d.mem.word (S - 8 * (chainLength args - i)) = x.mem.word (S - 8 * (chainLength args - i))

/-- Where the functions of the program stand. -/
def Linked : Prop := ∀ f n, Callee gt f n → Y.func f ≤ len ∧ ∃ d ∈ gt, d.funcName = some f ∧
  ∃ lv k : Nat, d.localBytes = lv ∧
    Code bin len Y (Y.func f) (prologue_items (BitVec.ofInt 32 (lv : Int) + 32) ++
      node_items A .code d.body k ++ epilogue_items) ∧
    IsStmt gt lv n d.body ∧ lv % 4 = 0 ∧ lv < 2 ^ 31 ∧ lv + 64 ≤ M.room

/-- The statements of the program run, for all numbers of steps below `n`. -/
def Below (n : Nat) : Prop := ∀ m, m < n → ∀ lv argc s k, IsStmt gt lv argc s →
  Executes M Y m lv argc (node_items A .code s k)

variable {M Y A gt} {n lv argc : Nat} {p B S k : Nat} {c d : Cpu} {xs ys : List Item}

/-! ### Expressions -/

theorem below_mono {S' x : Nat} (hS : S' ≤ S) (hx : M.below S' x) : M.below S x :=
  ⟨hx.1, Nat.lt_of_lt_of_le hx.2 hS⟩

theorem below_frame (argc : Nat) {x : Nat} (hS : S ≤ B) (hx : M.below S x) : M.frame B argc x :=
  Or.inl ⟨hx.1, Nat.lt_of_lt_of_le hx.2 hS⟩

theorem not_low {x : Cpu} (h : On M p B S x) (hlow : ¬ M.Low x) : M.lo + M.room ≤ S := by
  unfold Setting.Low at hlow
  rw [h.rsp] at hlow
  exact Nat.not_lt.mp hlow

theorem Framed.lower {S' : Nat} (h : Framed M lv argc B S) (hS : S' ≤ S) : Framed M lv argc B S' :=
  ⟨h.words, h.ints, h.params, h.low, h.high, Nat.le_trans hS h.sp⟩

/-- The bookkeeping in front of an expression. -/
theorem Evals.visit (h : Evals M Y n lv argc xs) : Evals M Y n lv argc (.visit :: xs) := by
  intro p B S c hc hf hon
  have := h p B S c hc.tail hf hon
  simpa only [size_cons, Item.size, Nat.zero_add] using this

theorem On.at {q : Nat} (h : On M p B S c) (hq : p = q) : On M q B S c := hq ▸ h

/-- `rax` is pushed. -/
theorem push_leads (hc : Code bin len Y p (.op .push_rax :: xs)) (hf : Framed M lv argc B S)
    (h : On M p B S c) : Leads Cpu.step n (fun d => M.Low d ∨
      On M (p + 1) B (S - 8) d ∧ Changes (M.below S) c.mem d.mem) c := by
  by_cases hlow : M.Low c
  · exact .here (Or.inl hlow)
  have htop := hf.top_le
  obtain ⟨d, hd, hon, hch, -⟩ := h.push hc (by omega) hlow
  exact .ahead hd (.here (Or.inr ⟨hon, hch⟩))

theorem int_evals (v : Nat) : Evals M Y n lv argc [.ins ⟨.movabs_rax, v⟩, .op .push_rax] := by
  intro p B S c hc hf hon
  obtain ⟨d, hd, hon', hmem⟩ := hon.quiet hc rfl
  refine .ahead hd ?_
  have h := push_leads (n := n) hc.tail hf hon'
  rw [hmem] at h
  exact h

theorem var_evals {offset : Int} (hoff : Variable lv argc offset) :
    Evals M Y n lv argc (load_items offset) := by
  intro p B S c hc hf hon
  by_cases hlow : M.Low c
  · exact .here (Or.inl hlow)
  rw [← List.append_nil (load_items offset)] at hc
  exact (hon.load hc hf hoff hlow).mono fun d hd => Or.inr hd

/-- Two expressions, one after the other. -/
theorem pair_leads (hl : Evals M Y n lv argc xs) (hr : Evals M Y n lv argc ys)
    (hc : Code bin len Y p (xs ++ ys)) (hf : Framed M lv argc B S) (h : On M p B S c) :
    Leads Cpu.step n (fun d => M.Low d ∨
      On M (p + size (xs ++ ys)) B (S - 8 - 8) d ∧ Changes (M.below S) c.mem d.mem) c := by
  refine (hl p B S c hc.left hf h).bind fun d hd => ?_
  rcases hd with hlow | ⟨hon, hch⟩
  · exact .here (Or.inl hlow)
  refine (hr _ _ _ d hc.right (hf.lower (Nat.sub_le _ _)) hon).mono fun e he => ?_
  refine he.imp_right fun ⟨hon', hch'⟩ => ⟨?_, hch.trans (hch'.mono fun x => below_mono (by omega))⟩
  rwa [size_append, ← Nat.add_assoc]

/-- Two operands are popped. -/
theorem pops_leads (hc : Code bin len Y p (.op .pop_rbx :: .op .pop_rax :: xs))
    (hf : Framed M lv argc B S) (hS : 16 ≤ S) (h : On M p B (S - 8 - 8) c) {Q : Cpu → Prop}
    (hQ : ∀ d, On M (p + 2) B S d → d.mem = c.mem → d.rax = c.mem.word (S - 8) →
      d.rbx = c.mem.word (S - 8 - 8) → Leads Cpu.step n Q d) : Leads Cpu.step n Q c := by
  have htop := M.top
  have hle := hf.top_le
  have hsum : S - 8 - 8 + 8 = S - 8 := by omega
  obtain ⟨d, hd, hon, hmem, hrbx⟩ := h.pop_rbx hc (by omega)
  obtain ⟨e, he, hon', hmem', hrax, hrbx'⟩ := hon.pop_rax hc.tail (by omega)
  rw [hmem, hsum] at hrax
  rw [hsum, show S - 8 + 8 = S by omega] at hon'
  exact .ahead hd (.ahead he (hQ e hon' (hmem'.trans hmem) hrax (hrbx'.trans hrbx)))

/-- The operator of a binary expression. -/
theorem bin_evals {op : Int} (hop : op = '+'.toNat ∨ op = '-'.toNat ∨ op = '*'.toNat)
    (hl : Evals M Y n lv argc xs) (hr : Evals M Y n lv argc ys) :
    Evals M Y n lv argc (xs ++ ys ++ [.op .pop_rbx, .op .pop_rax] ++ bin_items op ++ [.op .push_rax]) := by
  obtain ⟨i, hitems, hq⟩ : ∃ i, bin_items op = [.op i] ∧ quiet i = true := by
    rcases hop with rfl | rfl | rfl
    · exact ⟨.add_rbx_rax, by simp [bin_items], rfl⟩
    · exact ⟨.sub_rbx_rax, by simp [bin_items], rfl⟩
    · exact ⟨.imul_rbx_rax, by simp [bin_items], rfl⟩
  intro p B S c hc hf hon
  rw [hitems] at hc ⊢
  have hpair := hc.left.left.left
  have hrest : Code bin len Y (p + size (xs ++ ys))
      (.op .pop_rbx :: .op .pop_rax :: .op i :: [.op .push_rax]) := by
    have := hc
    simp only [List.append_assoc] at this
    rw [← List.append_assoc] at this
    exact this.right
  refine (pair_leads hl hr hpair hf hon).gets.bind fun d hd => ?_
  obtain ⟨-, hlow | ⟨hon1, hch1⟩⟩ := hd
  · exact .here (Or.inl hlow)
  by_cases hlow : M.Low d
  · exact .here (Or.inl hlow)
  have hroom := not_low hon1 hlow
  have hmargin := M.margin
  refine pops_leads hrest hf (by omega) hon1 fun e hon2 hmem2 _ _ => ?_
  obtain ⟨e', he', hon3, hmem3⟩ := hon2.quiet hrest.tail.tail hq
  refine .ahead he' ((push_leads hrest.tail.tail.tail hf hon3).mono fun r hr => ?_)
  refine hr.imp_right fun ⟨hon4, hch4⟩ => ⟨?_, hch1.trans ?_⟩
  · refine hon4.at ?_
    simp only [size_append, size_cons, size_nil, Nat.add_assoc, Nat.add_zero]
    rfl
  · rwa [hmem3, hmem2] at hch4

/-! ### Arguments -/

/-- The code of an argument list pushes the arguments. -/
def ArgsRun (M : Setting bin len) (Y : Symbols) (A : Addresses) (n lv argc m : Nat) (args : Node)
    (k : Nat) : Prop :=
  ∀ p B S c, Code bin len Y p (args_items A .code m args k) → Framed M lv argc B S →
    On M p B S c → Leads Cpu.step n (fun d => M.Low d ∨ Pushed M A p B S m args k c d) c

theorem args_nil (m : Nat) : ArgsRun M Y A n lv argc m .null k := by
  have hnil : args_items A .code m .null k = [] := by cases m <;> simp only [args_items]
  intro p B S c hc hf hon
  refine .here (Or.inr ⟨?_, .refl, fun i hi => absurd hi (Nat.not_lt_zero i)⟩)
  rw [hnil]
  exact hon

theorem args_cons {m : Nat} {kind : Kind} {t : Int} {ix nx : Node}
    (hargs : ArgsRun M Y A n lv argc m nx k)
    (hone : Evals M Y n lv argc (kind_items A .code kind (k + allocs (args_items A .code m nx k)))) :
    ArgsRun M Y A n lv argc (m + 1) (.mk t kind ix nx) k := by
  have hitems : args_items A .code (m + 1) (.mk t kind ix nx) k =
      args_items A .code m nx k ++ .visit ::
        kind_items A .code kind (k + allocs (args_items A .code m nx k)) := by
    simp only [args_items, List.append_assoc, List.singleton_append]
  intro p B S c hc hf hon
  rw [hitems] at hc
  refine (hargs p B S c hc.left hf hon).gets.bind fun d hd => ?_
  obtain ⟨hcd, hlow | hpushed⟩ := hd
  · exact .here (Or.inl hlow)
  refine (hone.visit _ _ _ d hc.right (hf.lower (Nat.sub_le _ _)) hpushed.on).gets.mono fun e he => ?_
  obtain ⟨hde, he⟩ := he
  refine he.imp_right fun ⟨hone', hch⟩ => ?_
  have hend : On M (p + size (args_items A .code (m + 1) (.mk t kind ix nx) k)) B
      (S - 8 * (chainLength nx + 1)) e := by
    rw [hitems, size_append, ← Nat.add_assoc, show S - 8 * (chainLength nx + 1)
      = S - 8 * chainLength nx - 8 by omega]
    exact hone'
  refine ⟨hend, hpushed.mem.trans (hch.mono fun x => below_mono (by omega)), fun i hi => ?_⟩
  cases i with
  | zero => exact ⟨e, hcd.trans hde, .refl, hend, rfl⟩
  | succ i =>
      have hi' : i < chainLength nx := Nat.lt_of_succ_lt_succ hi
      obtain ⟨x, hcx, hxd, honx, hword⟩ := hpushed.words i hi'
      have hsub : chainLength (Node.mk t kind ix nx) - (i + 1) = chainLength nx - i := by
        simp only [chainLength]
        omega
      refine ⟨x, hcx, hxd.trans hde, ?_, ?_⟩
      · rw [hsub, Nat.add_sub_add_right]
        exact honx
      · rw [hsub, ← hword]
        refine hch.word fun y hy hy' hbelow => ?_
        have := hbelow.2
        omega

/-! ### Calls -/

/-- The callee's body starts: the processor came from a call at `q`, where it was in state `d`
with stack pointer `S`. -/
structure AtBody (M : Setting bin len) (Y : Symbols) (f : Name) (lv q B S : Nat) (d e : Cpu) :
    Prop where
  on : ∃ S', S' ≤ S - 16 ∧
    On M (Y.func f + size (prologue_items (BitVec.ofInt 32 (lv : Int) + 32))) (S - 16) S' e
  ret : e.mem.word (S - 8) = place M.base (q + 5)
  rbp : (e.mem.word (S - 16)).toNat = B
  mem : Changes (M.below S) d.mem e.mem

/-- The call instruction and the callee's prologue. -/
theorem enter_leads {f : Name} (h : On M p B S d) (hc : Code bin len Y p (.call f :: xs))
    (hS : S ≤ M.hi) (hlow : ¬ M.Low d) (hf : Y.func f ≤ len)
    (hpro : Code bin len Y (Y.func f) (prologue_items (BitVec.ofInt 32 (lv : Int) + 32) ++ ys))
    (hroom : lv + 64 ≤ M.room) :
    ∃ e, d.step = some e ∧ ∀ m, Leads Cpu.step m (AtBody M Y f lv p B S d) e := by
  have hge := not_low h hlow
  obtain ⟨e, he, hon, hmem⟩ := h.call hc hf hS hlow
  refine ⟨e, he, fun m => ?_⟩
  refine (hon.prologue hpro rfl (by omega) (by omega)).mono fun g hg => ?_
  obtain ⟨S', hS', hon', hmem', -⟩ := hg
  refine ⟨⟨S', hS', hon'⟩, ?_, ?_, ?_⟩
  · rw [hmem', word_setWord_out (by omega), hmem, word_setWord]
  · rw [hmem', show S - 16 = S - 8 - 8 by omega, word_setWord]
    exact hon.rbp
  · rw [hmem', hmem]
    exact (changes_setWord fun x hx hx' => ⟨by omega, by omega⟩).trans
      (changes_setWord fun x hx hx' => ⟨by omega, by omega⟩)

/-- The callee's body and its epilogue. -/
theorem body_leads {f : Name} {q m argc' : Nat} {body : Node} {e : Cpu}
    (h : AtBody M Y f lv q B S d e) (hge : M.lo + M.room ≤ S)
    (hargs : argc' ≤ 32) (hhi : S + 8 * argc' + 8 ≤ M.hi)
    (hcode : Code bin len Y (Y.func f) (prologue_items (BitVec.ofInt 32 (lv : Int) + 32) ++
      node_items A .code body k ++ epilogue_items))
    (hwords : lv % 4 = 0) (hints : lv < 2 ^ 31) (hroom : lv + 64 ≤ M.room)
    (hbody : Executes M Y m lv argc' (node_items A .code body k)) :
    Leads Cpu.step m (fun r => M.Low r ∨ Left M (S - 16) argc' e.mem r) e := by
  obtain ⟨S', hS', hon⟩ := h.on
  have htop := M.top
  have hf : Framed M lv argc' (S - 16) S' := ⟨hwords, hints, by omega, by omega, by omega, hS'⟩
  refine (hbody _ _ _ e hcode.left.right hf hon).bind fun r hr => ?_
  rcases hr with hlow | ⟨S'', -, honr, hch⟩ | hleft
  · exact .here (Or.inl hlow)
  · have hepi : Code bin len Y (Y.func f + size (prologue_items (BitVec.ofInt 32 (lv : Int) + 32) ++
        node_items A .code body k)) (epilogue_items ++ []) := by
      rw [List.append_nil]
      exact hcode.right
    refine ((honr.at (by rw [size_append, Nat.add_assoc])).epilogue argc' hepi (by omega)).mono
      fun x hx => Or.inr ⟨?_, ?_, hx.rsp, hch.trans hx.mem⟩
    · rw [hx.rip]
      exact hch.word fun y hy hy' hw => by unfold Setting.frame at hw; omega
    · rw [hx.rbp]
      exact hch.word fun y hy hy' hw => by unfold Setting.frame at hw; omega
  · exact .here (Or.inr hleft)

/-- The callee returns to the instruction behind the call. -/
theorem back_on {f : Name} {argc' : Nat} {e r : Cpu} (h : AtBody M Y f lv p B S d e)
    (hloaded : Loaded bin len M.base e.mem) (hleft : Left M (S - 16) argc' e.mem r)
    (hge : M.lo + M.room ≤ S) (hhi : S + 8 * argc' + 8 ≤ M.hi) : On M (p + 5) B S r := by
  have hmargin := M.margin
  refine ⟨?_, ?_, ?_, ?_⟩
  · refine Setting.loaded hloaded hleft.mem fun x hx => ?_
    unfold Setting.frame at hx
    omega
  · rw [hleft.rip, show S - 16 + 8 = S - 8 by omega]
    exact h.ret
  · rw [hleft.rbp]
    exact h.rbp
  · rw [hleft.rsp]
    omega

/-- Back at the caller the arguments are dropped and the result is pushed. -/
theorem leave_leads {f : Name} {argc' : Nat} {e r : Cpu} (h : AtBody M Y f lv p B S d e)
    (hon : On M (p + 5) B S r) (hleft : Left M (S - 16) argc' e.mem r)
    (hc : Code bin len Y p (call_items f argc')) (hge : M.lo + M.room ≤ S) (hargs : argc' ≤ 32)
    (hhi : S + 8 * argc' + 8 ≤ M.hi) :
    Leads Cpu.step n (fun x => M.Low x ∨ On M (p + size (call_items f argc')) B (S + 8 * argc' - 8) x ∧
      Changes (M.below (S + 8 * argc')) d.mem x.mem ∧ x.mem.word (S + 8 * argc' - 8) = r.rax) r := by
  have hmargin := M.margin
  have htop := M.top
  have hchanges : Changes (M.below (S + 8 * argc')) d.mem r.mem := by
    refine (h.mem.mono fun x => below_mono (by omega)).trans (hleft.mem.mono fun x hx => ?_)
    unfold Setting.frame at hx
    exact ⟨by omega, by omega⟩
  -- the push of the result
  have hpush : ∀ (q : Nat) (x : Cpu), Code bin len Y q [.op .push_rax] →
      On M q B (S + 8 * argc') x → x.mem = r.mem → x.rax = r.rax →
      q + 1 = p + size (call_items f argc') →
      Leads Cpu.step n (fun x => M.Low x ∨ On M (p + size (call_items f argc')) B (S + 8 * argc' - 8) x ∧
        Changes (M.below (S + 8 * argc')) d.mem x.mem ∧ x.mem.word (S + 8 * argc' - 8) = r.rax) x := by
    intro q x hcode honx hmem hrax hq
    by_cases hlow : M.Low x
    · exact .here (Or.inl hlow)
    obtain ⟨y, hy, hony, hch, hword⟩ := honx.push hcode (by omega) hlow
    rw [hmem] at hch
    rw [hrax] at hword
    exact .ahead hy (.here (Or.inr ⟨hony.at hq, hchanges.trans hch, hword⟩))
  unfold call_items at hc hpush ⊢
  by_cases hpos : 0 < argc'
  · rw [if_pos hpos] at hc hpush ⊢
    have hrest : Code bin len Y (p + 5) [.ins ⟨.add_rsp, (BitVec.ofNat 32 (argc' * 8)).toNat⟩,
        .op .push_rax] := hc.tail
    obtain ⟨x, hx, honx, hmem, hrax⟩ := hon.drop hrest hargs (by omega)
    rw [Nat.mul_comm argc' 8] at honx
    exact .ahead hx (hpush _ x hrest.tail honx hmem hrax rfl)
  · obtain rfl : argc' = 0 := by omega
    rw [if_neg hpos] at hc hpush ⊢
    exact hpush _ r hc.tail hon rfl rfl rfl

/-- A call is over: the word that was in `rax` when the callee had returned was pushed, and the
stack above the arguments is as it was. -/
structure Returned (M : Setting bin len) (t q B S S' : Nat) (m : Store) (e x : Cpu) : Prop where
  on : On M q B (S - 8) x
  mem : Changes (M.below S) m x.mem
  result : ∃ r, Gets Cpu.step e r ∧ On M t B S' r ∧ x.mem.word (S - 8) = r.rax

/-- From the start of the callee's body to the end of the call. -/
theorem return_leads {f : Name} {m argc' : Nat} {body : Node} {e : Cpu}
    (h : AtBody M Y f lv p B S d e) (hc : Code bin len Y p (call_items f argc'))
    (hge : M.lo + M.room ≤ S) (hargs : argc' ≤ 32) (hhi : S + 8 * argc' + 8 ≤ M.hi)
    (hcode : Code bin len Y (Y.func f) (prologue_items (BitVec.ofInt 32 (lv : Int) + 32) ++
      node_items A .code body k ++ epilogue_items))
    (hwords : lv % 4 = 0) (hints : lv < 2 ^ 31) (hroom : lv + 64 ≤ M.room)
    (hbody : Executes M Y m lv argc' (node_items A .code body k)) :
    Leads Cpu.step m (fun x => M.Low x ∨
      Returned M (p + 5) (p + size (call_items f argc')) B (S + 8 * argc') S d.mem e x) e := by
  obtain ⟨_, _, hon⟩ := h.on
  refine (body_leads h hge hargs hhi hcode hwords hints hroom hbody).gets.bind fun r hr => ?_
  obtain ⟨her, hlow | hleft⟩ := hr
  · exact .here (Or.inl hlow)
  have hback := back_on h hon.loaded hleft hge hhi
  refine (leave_leads h hback hleft hc hge hargs hhi).mono fun x hx => ?_
  exact hx.imp_right fun ⟨honx, hch, hword⟩ => ⟨honx, hch, r, her, hback, hword⟩

theorem call_kind_items {f : Name} {args : Node} (h : Callee gt f (chainLength args)) (c : Int)
    (k : Nat) : kind_items A .code (.call f args c) k =
      args_items A .code 32 args k ++ call_items f (chainLength args) := by
  have hplain := h.plain
  unfold isBuiltin at hplain
  simp only [not_or] at hplain
  simp only [kind_items, if_neg hplain.1, if_neg hplain.2.2.2]
  have hcut : cut_items Limits.code.args args = [] := cut_none h.few
  have hmin : min (chainLength args) Limits.code.args = chainLength args := Nat.min_eq_left h.few
  rw [if_neg (by simp only [not_or]; exact ⟨hplain.2.1, hplain.2.2.1⟩), hcut, hmin]
  rfl

/-- The code of a call pushes its result. -/
theorem call_evals {f : Name} {args : Node} (hlink : Linked M Y A gt) (hbelow : Below M Y A gt n)
    (hcallee : Callee gt f (chainLength args)) (hargs : ArgsRun M Y A n lv argc 32 args k) (c' : Int) :
    Evals M Y n lv argc (kind_items A .code (.call f args c') k) := by
  rw [call_kind_items hcallee]
  intro p B S c hc hf hon
  obtain ⟨hlen, r, -, -, lv', j, -, hcode, hstmt, hwords, hints, hroom⟩ := hlink f _ hcallee
  refine (hargs p B S c hc.left hf hon).bind fun d hd => ?_
  rcases hd with hlow | hpushed
  · exact .here (Or.inl hlow)
  by_cases hlow : M.Low d
  · exact .here (Or.inl hlow)
  have hge := not_low hpushed.on hlow
  have hmargin := M.margin
  have hle := hf.top_le
  have hsum : S - 8 * chainLength args + 8 * chainLength args = S := by omega
  have hpro : Code bin len Y (Y.func f) (prologue_items (BitVec.ofInt 32 (lv' : Int) + 32) ++
      (node_items A .code r.body j ++ epilogue_items)) := by rwa [← List.append_assoc]
  obtain ⟨e, he, hlead⟩ := enter_leads hpushed.on hc.right (by omega) hlow hlen hpro hroom
  cases n with
  | zero => trivial
  | succ m =>
      -- the call instruction is the step that the callee's budget is short of
      refine .next he ((hlead m).bind fun g hg => ?_)
      refine (return_leads hg hc.right hge hcallee.few (by omega) hcode hwords hints hroom
        (hbelow m (Nat.lt_succ_self m) _ _ _ _ hstmt)).mono fun x hx => hx.imp_right fun hret => ?_
      rw [hsum] at hret
      exact ⟨hret.on.at (by rw [size_append, Nat.add_assoc]), hpushed.mem.trans
        (hret.mem.mono fun y hy => hy)⟩

mutual

/-- The code of every expression pushes one word. -/
theorem expr_evals (hlink : Linked M Y A gt) (hbelow : Below M Y A gt n) :
    ∀ (e : Node) (k : Nat), IsExpr gt lv argc e →
    Evals M Y n lv argc (node_items A .code e k)
  | .null, k, h => by simp only [IsExpr] at h
  | .mk _ kind _ _, k, h => by
      simp only [IsExpr] at h
      simp only [node_items]
      exact (expr_kind_evals hlink hbelow kind k h).visit

theorem expr_kind_evals (hlink : Linked M Y A gt) (hbelow : Below M Y A gt n) :
    ∀ (kind : Kind) (k : Nat), IsExprKind gt lv argc kind →
    Evals M Y n lv argc (kind_items A .code kind k)
  | .int v, k, _ => by
      simp only [kind_items]
      exact int_evals _
  | .var _ offset _, k, h => by
      simp only [IsExprKind] at h
      simp only [kind_items]
      exact var_evals h
  | .bin op left right, k, h => by
      simp only [IsExprKind] at h
      obtain ⟨hop, hl, hr⟩ := h
      simp only [kind_items]
      exact bin_evals hop (expr_evals hlink hbelow left k hl) (expr_evals hlink hbelow right _ hr)
  | .call f args c, k, h => by
      simp only [IsExprKind] at h
      exact call_evals hlink hbelow h.1 (args_run hlink hbelow args 32 k h.1.few h.2) c

theorem args_run (hlink : Linked M Y A gt) (hbelow : Below M Y A gt n) :
    ∀ (args : Node) (m k : Nat), chainLength args ≤ m → AreArgs gt lv argc args →
    ArgsRun M Y A n lv argc m args k
  | .null, m, k, _, _ => args_nil m
  | .mk _ kind _ nx, m, k, hm, h => by
      simp only [AreArgs] at h
      cases m with
      | zero => cases hm
      | succ m =>
          exact args_cons (args_run hlink hbelow nx m k (Nat.le_of_succ_le_succ hm) h.2) (expr_kind_evals hlink hbelow kind _ h.1)

end

/-! ### Statements -/

/-- The code of a condition ends behind it or at the label. -/
def Tests (M : Setting bin len) (Y : Symbols) (n lv argc : Nat) (xs : List Item) (l : Nat) : Prop :=
  ∀ p B S c, Code bin len Y p xs → Framed M lv argc B S → On M p B S c → Y.label l ≤ len →
    Leads Cpu.step n (fun d => M.Low d ∨
      (On M (p + size xs) B S d ∨ On M (Y.label l) B S d) ∧ Changes (M.below S) c.mem d.mem) c

theorem compare_tests {cond : Cond} {l : Nat} (hl : Evals M Y n lv argc xs)
    (hr : Evals M Y n lv argc ys) :
    Tests M Y n lv argc ([.visit] ++ xs ++ ys ++
      [.op .pop_rbx, .op .pop_rax, .op .cmp_rbx_rax, .jump (.jcc cond) l]) l := by
  intro p B S c hc hf hon hlab
  have hpair : Code bin len Y p ([.visit] ++ xs ++ ys) := hc.left
  refine (pair_leads hl.visit hr hpair hf hon).bind fun d hd => ?_
  rcases hd with hlow | ⟨hon1, hch1⟩
  · exact .here (Or.inl hlow)
  by_cases hlow : M.Low d
  · exact .here (Or.inl hlow)
  have hroom := not_low hon1 hlow
  have hmargin := M.margin
  have hrest : Code bin len Y (p + size (.visit :: xs ++ ys))
      [.op .pop_rbx, .op .pop_rax, .op .cmp_rbx_rax, .jump (.jcc cond) l] := hc.right
  refine pops_leads hrest hf (by omega) hon1 fun e hon2 hmem2 _ _ => ?_
  obtain ⟨e', he', hon3, hmem3⟩ := hon2.quiet hrest.tail.tail rfl
  obtain ⟨r, hr', hon4, hmem4⟩ := hon3.branch hrest.tail.tail.tail hlab
  refine .ahead he' (.ahead hr' (.here (Or.inr ⟨?_, ?_⟩)))
  · have hjcc : Item.size (.jump (.jcc cond) l) = 6 := by cases cond <;> rfl
    split at hon4
    · exact Or.inr hon4
    · refine Or.inl (hon4.at ?_)
      simp only [size_append, size_cons, size_nil, hjcc, Nat.add_assoc, Nat.add_zero]
      rfl
  · rw [hmem4, hmem3, hmem2]
    exact hch1

theorem Left.after {m m' : Store} (h : Left M B argc m' d) (hm : Changes (M.frame B argc) m m') :
    Left M B argc m d := by
  refine ⟨?_, ?_, h.rsp, hm.trans h.mem⟩
  · rw [h.rip]
    exact hm.word fun x hx hx' hw => by unfold Setting.frame at hw; omega
  · rw [h.rbp]
    exact hm.word fun x hx hx' hw => by unfold Setting.frame at hw; omega

/-- What the code of a statement does, with more of it to come. -/
theorem Executes.step {Q : Cpu → Prop} (h : Executes M Y n lv argc xs) (hc : Code bin len Y p xs)
    (hf : Framed M lv argc B S) (hon : On M p B S c) (hlow : ∀ d, M.Low d → Q d)
    (hleft : ∀ d, Left M B argc c.mem d → Q d)
    (hend : ∀ S' d, S' ≤ S → On M (p + size xs) B S' d → Changes (M.frame B argc) c.mem d.mem →
      Leads Cpu.step n Q d) : Leads Cpu.step n Q c := by
  refine (h p B S c hc hf hon).bind fun d hd => ?_
  rcases hd with hd | ⟨S', hS', hon', hch⟩ | hd
  · exact .here (hlow d hd)
  · exact hend S' d hS' hon' hch
  · exact .here (hleft d hd)

theorem Executes.nil : Executes M Y n lv argc [] :=
  fun _ _ S _ _ _ hon => .here (Or.inr (Or.inl ⟨S, Nat.le_refl S, hon, .refl⟩))

theorem Executes.append (hx : Executes M Y n lv argc xs) (hy : Executes M Y n lv argc ys) :
    Executes M Y n lv argc (xs ++ ys) := by
  intro p B S c hc hf hon
  refine hx.step hc.left hf hon (fun d => Or.inl) (fun d h => Or.inr (Or.inr h))
    fun S' d hS' hon' hch => ?_
  refine hy.step hc.right (hf.lower hS') hon' (fun d => Or.inl)
    (fun d h => Or.inr (Or.inr (h.after hch))) fun S'' e hS'' hon'' hch' => ?_
  refine .here (Or.inr (Or.inl ⟨S'', Nat.le_trans hS'' hS', hon''.at ?_, hch.trans hch'⟩))
  rw [size_append, Nat.add_assoc]

theorem size_visit : size (.visit :: xs) = size xs := Nat.zero_add _

theorem Code.visit (h : Code bin len Y p xs) : Code bin len Y p (.visit :: xs) :=
  ⟨⟨trivial, h.here⟩, by rw [size_visit]; exact h.inside⟩

theorem Executes.visit (h : Executes M Y n lv argc xs) : Executes M Y n lv argc (.visit :: xs) := by
  intro p B S c hc hf hon
  have := h p B S c hc.tail hf hon
  simpa only [size_cons, Item.size, Nat.zero_add] using this

/-- An expression as a statement leaves its word on the stack. -/
theorem Evals.runs (h : Evals M Y n lv argc xs) : Executes M Y n lv argc xs := by
  intro p B S c hc hf hon
  refine (h p B S c hc hf hon).mono fun d hd => hd.imp_right fun ⟨hon', hch⟩ => Or.inl ?_
  exact ⟨S - 8, Nat.sub_le _ _, hon', hch.mono fun x => below_frame argc hf.sp⟩

/-- An assignment, or a declaration with its initializer. -/
theorem store_executes {offset : Int} (hoff : Variable lv argc offset) (h : Evals M Y n lv argc xs) :
    Executes M Y n lv argc (xs ++ store_items offset) := by
  intro p B S c hc hf hon
  refine (h p B S c hc.left hf hon).bind fun d hd => ?_
  rcases hd with hlow | ⟨hon1, hch1⟩
  · exact .here (Or.inl hlow)
  by_cases hlow : M.Low d
  · exact .here (Or.inl hlow)
  have hroom := not_low hon1 hlow
  have hmargin := M.margin
  have hS : S - 8 + 8 = S := by omega
  have hrest : Code bin len Y (p + size xs) (store_items offset ++ []) := by
    rw [List.append_nil]
    exact hc.right
  refine (hon1.store hrest (by rwa [hS]) hoff).mono fun e he => Or.inr (Or.inl ?_)
  rw [hS] at he
  refine ⟨S, Nat.le_refl S, he.1.at (by rw [size_append, Nat.add_assoc]), ?_⟩
  exact (hch1.mono fun x => below_frame argc hf.sp).trans he.2

/-- A return of a value. -/
theorem return_executes (h : Evals M Y n lv argc xs) :
    Executes M Y n lv argc (xs ++ [.op .pop_rax] ++ epilogue_items) := by
  intro p B S c hc hf hon
  have htop := M.top
  have hhigh := hf.high
  refine (h p B S c hc.left.left hf hon).bind fun d hd => ?_
  rcases hd with hlow | ⟨hon1, hch1⟩
  · exact .here (Or.inl hlow)
  have hrest : Code bin len Y (p + size xs) (.op .pop_rax :: (epilogue_items ++ [])) := by
    rw [List.append_assoc] at hc
    exact hc.right
  have hsp := hf.sp
  obtain ⟨e, he, hon2, hmem, -⟩ := hon1.pop_rax hrest (by omega)
  refine .ahead he ((hon2.epilogue argc hrest.tail (by omega)).mono fun r hr => ?_)
  rw [hmem] at hr
  exact Or.inr (Or.inr (hr.after (hch1.mono fun x => below_frame argc hf.sp)))

theorem return_void_executes : Executes M Y n lv argc ([.op .xor_eax_eax] ++ epilogue_items) := by
  intro p B S c hc hf hon
  have htop := M.top
  have hhigh := hf.high
  have hrest : Code bin len Y p (.op .xor_eax_eax :: (epilogue_items ++ [])) := hc
  obtain ⟨e, he, hon2, hmem⟩ := hon.quiet hrest rfl
  refine .ahead he ((hon2.epilogue argc hrest.tail (by omega)).mono fun r hr => ?_)
  rw [hmem] at hr
  exact Or.inr (Or.inr hr)

theorem mark_at {l : Nat} (h : Code bin len Y p (.mark l :: xs)) : Y.label l = p ∧ p ≤ len :=
  ⟨h.here.1, Nat.le_trans (Nat.le_add_right _ _) h.inside⟩

/-- What a condition does and the code behind it, with more to come behind that or at the label. -/
theorem Tests.step {Q : Cpu → Prop} {l : Nat} (hcond : Tests M Y n lv argc xs l)
    (ht : Executes M Y n lv argc ys) (hc : Code bin len Y p (xs ++ ys)) (hf : Framed M lv argc B S)
    (hon : On M p B S c) (hle : Y.label l ≤ len) (hlow : ∀ d, M.Low d → Q d)
    (hleft : ∀ d, Left M B argc c.mem d → Q d)
    (hend : ∀ S' d, S' ≤ S → On M (p + size (xs ++ ys)) B S' d → Changes (M.frame B argc) c.mem d.mem →
      Leads Cpu.step n Q d)
    (hjump : ∀ d, On M (Y.label l) B S d → Changes (M.frame B argc) c.mem d.mem → Leads Cpu.step n Q d) :
    Leads Cpu.step n Q c := by
  refine (hcond p B S c hc.left hf hon hle).bind fun d hd => ?_
  rcases hd with hd | ⟨hond, hch⟩
  · exact .here (hlow d hd)
  have hframe := hch.mono fun x => below_frame argc hf.sp
  rcases hond with hond | hond
  · refine ht.step hc.right hf hond hlow (fun e he => hleft e (he.after hframe))
      fun S' e hS' hon' hch' => hend S' e hS' (hon'.at ?_) (hframe.trans hch')
    rw [size_append, Nat.add_assoc]
  · exact hjump d hond hframe

/-- A conditional without an else branch. -/
theorem if_executes {l : Nat} (hcond : Tests M Y n lv argc xs l) (ht : Executes M Y n lv argc ys) :
    Executes M Y n lv argc ([.alloc, .alloc] ++ xs ++ ys ++ [] ++ [.mark l]) := by
  intro p B S c hc hf hon
  have hc' : Code bin len Y p (xs ++ ys ++ [.mark l]) := by
    rw [List.append_nil, List.append_assoc, List.append_assoc] at hc
    rw [List.append_assoc]
    exact hc.right
  have hsize : p + size ([.alloc, .alloc] ++ xs ++ ys ++ [] ++ [.mark l]) = p + size (xs ++ ys) := by
    simp only [size_append, size_cons, size_nil, Item.size]
    omega
  obtain ⟨hlab, hle⟩ := mark_at hc'.right
  rw [hsize]
  refine hcond.step ht hc'.left hf hon (by omega) (fun d => Or.inl) (fun d h => Or.inr (Or.inr h)) ?_ ?_
  · intro S' d hS' hon' hch
    exact .here (Or.inr (Or.inl ⟨S', hS', hon', hch⟩))
  · intro d hond hch
    exact .here (Or.inr (Or.inl ⟨S, Nat.le_refl S, hond.at hlab, hch⟩))

/-- A conditional with an else branch. -/
theorem if_else_executes {zs : List Item} {l l' : Nat} (hcond : Tests M Y n lv argc xs l)
    (ht : Executes M Y n lv argc ys) (he : Executes M Y n lv argc zs) :
    Executes M Y n lv argc ([.alloc, .alloc] ++ xs ++ ys ++ ([.jump .jmp l', .mark l] ++ zs) ++
      [.mark l']) := by
  intro p B S c hc hf hon
  have hc' : Code bin len Y p (xs ++ ys ++ (.jump .jmp l' :: .mark l :: (zs ++ [.mark l']))) := by
    have h : Code bin len Y p ([.alloc, .alloc] ++
        (xs ++ ys ++ (.jump .jmp l' :: .mark l :: (zs ++ [.mark l'])))) := by
      simpa only [List.append_assoc, List.cons_append, List.nil_append] using hc
    exact h.right
  have hjump := hc'.right
  have helse : Code bin len Y (p + size (xs ++ ys) + 5) (.mark l :: (zs ++ [.mark l'])) := hjump.tail
  have hzs : Code bin len Y (p + size (xs ++ ys) + 5) (zs ++ [.mark l']) := helse.tail
  obtain ⟨hlab, hle⟩ := mark_at helse
  obtain ⟨hlab', hle'⟩ := mark_at hzs.right
  have hsize : p + size ([.alloc, .alloc] ++ xs ++ ys ++ ([.jump .jmp l', .mark l] ++ zs) ++ [.mark l'])
      = p + size (xs ++ ys) + 5 + size zs := by
    have hjmp : Op.jmp.opcode.length = 1 := rfl
    simp only [size_append, size_cons, size_nil, Item.size, hjmp]
    omega
  rw [hsize]
  refine hcond.step ht hc'.left hf hon (by omega) (fun d => Or.inl) (fun d h => Or.inr (Or.inr h)) ?_ ?_
  · intro S' d hS' hon' hch
    obtain ⟨r, hr, honr, hmem⟩ := hon'.jump hjump (by omega)
    refine .ahead hr (.here (Or.inr (Or.inl ⟨S', hS', honr.at hlab', ?_⟩)))
    rwa [hmem]
  · intro d hond hch
    refine he.step hzs.left hf (hond.at hlab) (fun e => Or.inl)
      (fun e he => Or.inr (Or.inr (he.after hch))) fun S' e hS' hon' hch' => ?_
    exact .here (Or.inr (Or.inl ⟨S', hS', hon', hch.trans hch'⟩))

/-- A loop; the jump back takes the step that the next round is short of. -/
theorem while_executes {l l' : Nat} (hcond : Tests M Y n lv argc xs l') (ht : Executes M Y n lv argc ys)
    (hloop : ∀ m, m < n → Executes M Y m lv argc ([.alloc, .alloc, .mark l] ++ xs ++ ys ++
      [.jump .jmp l, .mark l'])) :
    Executes M Y n lv argc ([.alloc, .alloc, .mark l] ++ xs ++ ys ++ [.jump .jmp l, .mark l']) := by
  intro p B S c hc hf hon
  have hmark : Code bin len Y p (.mark l :: (xs ++ ys ++ [.jump .jmp l, .mark l'])) := by
    have h : Code bin len Y p ([.alloc, .alloc] ++
        (.mark l :: (xs ++ ys ++ [.jump .jmp l, .mark l']))) := by
      simpa only [List.append_assoc, List.cons_append, List.nil_append] using hc
    exact h.right
  have hc' : Code bin len Y p (xs ++ ys ++ [.jump .jmp l, .mark l']) := hmark.tail
  have hjump := hc'.right
  have hend : Code bin len Y (p + size (xs ++ ys) + 5) [.mark l'] := hjump.tail
  obtain ⟨hlab, hle⟩ := mark_at hmark
  obtain ⟨hlab', hle'⟩ := mark_at hend
  have hsize : p + size ([.alloc, .alloc, .mark l] ++ xs ++ ys ++ [.jump .jmp l, .mark l'])
      = p + size (xs ++ ys) + 5 := by
    have hjmp : Op.jmp.opcode.length = 1 := rfl
    simp only [size_append, size_cons, size_nil, Item.size, hjmp]
    omega
  rw [hsize]
  refine hcond.step ht hc'.left hf hon (by omega) (fun d => Or.inl) (fun d h => Or.inr (Or.inr h)) ?_ ?_
  · intro S' d hS' hon' hch
    obtain ⟨r, hr, honr, hmem⟩ := hon'.jump hjump (by omega)
    have hback : Changes (M.frame B argc) c.mem r.mem := by
      rw [hmem]
      exact hch
    cases n with
    | zero => trivial
    | succ m =>
        refine .next hr ((hloop m (Nat.lt_succ_self m)).step hc (hf.lower hS') (honr.at hlab)
          (fun e => Or.inl) (fun e he => Or.inr (Or.inr (he.after hback)))
          fun S'' x hS'' honx hchx => ?_)
        refine .here (Or.inr (Or.inl ⟨S'', Nat.le_trans hS'' hS', honx.at hsize, hback.trans hchx⟩))
  · intro d hond hch
    exact .here (Or.inr (Or.inl ⟨S, Nat.le_refl S, hond.at hlab', hch⟩))

theorem cond_tests (hlink : Linked M Y A gt) (hbelow : Below M Y A gt n) (cond : Node) (l k : Nat)
    (h : IsCond gt lv argc cond) : Tests M Y n lv argc (cond_items A .code cond l false k) l := by
  cases cond with
  | null => simp only [IsCond] at h
  | mk t kind ix nx =>
      cases kind with
      | bin op left right =>
          simp only [IsCond] at h
          simp only [cond_items]
          exact compare_tests (expr_evals hlink hbelow left k h.1) (expr_evals hlink hbelow right _ h.2)
      | _ => simp only [IsCond] at h

theorem assign_executes (hlink : Linked M Y A gt) (hbelow : Below M Y A gt n) {offset : Int} (op : Int)
    {left right : Node} (k : Nat) (hleft : IsTarget lv argc offset left)
    (hright : IsExpr gt lv argc right) :
    Executes M Y n lv argc (kind_items A .code (.assign offset op left right) k) := by
  have h := expr_evals hlink hbelow right k hright
  cases left with
  | null => simp only [IsTarget] at hleft
  | mk t kind ix nx =>
      cases kind with
      | var dt off value =>
          simp only [IsTarget] at hleft
          simp only [kind_items]
          refine store_executes hleft fun p B S c hc hf hon => ?_
          refine (h p B S c hc.left hf hon).mono fun d hd => hd.imp_right fun hd => ⟨hd.1.at ?_, hd.2⟩
          rw [size_append]
          rfl
      | _ => simp only [IsTarget] at hleft

mutual

/-- The code of every statement runs to its end or leaves the function. -/
theorem stmt_executes (hlink : Linked M Y A gt) (hbelow : Below M Y A gt n) :
    ∀ (s : Node) (k : Nat), IsStmt gt lv argc s → Executes M Y n lv argc (node_items A .code s k)
  | .null, k, _ => by
      simp only [node_items]
      exact .nil
  | .mk _ kind _ _, k, h => by
      simp only [IsStmt] at h
      simp only [node_items]
      exact (stmt_kind_executes hlink hbelow kind k h).visit

theorem block_executes (hlink : Linked M Y A gt) (hbelow : Below M Y A gt n) :
    ∀ (s : Node) (k : Nat), IsBlock gt lv argc s → Executes M Y n lv argc (block_items A .code s k)
  | .null, k, _ => by
      simp only [block_items]
      exact .nil
  | .mk _ kind _ nx, k, h => by
      cases kind with
      | var dt offset value =>
          simp only [IsBlock] at h
          simp only [block_items]
          refine Executes.append ?_ (block_executes hlink hbelow nx _ h.2)
          by_cases hv : value.isSome = true
          · obtain ⟨hoff, hvalue⟩ := h.1 hv
            rw [if_pos hv]
            exact (store_executes (Or.inl hoff) (expr_evals hlink hbelow value k hvalue)).visit
          · rw [if_neg hv]
            exact Executes.nil.visit
      | _ =>
          simp only [IsBlock] at h
          simp only [block_items]
          exact Executes.append (stmt_kind_executes hlink hbelow _ k h.1).visit (block_executes hlink hbelow nx _ h.2)

theorem stmt_kind_executes (hlink : Linked M Y A gt) (hbelow : Below M Y A gt n) :
    ∀ (kind : Kind) (k : Nat), IsStmtKind gt lv argc kind →
      Executes M Y n lv argc (kind_items A .code kind k)
  | .block body, k, h => by
      simp only [IsStmtKind] at h
      simp only [kind_items]
      exact block_executes hlink hbelow body k h
  | .if_ cond then_stmt else_stmt, k, h => by
      simp only [IsStmtKind] at h
      obtain ⟨hc, ht, he⟩ := h
      simp only [kind_items]
      by_cases hs : else_stmt.isSome = true
      · simp only [if_pos hs]
        exact if_else_executes (cond_tests hlink hbelow cond k _ hc) (stmt_executes hlink hbelow then_stmt _ ht)
          (stmt_executes hlink hbelow else_stmt _ he)
      · simp only [if_neg hs]
        exact if_executes (cond_tests hlink hbelow cond (k + 1) _ hc) (stmt_executes hlink hbelow then_stmt _ ht)
  | .while_ cond then_stmt isfor, k, h => by
      have hwhole : ∀ m, m < n → Executes M Y m lv argc (kind_items A .code (.while_ cond then_stmt isfor) k) := by
        intro m hm p B S c hc hf hon
        have hnode := hbelow m hm lv argc (.mk 0 (.while_ cond then_stmt isfor) .null .null) k
          (by simpa only [IsStmt] using h)
        simp only [node_items] at hnode
        have hrun := hnode p B S c hc.visit hf hon
        rwa [size_visit] at hrun
      simp only [IsStmtKind] at h
      simp only [kind_items] at hwhole ⊢
      exact while_executes (cond_tests hlink hbelow cond (k + 1) _ h.1) (stmt_executes hlink hbelow then_stmt _ h.2)
        hwhole
  | .assign offset op left right, k, h => by
      simp only [IsStmtKind] at h
      exact assign_executes hlink hbelow op k h.1 h.2
  | .return_ value, k, h => by
      simp only [IsStmtKind] at h
      simp only [kind_items]
      by_cases hv : value.isSome = true
      · rw [if_pos hv]
        exact return_executes (expr_evals hlink hbelow value k (h hv))
      · rw [if_neg hv]
        exact return_void_executes
  | .int v, k, h => (expr_kind_evals hlink hbelow (.int v) k (by simpa only [IsStmtKind] using h)).runs
  | .var dt offset value, k, h =>
      (expr_kind_evals hlink hbelow (.var dt offset value) k (by simpa only [IsStmtKind] using h)).runs
  | .bin op left right, k, h =>
      (expr_kind_evals hlink hbelow (.bin op left right) k (by simpa only [IsStmtKind] using h)).runs
  | .call f args c, k, h =>
      (expr_kind_evals hlink hbelow (.call f args c) k (by simpa only [IsStmtKind] using h)).runs

end

/-- Statements run for any number of steps. -/
theorem runs_below (hlink : Linked M Y A gt) : ∀ n, Below M Y A gt n := by
  intro n
  induction n with
  | zero => exact fun m hm => absurd hm (Nat.not_lt_zero m)
  | succ n ih =>
      intro m hm lv argc s k h
      rcases Nat.lt_succ_iff_lt_or_eq.mp hm with hlt | rfl
      · exact ih m hlt lv argc s k h
      · exact stmt_executes hlink ih s k h

end Eke
