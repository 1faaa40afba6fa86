/-
Callers and callees of one program.

A program of the kind the calling convention is about, compiled and loaded: its functions
stand where the calls lead, so that its code keeps the convention.  The main result is about
one call, from before its first argument to the push of its result, made anywhere in the
program.
-/
import Eke.Compiler.Convention

namespace Eke

open Gen Store X86

variable {A : Addresses} {gt : List Node} {lv argc k : Nat}

/-! ### What the code consists of -/

/-- What stands in the code of such a program: no condition that is not a comparison, and
calls of its own functions only. -/
def Item.ofProgram (gt : List Node) : Item → Prop
  | .test _ _ => False
  | .call f => ∃ n, Callee gt f n
  | _ => True

theorem call_items_ofProgram {f : Name} {m : Nat} (h : Callee gt f m) :
    ∀ i ∈ call_items f m, i.ofProgram gt := by
  unfold call_items
  split <;> simpa [Item.ofProgram] using ⟨m, h⟩

mutual

theorem expr_ofProgram : ∀ (e : Node) (k : Nat), IsExpr gt lv argc e →
    ∀ i ∈ node_items A .code e k, i.ofProgram gt
  | .null, k, h => by simp only [IsExpr] at h
  | .mk _ kind _ _, k, h => by
      simp only [IsExpr] at h
      simp only [node_items, List.forall_mem_cons]
      exact ⟨trivial, expr_kind_ofProgram kind k h⟩

theorem expr_kind_ofProgram : ∀ (kind : Kind) (k : Nat), IsExprKind gt lv argc kind →
    ∀ i ∈ kind_items A .code kind k, i.ofProgram gt
  | .int v, k, _ => by simp [kind_items, Item.ofProgram]
  | .var _ offset _, k, _ => by simp [kind_items, load_items, Item.ofProgram]
  | .bin op left right, k, h => by
      simp only [IsExprKind] at h
      obtain ⟨-, hl, hr⟩ := h
      have hop : ∀ i ∈ bin_items op, i.ofProgram gt := by
        unfold bin_items
        split_ifs <;> simp [Item.ofProgram]
      simp only [kind_items, List.forall_mem_append]
      exact ⟨⟨⟨⟨expr_ofProgram left k hl, expr_ofProgram right _ hr⟩, by simp [Item.ofProgram]⟩, hop⟩,
        by simp [Item.ofProgram]⟩
  | .call f args c, k, h => by
      simp only [IsExprKind] at h
      rw [call_kind_items h.1, List.forall_mem_append]
      exact ⟨args_ofProgram args 32 k h.2, call_items_ofProgram h.1⟩

theorem args_ofProgram : ∀ (args : Node) (m k : Nat), AreArgs gt lv argc args →
    ∀ i ∈ args_items A .code m args k, i.ofProgram gt
  | .null, m, k, _ => by cases m <;> simp [args_items]
  | .mk _ kind _ nx, m, k, h => by
      simp only [AreArgs] at h
      cases m with
      | zero => simp [args_items]
      | succ m =>
          simp only [args_items, List.forall_mem_append]
          exact ⟨⟨args_ofProgram nx m k h.2, by simp [Item.ofProgram]⟩, expr_kind_ofProgram kind _ h.1⟩

end

theorem cond_ofProgram (cond : Node) (l k : Nat) (h : IsCond gt lv argc cond) :
    ∀ i ∈ cond_items A .code cond l false k, i.ofProgram gt := by
  cases cond with
  | null => simp only [IsCond] at h
  | mk t kind ix nx =>
      cases kind with
      | bin op left right =>
          simp only [IsCond] at h
          simp only [cond_items, List.forall_mem_append]
          exact ⟨⟨⟨by simp [Item.ofProgram], expr_ofProgram left k h.1⟩, expr_ofProgram right _ h.2⟩,
            by simp [Item.ofProgram]⟩
      | _ => simp only [IsCond] at h

theorem store_ofProgram (offset : Int) : ∀ i ∈ store_items offset, i.ofProgram gt := by
  simp [store_items, Item.ofProgram]

theorem epilogue_ofProgram : ∀ i ∈ epilogue_items, i.ofProgram gt := by
  simp [epilogue_items, Item.ofProgram]

mutual

theorem stmt_ofProgram : ∀ (s : Node) (k : Nat), IsStmt gt lv argc s →
    ∀ i ∈ node_items A .code s k, i.ofProgram gt
  | .null, k, _ => by simp [node_items]
  | .mk _ kind _ _, k, h => by
      simp only [IsStmt] at h
      simp only [node_items, List.forall_mem_cons]
      exact ⟨trivial, stmt_kind_ofProgram kind k h⟩

theorem block_ofProgram : ∀ (s : Node) (k : Nat), IsBlock gt lv argc s →
    ∀ i ∈ block_items A .code s k, i.ofProgram gt
  | .null, k, _ => by simp [block_items]
  | .mk _ kind _ nx, k, h => by
      cases kind with
      | var dt offset value =>
          simp only [IsBlock] at h
          simp only [block_items, List.forall_mem_append]
          refine ⟨⟨by simp [Item.ofProgram], ?_⟩, block_ofProgram nx _ h.2⟩
          split
          · rename_i hv
            rw [List.forall_mem_append]
            exact ⟨expr_ofProgram value k (h.1 hv).2, store_ofProgram offset⟩
          · simp
      | _ =>
          simp only [IsBlock] at h
          simp only [block_items, List.forall_mem_append]
          exact ⟨⟨by simp [Item.ofProgram], stmt_kind_ofProgram _ k h.1⟩, block_ofProgram nx _ h.2⟩

theorem stmt_kind_ofProgram : ∀ (kind : Kind) (k : Nat), IsStmtKind gt lv argc kind →
    ∀ i ∈ kind_items A .code kind k, i.ofProgram gt
  | .block body, k, h => by
      simp only [IsStmtKind] at h
      simp only [kind_items]
      exact block_ofProgram body k h
  | .if_ cond then_stmt else_stmt, k, h => by
      simp only [IsStmtKind] at h
      obtain ⟨hc, ht, he⟩ := h
      simp only [kind_items, List.forall_mem_append]
      refine ⟨⟨⟨⟨by simp [Item.ofProgram], cond_ofProgram cond _ _ hc⟩, stmt_ofProgram then_stmt _ ht⟩, ?_⟩,
        by simp [Item.ofProgram]⟩
      split
      · rw [List.forall_mem_append]
        exact ⟨by simp [Item.ofProgram], stmt_ofProgram else_stmt _ he⟩
      · simp
  | .while_ cond then_stmt _, k, h => by
      simp only [IsStmtKind] at h
      simp only [kind_items, List.forall_mem_append]
      exact ⟨⟨⟨by simp [Item.ofProgram], cond_ofProgram cond _ _ h.1⟩, stmt_ofProgram then_stmt _ h.2⟩,
        by simp [Item.ofProgram]⟩
  | .assign offset op left right, k, h => by
      simp only [IsStmtKind] at h
      obtain ⟨hleft, hright⟩ := h
      have hr := expr_ofProgram (A := A) right k hright
      cases left with
      | null => simp only [IsTarget] at hleft
      | mk t kind ix nx =>
          cases kind with
          | var dt off value =>
              simp only [kind_items, List.forall_mem_append]
              exact ⟨⟨hr, by simp [Item.ofProgram]⟩, store_ofProgram _⟩
          | _ => simp only [IsTarget] at hleft
  | .return_ value, k, h => by
      simp only [IsStmtKind] at h
      simp only [kind_items, List.forall_mem_append]
      refine ⟨?_, epilogue_ofProgram⟩
      split
      · rename_i hv
        rw [List.forall_mem_append]
        exact ⟨expr_ofProgram value k (h hv), by simp [Item.ofProgram]⟩
      · simp [Item.ofProgram]
  | .int v, k, h => expr_kind_ofProgram (.int v) k (by simpa only [IsStmtKind] using h)
  | .var dt offset value, k, h =>
      expr_kind_ofProgram (.var dt offset value) k (by simpa only [IsStmtKind] using h)
  | .bin op left right, k, h =>
      expr_kind_ofProgram (.bin op left right) k (by simpa only [IsStmtKind] using h)
  | .call f args c, k, h => expr_kind_ofProgram (.call f args c) k (by simpa only [IsStmtKind] using h)

end

theorem entry_ofProgram (q : Node) (k : Nat) (h : IsFunction gt q) :
    ∀ i ∈ entry_items A .code q k, i.ofProgram gt := by
  cases q with
  | null => simp [entry_items]
  | mk t kind ix nx =>
      cases kind with
      | func name args body ret localvarbyte argcount =>
          obtain ⟨-, -, -, -, hbody⟩ := h
          have hpro : ∀ i ∈ prologue_items (BitVec.ofInt 32 localvarbyte + 32), i.ofProgram gt := by
            unfold prologue_items
            split <;> simp [Item.ofProgram]
          simp only [entry_items, List.forall_mem_append]
          exact ⟨⟨⟨by simp [Item.ofProgram], hpro⟩, stmt_ofProgram body k hbody⟩, epilogue_ofProgram⟩
      | _ => simp [entry_items]

theorem table_ofProgram : ∀ (ps : List Node) (k : Nat), (∀ q ∈ ps, IsFunction gt q) →
    ∀ i ∈ table_items A .code ps k, i.ofProgram gt := by
  intro ps
  induction ps with
  | nil => intro k _ i hi; cases hi
  | cons q ps ih =>
      intro k h
      simp only [table_items, List.forall_mem_append]
      exact ⟨entry_ofProgram q k (h q (List.mem_cons_self ..)),
        ih _ fun r hr => h r (List.mem_cons_of_mem _ hr)⟩

/-! ### The program in memory -/

theorem callee_split {f : Name} {n : Nat} (h : Callee gt f n) :
    ∃ pre d post, gt = pre ++ d :: post ∧ d.funcName = some f ∧ d.paramCount = (n : Int) ∧
      ∀ q ∈ pre, q.funcName ≠ some f := by
  obtain ⟨d, hone, hcount⟩ := h.one
  have hmem : d ∈ gt.filter fun q => q.funcName = some f := hone ▸ List.mem_singleton_self d
  rw [List.mem_filter] at hmem
  obtain ⟨hd, hname⟩ := hmem
  obtain ⟨pre, post, rfl⟩ := List.append_of_mem hd
  refine ⟨pre, d, post, rfl, by simpa using hname, hcount, fun q hq hqf => ?_⟩
  have hlen := congrArg List.length hone
  rw [List.filter_append, List.filter_cons, if_pos hname, List.length_append, List.length_cons,
    List.length_singleton] at hlen
  have hpos : 0 < (pre.filter fun q => q.funcName = some f).length :=
    List.length_pos_of_mem (List.mem_filter.mpr ⟨hq, by simpa using hqf⟩)
  omega

section

variable (mod_name : Option Name) (mod_type : BitVec 32) (g : Gen)

/-- The listing of such a program stands in its binary. -/
theorem program_code (h : Roomy (listing A gt)) (hprog : ∀ q ∈ gt, IsFunction gt q) :
    Code (codegen_x86_emit A gt mod_name mod_type g).1 (codegen_x86_emit A gt mod_name mod_type g).2.1
      (moduleSymbols A gt g) 64 (listing A gt) := by
  have hof := table_ofProgram (A := A) gt 1 hprog
  refine ⟨module_assembled mod_name mod_type g ⟨h.rooms, h.strings, fun f hf => ?_⟩
    (Or.inl fun op l hmem => hof _ hmem), module_end mod_name mod_type g h⟩
  obtain ⟨n, hcallee⟩ := hof _ hf
  obtain ⟨pre, d, post, rfl, hd, -, -⟩ := callee_split hcallee
  rw [listing_entries hd]
  exact ⟨_, List.mem_append_right _ (List.mem_cons_self ..)⟩

/-- The functions of such a program stand where its calls lead. -/
theorem program_linked (h : Roomy (listing A gt)) (hprog : ∀ q ∈ gt, IsFunction gt q)
    (M : Setting (codegen_x86_emit A gt mod_name mod_type g).1
      (codegen_x86_emit A gt mod_name mod_type g).2.1)
    (hneed : ∀ q ∈ gt, q.frameNeed ≤ M.room) : Linked M (moduleSymbols A gt g) A gt := by
  have hcode := program_code mod_name mod_type g h hprog
  intro f n hcallee
  obtain ⟨pre, d, post, rfl, hd, hcount, hfirst⟩ := callee_split hcallee
  have hplace := (func_place g h hd).2.2.mpr hfirst
  have hmem : d ∈ pre ++ d :: post := List.mem_append_right _ (List.mem_cons_self ..)
  have hfun := hprog d hmem
  have hroom := hneed d hmem
  simp only [listing, table_append, table_items] at hcode
  have hentry := hcode.right.left
  rw [← hplace] at hentry
  cases d with
  | null => cases hd
  | mk t kind ix nx =>
      cases kind with
      | func name args body ret localvarbyte argcount =>
          obtain ⟨hpos, hwords, hints, hargs, hbody⟩ := hfun
          obtain ⟨lv, rfl⟩ := Int.eq_ofNat_of_zero_le hpos
          have hargc : argcount.toNat = n := by
            have hcount' : argcount = n := hcount
            rw [hcount', Int.toNat_natCast]
          rw [hargc, Int.toNat_natCast] at hbody
          simp only [entry_items, List.append_assoc] at hentry
          have hbodycode := hentry.right
          rw [← List.append_assoc] at hbodycode
          exact ⟨Nat.le_trans (Nat.le_add_right _ _) hentry.inside, _, hmem, hd, lv, _, rfl, hbodycode, hbody,
            by omega, by omega, hroom⟩
      | _ => cases hd

end

/-! ### One call -/

section

variable {bin : Store} {len : Nat} (M : Setting bin len) (Y : Symbols) (A : Addresses)
  (gt : List Node)

/-- The body of `f` starts in state `e`, called with `args` from state `c`: what is loaded from
the parameters are the words that the arguments' code left on top of the stack, and a store to
a parameter changes its word only. -/
structure Entered (f : Name) (p B S k : Nat) (args : Node) (c e : Cpu) : Prop where
  body : ∃ d ∈ gt, d.funcName = some f ∧ ∃ S', S' ≤ S - 8 * chainLength args - 16 ∧
    On M (Y.func f + size (prologue_items (BitVec.ofInt 32 d.localBytes + 32)))
      (S - 8 * chainLength args - 16) S' e
  load : ∀ i : Nat, i < chainLength args → ∃ x, Gets Cpu.step c x ∧ Gets Cpu.step x e ∧
    On M (p + size (args_items A .code (32 - i) (args.drop i) k)) B
      (S - 8 * (chainLength args - i)) x ∧
    ∀ q S' d xs, On M q (S - 8 * chainLength args - 16) S' d → d.mem = e.mem →
      Code bin len Y q (load_items (-12 - 4 * i) ++ xs) →
      ∃ d', d.step = some d' ∧ d'.rax = x.mem.word (S - 8 * (chainLength args - i))
  store : ∀ i : Nat, i < chainLength args → ∀ q S' d xs,
    On M q (S - 8 * chainLength args - 16) S' d → S' + 8 < 2 ^ 64 →
    Code bin len Y q (store_items (-12 - 4 * i) ++ xs) →
    ∃ d' d'', d.step = some d' ∧ d'.step = some d'' ∧
      d''.mem = d.mem.setWord (S - 8 * (chainLength args - i)) (d.mem.word S')

variable {M Y A gt} {p q B S S' : Nat} {c d e : Cpu} {xs : List Item}

/-- A parameter is loaded. -/
theorem On.load_param {i : Nat} (h : On M q B S d)
    (hc : Code bin len Y q (load_items (-12 - 4 * (i : Int)) ++ xs)) (hi : i < 32)
    (hmax : B + 16 + 8 * i + 8 ≤ 2 ^ 64) :
    ∃ d', d.step = some d' ∧ d'.rax = d.mem.word (B + 16 + 8 * i) := by
  have hneg : (-12 - 4 * (i : Int)) < 0 := by omega
  unfold load_items at hc
  rw [if_pos hneg] at hc
  refine ⟨_, (h.fetch hc).trans (Eke.load_param (c := { d with rip := _ }) h.rbp (by omega) hmax), rfl⟩

/-- A parameter is stored to. -/
theorem On.store_param {i : Nat} (h : On M q B S d)
    (hc : Code bin len Y q (store_items (-12 - 4 * (i : Int)) ++ xs)) (hi : i < 32)
    (hmax : B + 16 + 8 * i + 8 ≤ 2 ^ 64) (hS : S + 8 < 2 ^ 64) :
    ∃ d' d'', d.step = some d' ∧ d'.step = some d'' ∧
      d''.mem = d.mem.setWord (B + 16 + 8 * i) (d.mem.word S) := by
  have hneg : (-12 - 4 * (i : Int)) < 0 := by omega
  unfold store_items at hc
  rw [if_pos hneg] at hc
  obtain ⟨d', hd', hon, hmem, hrax, -⟩ := h.pop_rax hc hS
  refine ⟨d', _, hd', (hon.fetch hc.tail).trans
    (Eke.store_param (c := { d' with rip := _ }) hon.rbp (by omega) hmax), ?_⟩
  show d'.mem.setWord _ d'.rax = _
  rw [hmem, hrax]

/-- The arguments were pushed, and the callee's body starts. -/
theorem entered {f : Name} {args : Node} {lv' : Nat} {r : Node} (hf : Framed M lv argc B S)
    (hpushed : Pushed M A p B S 32 args k c d) (hde : Gets Cpu.step d e)
    (hge : M.lo + M.room ≤ S - 8 * chainLength args) (hfew : chainLength args ≤ 32)
    (hr : r ∈ gt) (hname : r.funcName = some f) (hlv : r.localBytes = lv')
    (h : AtBody M Y f lv' q B (S - 8 * chainLength args) d e) : Entered M Y A gt f p B S k args c e := by
  have htop := M.top
  have hle := hf.top_le
  have hmargin := M.margin
  obtain ⟨S', hS', hon⟩ := h.on
  have hslot : ∀ i, i < chainLength args →
      S - 8 * chainLength args - 16 + 16 + 8 * i = S - 8 * (chainLength args - i) := by
    intro i hi
    omega
  refine ⟨⟨r, hr, hname, S', hS', by rw [hlv]; exact hon⟩, fun i hi => ?_,
    fun i hi q S' x xs honx hS' hcode => ?_⟩
  · obtain ⟨x, hcx, hxd, honx, hword⟩ := hpushed.words i hi
    refine ⟨x, hcx, hxd.trans hde, honx, fun q S' y xs hony hmem hcode => ?_⟩
    obtain ⟨y', hy', hrax⟩ := hony.load_param hcode (by omega) (by omega)
    refine ⟨y', hy', ?_⟩
    rw [hrax, hslot i hi, hmem, ← hword]
    refine h.mem.word fun z hz hz' hbelow => ?_
    have := hbelow.2
    omega
  · have := honx.store_param hcode (by omega) (by omega) hS'
    rwa [hslot i hi] at this

end

/-- **The calling convention.**  In a program of such functions that fits into the tables, take
a call with as many arguments as its function has parameters, anywhere in the code, and a
processor in front of it, in the frame of a function.  For any number of steps, the stack is
nearly used up, the processor is still busy, or the callee's body starts with its parameters
in place; and from there again the stack is nearly used up, the processor is still busy, or
it is behind the call, with the result pushed and the stack above as it was. -/
theorem calling_convention (A : Addresses) (gt : List Node) (mod_name : Option Name)
    (mod_type : BitVec 32) (g : Gen) (h : Roomy (listing A gt)) (hprog : ∀ q ∈ gt, IsFunction gt q)
    (M : Setting (codegen_x86_emit A gt mod_name mod_type g).1
      (codegen_x86_emit A gt mod_name mod_type g).2.1)
    (hneed : ∀ q ∈ gt, q.frameNeed ≤ M.room) (f : Name) (args : Node) (t : Int) (ys zs : List Item)
    (k lv argc B S n : Nat) (c : Cpu)
    (hlist : listing A gt = ys ++ kind_items A .code (.call f args t) k ++ zs)
    (hcallee : Callee gt f (chainLength args)) (hargs : AreArgs gt lv argc args)
    (hf : Framed M lv argc B S) (hon : On M (64 + size ys) B S c) :
    Leads Cpu.step n (fun e => M.Low e ∨
      Entered M (moduleSymbols A gt g) A gt f (64 + size ys) B S k args c e ∧
      ∀ m, Leads Cpu.step m (fun x => M.Low x ∨
        Returned M (64 + size ys + size (args_items A .code 32 args k) + 5)
          (64 + size ys + size (kind_items A .code (.call f args t) k)) B S
          (S - 8 * chainLength args) c.mem e x) e) c := by
  have hlink := program_linked mod_name mod_type g h hprog M hneed
  have hcode := program_code mod_name mod_type g h hprog
  rw [hlist] at hcode
  have hcall := hcode.left.right
  rw [call_kind_items hcallee] at hcall ⊢
  have hrun := args_run hlink (runs_below hlink n) args 32 k hcallee.few hargs
  refine (hrun _ _ _ c hcall.left hf hon).gets.bind fun d hd => ?_
  obtain ⟨hcd, hlow | hpushed⟩ := hd
  · exact .here (Or.inl hlow)
  by_cases hlow : M.Low d
  · exact .here (Or.inl hlow)
  have hge := not_low hpushed.on hlow
  have hmargin := M.margin
  have hle := hf.top_le
  obtain ⟨hlen, r, hr, hname, lv', j, hlv, hbody, hstmt, hwords, hints, hroom⟩ := hlink f _ hcallee
  have hpro := hbody
  rw [List.append_assoc] at hpro
  obtain ⟨e, he, hlead⟩ := enter_leads hpushed.on hcall.right (by omega) hlow hlen hpro hroom
  refine .ahead he ((hlead n).gets.mono fun x hx => Or.inr ?_)
  obtain ⟨hex, hx⟩ := hx
  refine ⟨entered hf hpushed (hex.next he) hge hcallee.few hr hname hlv hx, fun m => ?_⟩
  have hsum : S - 8 * chainLength args + 8 * chainLength args = S := by omega
  refine (return_leads hx hcall.right hge hcallee.few (by omega) hbody hwords hints hroom
    (runs_below hlink (m + 1) m (Nat.lt_succ_self m) _ _ _ _ hstmt)).mono fun y hy => ?_
  refine hy.imp_right fun hret => ?_
  rw [hsum] at hret
  exact ⟨hret.on.at (by rw [size_append, Nat.add_assoc]), hpushed.mem.trans hret.mem, hret.result⟩

/-- `int f(int a) { return a; }`. -/
def idF : Node :=
  .mk 0 (.func ['f'] (.mk 0 (.var K_INT 0 .null) .null .null)
    (.mk 0 (.block (.mk 0 (.return_ (.mk 0 (.var K_INT (-12) .null) .null .null)) .null .null)) .null .null)
    K_INT 0 1) .null .null

/-- `f(7)`. -/
def callF : Kind := .call ['f'] (.mk 0 (.int 7) .null .null) 1

/-- `void main() { f(7); }`. -/
def mainF : Node :=
  .mk 0 (.func ['m', 'a', 'i', 'n'] .null
    (.mk 0 (.block (.mk 0 callF .null .null)) .null .null) K_VOID 0 0) .null .null

theorem callee_idF : Callee [idF, mainF] ['f'] 1 :=
  ⟨by unfold isBuiltin; decide, by decide, idF, rfl, rfl⟩

theorem callF_items (n : Nat) : kind_items .zero .code callF n =
    [.visit, .ins ⟨.movabs_rax, 7⟩, .op .push_rax, .call ['f'], .ins ⟨.add_rsp, 8⟩, .op .push_rax] := by
  have h : Callee [idF, mainF] ['f'] (chainLength (.mk 0 (.int 7) .null .null)) := callee_idF
  unfold callF
  rw [call_kind_items h]
  simp [args_items, kind_items, call_items, chainLength]

theorem idF_items (n : Nat) : entry_items .zero .code idF n =
    [.func ['f'], .op .push_rbp, .op .mov_rsp_rbp, .ins ⟨.sub_rsp, 32⟩, .visit, .visit, .visit,
      .ins ⟨.mov_rbp_rax, 16⟩, .op .push_rax, .op .pop_rax, .op .leave, .op .ret, .op .leave,
      .op .ret] := by
  simp [idF, entry_items, prologue_items, frameBytes, node_items, kind_items, block_items, load_items,
    disp, Node.isSome, epilogue_items]

/-- The code of `main` in front of the call. -/
def beforeCall : List Item :=
  [.func ['m', 'a', 'i', 'n'], .op .push_rbp, .op .mov_rsp_rbp, .ins ⟨.sub_rsp, 32⟩, .visit, .visit]

theorem mainF_items (n : Nat) : entry_items .zero .code mainF n =
    beforeCall ++ kind_items .zero .code callF n ++ [.op .leave, .op .ret] := by
  have hblock : kind_items .zero .code (.block (.mk 0 callF .null .null)) n
      = [.visit] ++ kind_items .zero .code callF n ++ [] := rfl
  simp [mainF, beforeCall, entry_items, prologue_items, frameBytes, node_items, epilogue_items, hblock]

/-- The code in front of the call. -/
def beforeCallF : List Item := entry_items .zero .code idF 1 ++ beforeCall

theorem listing_callF : listing .zero [idF, mainF] =
    beforeCallF ++ kind_items .zero .code callF 1 ++ [.op .leave, .op .ret] := by
  have hallocs : allocs (entry_items .zero .code idF 1) = 0 := by rw [idF_items]; rfl
  simp [listing, table_items, mainF_items, hallocs, beforeCallF]

/-- `idF` and `mainF` at address 0, and a stack behind them. -/
def settingF : Setting (codegen_x86_emit .zero [idF, mainF] none 0 .zero).1
    (codegen_x86_emit .zero [idF, mainF] none 0 .zero).2.1 where
  base := 0
  lo := 65536
  hi := 131072
  room := 64
  small := Nat.lt_of_le_of_lt (binary_len ..) (by decide)
  apart := Or.inl (by rw [Nat.zero_add]; exact binary_len ..)
  top := by decide
  margin := by decide

/-- The processor in front of the call. -/
def cpuF : Cpu :=
  { rax := 0, rbx := 0, rcx := 0, rdx := 0, rsi := 0, rdi := 0, rbp := 131000, rsp := 130960
    r8 := 0, r9 := 0, rip := place 0 (64 + size beforeCallF), zf := false, sf := false, of := false
    mem := (codegen_x86_emit .zero [idF, mainF] none 0 .zero).1 }

theorem idF_program : ∀ q ∈ [idF, mainF], IsFunction [idF, mainF] q := by
  have hcall : IsExprKind [idF, mainF] 0 0 callF := by
    simp only [callF, IsExprKind, AreArgs, and_true]
    exact callee_idF
  have hvar : Variable 0 1 (-12) := Or.inr ⟨0, by decide, rfl⟩
  intro q hq
  simp only [List.mem_cons, List.not_mem_nil, or_false] at hq
  rcases hq with rfl | rfl
  · simpa [idF, IsFunction, IsStmt, IsStmtKind, IsBlock, IsExpr, IsExprKind, Node.isSome] using hvar
  · simpa [mainF, callF, IsFunction, IsStmt, IsStmtKind, IsBlock] using hcall

/-- The call of `void main() { f(7); }`. -/
theorem calling_convention_main :
    Leads Cpu.step 100 (fun e => settingF.Low e ∨
      Entered settingF (moduleSymbols .zero [idF, mainF] .zero) .zero [idF, mainF] ['f']
        (64 + size beforeCallF) 131000 130960 1 (.mk 0 (.int 7) .null .null) cpuF e ∧
      ∀ m, Leads Cpu.step m (fun x => settingF.Low x ∨
        Returned settingF
          (64 + size beforeCallF + size (args_items .zero .code 32 (.mk 0 (.int 7) .null .null) 1) + 5)
          (64 + size beforeCallF + size (kind_items .zero .code callF 1)) 131000 130960 (130960 - 8 * 1)
          cpuF.mem e x) e) cpuF :=
  calling_convention .zero [idF, mainF] none 0 .zero
    (by
      rw [listing_callF, beforeCallF, idF_items, callF_items]
      exact ⟨by decide, by decide⟩)
    idF_program settingF
    (by decide)
    ['f'] (.mk 0 (.int 7) .null .null) 1 beforeCallF [.op .leave, .op .ret] 1 0 0 131000 130960 100 cpuF
    listing_callF callee_idF
    (by simp only [AreArgs, IsExprKind, and_self])
    ⟨by decide, by decide, by decide, by decide, by decide, by decide⟩
    ⟨⟨fun x _ => by rw [show settingF.base = 0 from rfl, Nat.zero_add]; rfl,
      Nat.lt_of_le_of_lt (Nat.add_le_add_left (binary_len ..) _) (by decide)⟩, rfl, rfl, rfl⟩

end Eke
