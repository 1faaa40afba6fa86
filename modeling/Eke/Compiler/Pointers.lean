/-
Reading and writing through a pointer.

The parser keeps the operand of `*` where the generator does not look for it, so that no code is
emitted for the operand.  What is left takes the word on top of the stack for the address.  Both
codes are followed instruction by instruction up to the first time the processor is behind them:
the stack pointer is then off by a word, whatever the operand and the value are.
-/
import Eke.Compiler.Image
import Eke.Compiler.Parser

namespace Eke

open Gen Store X86

variable {bin : Store} {len : Nat} {M : Setting bin len} {Y : Symbols} {F : Frame} {p q B S base : Nat}
  {c d e : Cpu} {xs : List Item}

/-! ### The first time behind some code -/

/-- `d` is the first state from `c` on in which the processor is at `q`. -/
def Behind (base q : Nat) (c d : Cpu) : Prop :=
  ∃ n, after Cpu.step n c = some d ∧ d.rip = place base q ∧
    ∀ i < n, ∀ e, after Cpu.step i c = some e → e.rip ≠ place base q

/-- Elsewhere, the processor has yet to get there. -/
theorem Behind.step (h : Behind base q c e) (hne : c.rip ≠ place base q) :
    ∃ d, c.step = some d ∧ Behind base q d e := by
  obtain ⟨n, hn, hrip, hfirst⟩ := h
  cases n with
  | zero =>
      obtain rfl := Option.some.inj hn
      exact absurd hrip hne
  | succ n =>
      obtain ⟨d, hd, hrest⟩ := Option.bind_eq_some_iff.mp hn
      refine ⟨d, hd, n, hrest, hrip, fun i hi f hf => ?_⟩
      refine hfirst (i + 1) (Nat.succ_lt_succ hi) f ?_
      rw [after, hd]
      exact hf

/-- Where the processor is at `q`, it is the first time. -/
theorem Behind.stop (h : Behind base q c e) (hrip : c.rip = place base q) : e = c := by
  obtain ⟨n, hn, -, hfirst⟩ := h
  cases n with
  | zero => exact (Option.some.inj hn).symm
  | succ n => exact absurd hrip (hfirst 0 (Nat.zero_lt_succ n) c rfl)

theorem Behind.step_eq (h : Behind base q c e) (hne : c.rip ≠ place base q) (hd : c.step = some d) :
    Behind base q d e := by
  obtain ⟨d', hd', hrest⟩ := h.step hne
  rw [hd] at hd'
  exact Option.some.inj hd' ▸ hrest

/-- Inside the code the processor is not behind it. -/
theorem On.elsewhere (h : On M p B S c) (hlt : p < q) (hq : q ≤ len) : c.rip ≠ place M.base q := by
  have hroom := h.loaded.room
  rw [h.rip]
  exact place_ne (by omega) (by omega) (Nat.ne_of_lt hlt)

/-! ### The code for a dereference -/

/-- Behind the code of `*p` the stack pointer is where it was in front of it. -/
theorem peek_ends (h : On M p B S c) (hc : Code bin len Y p (.op .pop_rbx :: .op .mov_at_rbx_rax ::
    .op .push_rax :: xs)) (hS : S + 8 < 2 ^ 64) (hend : Behind M.base (p + 5) c e) : e.rsp.toNat = S := by
  have hin := hc.inside
  have hsize : size (.op .pop_rbx :: .op .mov_at_rbx_rax :: .op .push_rax :: xs) = 5 + size xs := by
    simp only [size_cons, Item.size, Instr.bytes, Op.opcode, Op.width, leBytes_zero, List.append_nil,
      List.length_cons, List.length_nil]
    omega
  rw [hsize] at hin
  obtain ⟨d, hd, hon, -, -⟩ := h.pop_rbx hc hS
  have hend := hend.step_eq (h.elsewhere (by omega) (by omega)) hd
  -- the word at the address, which is the word that was popped
  obtain ⟨f, hf, hend⟩ := hend.step (hon.elsewhere (by omega) (by omega))
  have hread := (hon.fetch hc.tail).symm.trans hf
  have hf' : ∃ v, f = { d with rip := place M.base (p + 1 + 3), rax := v } := by
    simp only [Cpu.exec] at hread
    split at hread
    · exact ⟨_, (Option.some.inj hread).symm⟩
    · cases hread
  obtain ⟨v, rfl⟩ := hf'
  have hon' : On M (p + 4) B (S + 8) { d with rip := place M.base (p + 1 + 3), rax := v } :=
    ⟨hon.loaded, rfl, hon.rbp, hon.rsp⟩
  have hpush := (hon'.fetch hc.tail.tail).trans (push_eq (c := { d with
    rip := place M.base (p + 4 + 1), rax := v }) hon.rsp (by omega) v)
  have hend := hend.step_eq (hon'.elsewhere (by omega) (by omega)) hpush
  rw [hend.stop rfl]
  exact rsp_sub hon.rsp (by omega)

/-- Behind the code of `*p = e` the stack pointer is a word above where it was in front of it. -/
theorem poke_ends (h : On M p B S c) (hc : Code bin len Y p (.op .pop_rax :: .op .pop_rbx ::
    .op .mov_rax_at_rbx :: xs)) (hS : S + 8 + 8 < 2 ^ 64) (hend : Behind M.base (p + 5) c e) :
    e.rsp.toNat = S + 8 + 8 := by
  have hin := hc.inside
  have hsize : size (.op .pop_rax :: .op .pop_rbx :: .op .mov_rax_at_rbx :: xs) = 5 + size xs := by
    simp only [size_cons, Item.size, Instr.bytes, Op.opcode, Op.width, leBytes_zero, List.append_nil,
      List.length_cons, List.length_nil]
    omega
  rw [hsize] at hin
  obtain ⟨d, hd, hon, -, -, -⟩ := h.pop_rax hc (by omega)
  have hend := hend.step_eq (h.elsewhere (by omega) (by omega)) hd
  obtain ⟨d', hd', hon', -, -⟩ := hon.pop_rbx hc.tail (by omega)
  have hend := hend.step_eq (hon.elsewhere (by omega) (by omega)) hd'
  obtain ⟨f, hf, hend⟩ := hend.step (hon'.elsewhere (by omega) (by omega))
  have hwrite := (hon'.fetch hc.tail.tail).symm.trans hf
  have hf' : ∃ m, f = { d' with rip := place M.base (p + 1 + 1 + 3), mem := m } := by
    simp only [Cpu.exec] at hwrite
    split at hwrite
    · exact ⟨_, (Option.some.inj hwrite).symm⟩
    · cases hwrite
  obtain ⟨m, rfl⟩ := hf'
  rw [hend.stop rfl]
  exact hon'.rsp

/-! ### What the code does -/

/-- A node that the parser makes in front of a `*`. -/
def Dereference (star : Node) : Prop :=
  ∃ (r : Parser.Calls) (s s' : Parser), (Parser.tokenAt s s.tp1).type = '*'.toNat ∧
    Parser.nud r s = .ok star s'

/-- The operand of a dereference. -/
def Node.operand : Node → Node
  | .mk _ (.pointer expr _) _ _ => expr
  | _ => .null

/-- Behind the code, at `q`, what is stored at `a` is on top of the stack. -/
def ReadsThrough (M : Setting bin len) (F : Frame) (q S : Nat) (c : Cpu) (a : BitVec 64) : Prop :=
  ∃ d, Behind M.base q c d ∧ Pushes M F q S c.mem (some (c.mem.word a.toNat)) d

/-- The word `w` was stored at `a` and nowhere else, and the stack is as it was. -/
structure Poked (M : Setting bin len) (B q S : Nat) (m : Store) (a w : BitVec 64) (d : Cpu) : Prop where
  on : On M q B S d
  word : d.mem.word a.toNat = w
  rest : Changes (fun x => M.below S x ∨ a.toNat ≤ x ∧ x < a.toNat + 8) m d.mem

/-- From `d`, where the word `w` was pushed, the code leads to `q` and has stored it at `a`. -/
def WritesThrough (M : Setting bin len) (F : Frame) (q S : Nat) (m : Store) (a w : BitVec 64) (d : Cpu) :
    Prop :=
  ∃ d', Behind M.base q d d' ∧ Poked M F.base q S m a w d'

/-- Eight bytes at `a` can be written without touching the binary. -/
def Setting.Free (M : Setting bin len) (a : BitVec 64) : Prop :=
  fits a 8 = true ∧ (a.toNat + 8 ≤ M.base ∨ M.base + len ≤ a.toNat)

/-- Wherever the code for a dereference stands and the code of its operand computes an address,
the value of the dereference is read from there, and an assignment to it writes there. -/
def DerefRight (A : Addresses) (star : Node) : Prop :=
  ∀ (bin : Store) (len : Nat) (M : Setting bin len) (Y : Symbols) (F : Frame) (k q S : Nat) (c : Cpu)
    (a : BitVec 64), Inside M F q S c → ¬ M.Low c → M.Free a →
    (∀ n, Computes M Y F n (node_items A .code star.operand k) (some a)) →
    (Code bin len Y q (node_items A .code star k) →
      ReadsThrough M F (q + size (node_items A .code star k)) S c a) ∧
    ∀ (offset op : Int) (e : Node) (w : BitVec 64) (d : Cpu),
      Code bin len Y q (kind_items A .code (.assign offset op star e) k) → Gets Cpu.step c d →
      Pushes M F (q + size (node_items A .code e k)) S c.mem (some w) d →
      WritesThrough M F (q + size (kind_items A .code (.assign offset op star e) k)) S c.mem a w d

/-- The operand is not where the generator looks for it. -/
theorem Dereference.pointer {star : Node} (h : Dereference star) :
    ∃ t expr, star = .mk t (.pointer expr .null) .null .null := by
  obtain ⟨r, s, s', hpeek, hnud⟩ := h
  have hnow : Parser.peek s = .ok (Parser.tokenAt s s.tp1) s := rfl
  unfold Parser.nud at hnud
  rw [Prog.bind_of_ok hnow, if_pos hpeek] at hnud
  obtain ⟨t, s₁, -, hnud⟩ := Prog.bind_ok_iff.mp hnud
  obtain ⟨token_id, s₂, -, hnud⟩ := Prog.bind_ok_iff.mp hnud
  obtain ⟨e, s₃, -, hnud⟩ := Prog.bind_ok_iff.mp hnud
  exact ⟨token_id, e, (Out.ok.inj hnud).1.symm⟩

/-- **Dereferences.**  In no run is the value of a dereference what is stored at an address, and in
no run does an assignment to it store the value there: the stack pointer is always off by a word. -/
theorem deref_never (A : Addresses) (star : Node) (hstar : Dereference star) {bin : Store} {len : Nat}
    (M : Setting bin len) (Y : Symbols) (F : Frame) (k q S : Nat) (c : Cpu) (a : BitVec 64)
    (hin : Inside M F q S c) (hlow : ¬ M.Low c) :
    (Code bin len Y q (node_items A .code star k) →
      ¬ ReadsThrough M F (q + size (node_items A .code star k)) S c a) ∧
    ∀ (offset op : Int) (e : Node) (w : BitVec 64) (d : Cpu),
      Code bin len Y q (kind_items A .code (.assign offset op star e) k) →
      Pushes M F (q + size (node_items A .code e k)) S c.mem (some w) d →
      ¬ WritesThrough M F (q + size (kind_items A .code (.assign offset op star e) k)) S c.mem a w d := by
  obtain ⟨t, expr, rfl⟩ := hstar.pointer
  have hroom := not_low hin.on hlow
  have hmargin := M.margin
  have htop := M.top
  have hhigh := hin.framed.top_le
  constructor
  · intro hc hread
    obtain ⟨d, hend, hpush⟩ := hread
    have hrsp := peek_ends hin.on hc.tail (by omega) hend
    have := hpush.1.rsp
    omega
  · intro offset op e w d hc hpush hwrite
    obtain ⟨d', hend, hdone⟩ := hwrite
    simp only [kind_items, node_items, List.append_nil] at hc hend hdone
    have hsize : q + size (node_items A .code e k ++ [.visit] ++
        [.op .pop_rax, .op .pop_rbx, .op .mov_rax_at_rbx]) = q + size (node_items A .code e k) + 5 := by
      simp only [size_append]
      rfl
    rw [hsize] at hend
    rw [List.append_assoc] at hc
    have hrsp := poke_ends hpush.1 hc.right.tail (by omega) hend
    have := hdone.on.rsp
    omega

/-! ### An address in a local variable -/

/-- `int *p;` was read, and the text goes on with `*p;`. -/
def behindDeclaration : Parser :=
  { Parser.start with
    tokens := [⟨'*'.toNat, ['*']⟩, ⟨T_IDENTIFIER, ['p']⟩, ⟨';'.toNat, [';']⟩], sp := 1
    symtab := fun _ => ⟨['p'], K_INT, 0, 0, 0, 1, 0, 1, fun _ => 0, 0, -1, true, true⟩ }

/-- `*p`. -/
def starP : Node := .mk 0 (.pointer (.mk 1 (.var K_INT 0 .null) .null .null) .null) .null .null

theorem starP_parsed : Dereference starP := ⟨Parser.calls 3, behindDeclaration, _, rfl, rfl⟩

def starCode : List Item := node_items .zero .code starP 0

/-- The memory with the code; the variable holds the first address behind the stack. -/
def starStore : Store := (imageStore .none starCode).set 130994 2

theorem starP_inside : Inside (imageSetting .none starCode (by decide)) (imageFrame starStore) 0 130000
    (imageCpu starStore) := by
  refine image_inside (by decide) fun x hx => ?_
  exact set_out (by omega)

theorem starP_room : ¬ (imageSetting .none starCode (by decide)).Low (imageCpu starStore) := by
  unfold Setting.Low
  exact (by decide : ¬ 130000 < 65536 + 64)

theorem deref_never_local :
    (Code (imageStore .none starCode) (size starCode) .none 0 (node_items .zero .code starP 0) →
      ¬ ReadsThrough (imageSetting .none starCode (by decide)) (imageFrame starStore)
        (0 + size (node_items .zero .code starP 0)) 130000 (imageCpu starStore) 131072) ∧
    ∀ (offset op : Int) (e : Node) (w : BitVec 64) (d : Cpu),
      Code (imageStore .none starCode) (size starCode) .none 0
        (kind_items .zero .code (.assign offset op starP e) 0) →
      Pushes (imageSetting .none starCode (by decide)) (imageFrame starStore)
        (0 + size (node_items .zero .code e 0)) 130000 (imageCpu starStore).mem (some w) d →
      ¬ WritesThrough (imageSetting .none starCode (by decide)) (imageFrame starStore)
        (0 + size (kind_items .zero .code (.assign offset op starP e) 0)) 130000 (imageCpu starStore).mem
        131072 w d :=
  deref_never .zero starP starP_parsed _ .none _ 0 0 130000 _ 131072 starP_inside starP_room

/-- With an address in `p`, the code of `*p` pushes no word. -/
theorem deref_wrong : Dereference starP ∧ ¬ DerefRight .zero starP := by
  refine ⟨starP_parsed, fun hall => ?_⟩
  have hfree : (imageSetting .none starCode (by decide)).Free 131072 := by
    refine ⟨by decide, Or.inr ?_⟩
    exact (by decide : 0 + size starCode ≤ 131072)
  have haddr : ∀ n, Computes (imageSetting .none starCode (by decide)) .none (imageFrame starStore) n
      (node_items .zero .code starP.operand 0) (some 131072) := by
    intro n
    have hword : ((imageFrame starStore).int 0).setWidth 64 = 131072 := by decide
    rw [← hword]
    exact (local_computes ⟨by decide, by decide, by decide⟩).visit
  obtain ⟨hread, -⟩ := hall _ _ _ .none _ 0 0 130000 _ 131072 starP_inside starP_room hfree haddr
  obtain ⟨d, hend, hpush⟩ := hread (image_code (by decide))
  have hrsp := peek_ends starP_inside.on (image_code (by decide)).tail (by decide) hend
  rw [hpush.1.rsp] at hrsp
  exact absurd hrsp (by decide)

end Eke
