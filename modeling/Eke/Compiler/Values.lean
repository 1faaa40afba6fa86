/-
The values that code computes.

`Evals` says that the code of an expression pushes some word.  Here is which one: `Computes` is
about code that is run anywhere in the evaluation of an expression, in a frame whose variables
are what they were in front of it, and `Decides` about the code of a condition.  Either can end
with the processor refusing a division.  What a literal, a variable and an operator push is what
the instructions do with 64-bit words; nothing here is about C.
-/
import Eke.Compiler.Convention

namespace Eke

open Gen Store X86

/-- The frame of a function in front of an expression, with the memory there.  The local
variables lie above the stack pointer `top`. -/
structure Frame where
  lv : Nat
  argc : Nat
  base : Nat
  top : Nat
  mem : Store
  clear : top + lv + 8 ≤ base

/-- What a local variable holds. -/
def Frame.int (F : Frame) (offset : Int) : BitVec 32 := dword F.mem (F.base - (offset.toNat + 8))

/-- What a parameter holds. -/
def Frame.param (F : Frame) (i : Nat) : BitVec 64 := F.mem.word (F.base + 16 + 8 * i)

variable {bin : Store} {len : Nat}

/-- The processor is at `p` while an expression is evaluated in the frame. -/
structure Inside (M : Setting bin len) (F : Frame) (p S : Nat) (c : Cpu) : Prop where
  on : On M p F.base S c
  framed : Framed M F.lv F.argc F.base S
  le : S ≤ F.top
  mem : Changes (M.below F.top) F.mem c.mem

section

variable (M : Setting bin len) (Y : Symbols) (F : Frame) (n : Nat)

/-- The end of an expression's code, at `q`: a word was pushed, or a division is refused. -/
def Pushes (q S : Nat) (m : Store) : Option (BitVec 64) → Cpu → Prop
  | some u, d => On M q F.base (S - 8) d ∧ Changes (M.below S) m d.mem ∧ d.mem.word (S - 8) = u
  | none, d => d.step = none

/-- The code of an expression computes a word. -/
def Computes (xs : List Item) (o : Option (BitVec 64)) : Prop :=
  ∀ p S c, Code bin len Y p xs → Inside M F p S c →
    Leads Cpu.step n (fun d => M.Low d ∨ Pushes M F (p + size xs) S c.mem o d) c

/-- The end of a condition's code, at `q` if it holds and else at `t`. -/
def Goes (q t S : Nat) (m : Store) : Option Bool → Cpu → Prop
  | some b, d => On M (if b then q else t) F.base S d ∧ Changes (M.below S) m d.mem
  | none, d => d.step = none

/-- The code of a condition runs on where the condition holds and jumps to the label where it
does not. -/
def Decides (xs : List Item) (l : Nat) (o : Option Bool) : Prop :=
  ∀ p S c, Code bin len Y p xs → Inside M F p S c → Y.label l ≤ len →
    Leads Cpu.step n (fun d => M.Low d ∨ Goes M F (p + size xs) (Y.label l) S c.mem o d) c

end

variable {M : Setting bin len} {Y : Symbols} {F : Frame} {n p q S S' l : Nat} {c d : Cpu}
  {xs ys : List Item} {o : Option (BitVec 64)} {u w : BitVec 64} {Q : Cpu → Prop}

theorem Inside.next (h : Inside M F p S c) (hon : On M q F.base S' d) (hS : S' ≤ S)
    (hm : Changes (M.below S) c.mem d.mem) : Inside M F q S' d :=
  ⟨hon, h.framed.lower hS, Nat.le_trans hS h.le, h.mem.trans (hm.mono fun _ => below_mono h.le)⟩

/-- The processor moved on, and the stack is as it was. -/
theorem Inside.keep (h : Inside M F p S c) (hon : On M q F.base S d) (hm : d.mem = c.mem) :
    Inside M F q S d :=
  h.next hon (Nat.le_refl S) (by rw [hm]; exact .refl)

/-- The prologue sets up such a frame. -/
theorem prologue_inside {B lv argc : Nat} {v : BitVec 32} (h : On M p B S c)
    (hc : Code bin len Y p (prologue_items v ++ xs)) (hv : v = BitVec.ofInt 32 (lv : Int) + 32)
    (hlv : lv % 4 = 0) (hmax : lv + 47 < 2 ^ 31) (hargc : argc ≤ 2 ^ 27) (hhi : S + 8 + 8 * argc ≤ M.hi)
    (hroom : M.lo + lv + 56 ≤ S) :
    Leads Cpu.step n (fun d => ∃ (F : Frame) (S' : Nat), F.lv = lv ∧ F.argc = argc ∧ F.base = S - 8 ∧
      F.mem = d.mem ∧ Inside M F (p + size (prologue_items v)) S' d) c := by
  refine (h.prologue hc hv (by omega) hroom).mono fun d hd => ?_
  obtain ⟨S', hS', hon, -, hclear⟩ := hd
  refine ⟨⟨lv, argc, S - 8, S', d.mem, hclear hmax⟩, S', rfl, rfl, rfl, rfl, hon, ?_, Nat.le_refl S', .refl⟩
  exact ⟨hlv, (by omega : lv < 2 ^ 31), hargc, (by omega : M.lo + lv + 8 ≤ S - 8),
    (by omega : S - 8 + 16 + 8 * argc ≤ M.hi), hS'⟩

theorem Computes.visit (h : Computes M Y F n xs o) : Computes M Y F n (.visit :: xs) o := by
  intro p S c hc hin
  have := h p S c hc.tail hin
  simpa only [size_cons, Item.size, Nat.zero_add] using this

/-- `rax` is pushed. -/
theorem push_pushes (hc : Code bin len Y p (.op .push_rax :: xs)) (h : Inside M F p S c) :
    Leads Cpu.step n (fun d => M.Low d ∨ Pushes M F (p + 1) S c.mem (some c.rax) d) c := by
  by_cases hlow : M.Low c
  · exact .here (Or.inl hlow)
  have htop := h.framed.top_le
  obtain ⟨d, hd, hon, hch, hword⟩ := h.on.push hc (by omega) hlow
  exact .ahead hd (.here (Or.inr ⟨hon, hch, hword⟩))

/-! ### Literals and variables -/

theorem int_computes (v : BitVec 64) :
    Computes M Y F n [.ins ⟨.movabs_rax, v.toNat⟩, .op .push_rax] (some v) := by
  intro p S c hc hin
  have hv : BitVec.ofNat 64 (v.toNat % 256 ^ 8) = v := by
    rw [Nat.mod_eq_of_lt (Nat.lt_of_lt_of_le v.isLt (by decide)), BitVec.ofNat_toNat, BitVec.setWidth_eq]
  have hstep : c.step = some { c with rip := place M.base (p + 10), rax := v } := by
    rw [hin.on.fetch hc]
    exact congrArg (fun r => some { c with rip := place M.base (p + 10), rax := r }) hv
  have hin' : Inside M F (p + 10) S { c with rip := place M.base (p + 10), rax := v } :=
    hin.keep ⟨hin.on.loaded, rfl, hin.on.rbp, hin.on.rsp⟩ rfl
  exact .ahead hstep (push_pushes hc.tail hin')

/-- With the memory `m` the instruction that loads a variable leaves `v` in `rax`. -/
def Loads (F : Frame) (offset : Int) (m : Store) (v : BitVec 64) : Prop :=
  ∀ c : Cpu, c.rbp.toNat = F.base → c.mem = m →
    c.exec ⟨if offset < 0 then .mov_rbp_rax else .mov_rbp_eax, (disp offset).toNat % 256 ^ 4⟩
      = some { c with rax := v }

theorem load_computes {offset : Int} {v : BitVec 64}
    (hv : ∀ p S c, Inside M F p S c → Loads F offset c.mem v) :
    Computes M Y F n (load_items offset) (some v) := by
  intro p S c hc hin
  have hw : (if offset < 0 then Op.mov_rbp_rax else .mov_rbp_eax).width = 4 := by split <;> rfl
  have hfetch := hin.on.fetch hc
  rw [hw] at hfetch
  have hstep := hfetch.trans (hv p S c hin _ hin.on.rbp rfl)
  refine .ahead hstep ?_
  have hpush := push_pushes (n := n) hc.tail
    (hin.keep (d := { c with rax := v, rip := _ }) ⟨hin.on.loaded, rfl, hin.on.rbp, hin.on.rsp⟩ rfl)
  rw [Nat.add_assoc] at hpush
  exact hpush

/-- A local variable is loaded without its sign. -/
theorem local_computes {x : Int} (hx : Local F.lv x) :
    Computes M Y F n (load_items x) (some ((F.int x).setWidth 64)) := by
  refine load_computes fun p S c hin c' hb hmem => ?_
  have hclear := F.clear
  have hf := hin.framed
  have hlow := hf.low
  have ha := local_address hb hx hf.words hf.ints (by omega)
  have hbase := c'.rbp.isLt
  have h0 := hx.1
  have hval : dword c'.mem (F.base - (x.toNat + 8)) = F.int x := by
    unfold Frame.int dword
    rw [hmem, le_congr fun y hy hy' => hin.mem y fun hbelow => ?_]
    have := hbelow.2
    have := hx.2.2
    omega
  rw [if_neg (by omega), ← hval]
  unfold Cpu.exec
  simp only
  rw [ha, if_pos]
  unfold fits
  rw [ha]
  exact decide_eq_true (by omega)

/-- A parameter is loaded as the word it is. -/
theorem param_computes {i : Nat} (hi : i < F.argc) :
    Computes M Y F n (load_items (-12 - 4 * (i : Int))) (some (F.param i)) := by
  refine load_computes fun p S c hin c' hb hmem => ?_
  have hclear := F.clear
  have hf := hin.framed
  have hhigh := hf.high
  have hparams := hf.params
  have htop := M.top
  have hval : c'.mem.word (F.base + 16 + 8 * i) = F.param i := by
    rw [hmem]
    refine hin.mem.word fun y hy hy' hbelow => ?_
    have := hbelow.2
    omega
  rw [if_pos (by omega), load_param hb (by omega) (by omega), hval]

/-! ### Operators -/

/-- Two expressions, one after the other: both words are on the stack. -/
theorem Computes.both (hl : Computes M Y F n xs (some u)) (hr : Computes M Y F n ys (some w))
    (hc : Code bin len Y p (xs ++ ys)) (h : Inside M F p S c) (hlow : ∀ d, M.Low d → Q d)
    (hQ : ∀ d, Inside M F (p + size (xs ++ ys)) (S - 8 - 8) d → 16 ≤ S → Changes (M.below S) c.mem d.mem →
      d.mem.word (S - 8) = u → d.mem.word (S - 8 - 8) = w → Leads Cpu.step n Q d) :
    Leads Cpu.step n Q c := by
  refine (hl p S c hc.left h).bind fun d hd => ?_
  rcases hd with hd | ⟨hon, hch, hword⟩
  · exact .here (hlow d hd)
  have hin := h.next hon (Nat.sub_le _ _) hch
  refine (hr _ _ d hc.right hin).bind fun e he => ?_
  rcases he with he | ⟨hon', hch', hword'⟩
  · exact .here (hlow e he)
  by_cases hl' : M.Low e
  · exact .here (hlow e hl')
  have hroom := not_low hon' hl'
  have hmargin := M.margin
  have hin' := hin.next hon' (Nat.sub_le _ _) hch'
  refine hQ e ?_ (by omega) (hch.trans (hch'.mono fun _ => below_mono (Nat.sub_le _ _))) ?_ hword'
  · rw [size_append, ← Nat.add_assoc]
    exact hin'
  · rw [← hword]
    refine hch'.word fun y hy hy' hbelow => ?_
    have := hbelow.2
    omega

/-- Two expressions of which one is refused. -/
theorem refused_leads {o' : Option (BitVec 64)} (hl : Computes M Y F n xs o)
    (hr : Computes M Y F n ys o') (hno : o = none ∨ o' = none) (hc : Code bin len Y p (xs ++ ys))
    (h : Inside M F p S c) : Leads Cpu.step n (fun d => M.Low d ∨ d.step = none) c := by
  refine (hl p S c hc.left h).bind fun d hd => ?_
  rcases hd with hd | hd
  · exact .here (Or.inl hd)
  cases o with
  | none => exact .here (Or.inr hd)
  | some u =>
      obtain rfl : o' = none := hno.resolve_left nofun
      obtain ⟨hon, hch, -⟩ := hd
      exact hr _ _ d hc.right (h.next hon (Nat.sub_le _ _) hch)

/-- The two operands are popped. -/
theorem Inside.pops (h : Inside M F p (S - 8 - 8) d) (hin : Inside M F q S c)
    (hm : Changes (M.below S) c.mem d.mem)
    (hc : Code bin len Y p (.op .pop_rbx :: .op .pop_rax :: xs)) (hS : 16 ≤ S)
    (hu : d.mem.word (S - 8) = u) (hw : d.mem.word (S - 8 - 8) = w)
    (hQ : ∀ e, Inside M F (p + 2) S e → e.mem = d.mem → e.rax = u → e.rbx = w →
      Leads Cpu.step n Q e) : Leads Cpu.step n Q d := by
  refine pops_leads hc hin.framed hS h.on fun e hon hmem hrax hrbx => ?_
  exact hQ e (hin.next hon (Nat.le_refl S) (hmem ▸ hm)) hmem (hrax.trans hu) (hrbx.trans hw)

/-- What the instructions of an operator leave in `rax`; an operator without instructions
leaves the left operand there. -/
def binWord (op : Int) (u w : BitVec 64) : Option (BitVec 64) :=
  if op = '+'.toNat then some (u + w)
  else if op = '-'.toNat then some (u - w)
  else if op = '*'.toNat then some (u * w)
  else if op = '/'.toNat then quotient u w
  else some u

/-- The instruction at `p` is executed and changes no more than `rax`, `rdx` and the flags. -/
theorem Inside.step {i : Op} (h : Inside M F p S c) (hc : Code bin len Y p (.op i :: xs))
    (he : Cpu.exec { c with rip := place M.base (p + Item.size (.op i)) } ⟨i, 0⟩ = some d)
    (hmem : d.mem = c.mem) (hrip : d.rip = place M.base (p + Item.size (.op i))) (hrbp : d.rbp = c.rbp)
    (hrsp : d.rsp = c.rsp) : c.step = some d ∧ Inside M F (p + Item.size (.op i)) S d := by
  have hfetch := h.on.fetch hc
  rw [Nat.zero_mod] at hfetch
  refine ⟨hfetch.trans he, h.keep ⟨?_, hrip, ?_, ?_⟩ hmem⟩
  · rw [hmem]
    exact h.on.loaded
  · rw [hrbp]
    exact h.on.rbp
  · rw [hrsp]
    exact h.on.rsp

/-- The instructions of an operator. -/
theorem bin_leads (op : Int) (h : Inside M F p S c) (hc : Code bin len Y p (bin_items op ++ xs))
    (hQ : ∀ d r, binWord op c.rax c.rbx = some r → Inside M F (p + size (bin_items op)) S d →
      d.mem = c.mem → d.rax = r → Leads Cpu.step n Q d)
    (hno : ∀ d, binWord op c.rax c.rbx = none → d.step = none → Q d) : Leads Cpu.step n Q c := by
  unfold bin_items binWord at *
  split_ifs at hc hQ hno ⊢ with h1 h2 h3 h4
  · obtain ⟨hs, hin⟩ := h.step hc rfl rfl rfl rfl rfl
    exact .ahead hs (hQ _ _ rfl hin rfl rfl)
  · obtain ⟨hs, hin⟩ := h.step hc rfl rfl rfl rfl rfl
    exact .ahead hs (hQ _ _ rfl hin rfl rfl)
  · obtain ⟨hs, hin⟩ := h.step hc rfl rfl rfl rfl rfl
    exact .ahead hs (hQ _ _ rfl hin rfl rfl)
  · -- the sign of the dividend goes to `rdx`
    obtain ⟨hs, hin⟩ := h.step hc rfl rfl rfl rfl rfl
    refine .ahead hs ?_
    have hc' := hc.tail
    have hdiv := idiv_eq { c with
      rip := place M.base (p + Item.size (.op .cqo) + Item.size (.op .idiv_rbx))
      rdx := if c.rax.msb then BitVec.allOnes 64 else 0 } rfl
    cases hq : quotient c.rax c.rbx with
    | none =>
        refine .here (hno _ hq ?_)
        rw [hin.on.fetch hc', Nat.zero_mod]
        exact hdiv.trans (congrArg (Option.map _) hq)
    | some r =>
        obtain ⟨hs', hin'⟩ := hin.step hc' (hdiv.trans (congrArg (Option.map _) hq)) rfl rfl rfl rfl
        refine .ahead hs' (hQ _ r hq ?_ rfl rfl)
        rw [Nat.add_assoc] at hin'
        exact hin'
  · exact hQ c _ rfl h rfl rfl

/-- The code of a binary operator. -/
theorem bin_computes {o' : Option (BitVec 64)} (op : Int) (hl : Computes M Y F n xs o)
    (hr : Computes M Y F n ys o') :
    Computes M Y F n (xs ++ ys ++ [.op .pop_rbx, .op .pop_rax] ++ bin_items op ++ [.op .push_rax])
      (o.bind fun u => o'.bind fun w => binWord op u w) := by
  intro p S c hc hin
  have hpair := hc.left.left.left
  have hrest : Code bin len Y (p + size (xs ++ ys))
      (.op .pop_rbx :: .op .pop_rax :: (bin_items op ++ [.op .push_rax])) := by
    have := hc
    rw [List.append_assoc, List.append_assoc] at this
    exact this.right
  have hsize : p + size (xs ++ ys ++ [.op .pop_rbx, .op .pop_rax] ++ bin_items op ++ [.op .push_rax]) =
      p + size (xs ++ ys) + 2 + size (bin_items op) + 1 := by
    simp only [size_append, size_cons, size_nil]
    show _ + (_ + _ + (1 + (1 + 0)) + _ + (1 + 0)) = _
    omega
  rw [hsize]
  by_cases hno : o = none ∨ o' = none
  · have hnone : (o.bind fun u => o'.bind fun w => binWord op u w) = none := by
      rcases hno with rfl | rfl
      · rfl
      · cases o with
        | none => rfl
        | some u => rfl
    rw [hnone]
    exact refused_leads hl hr hno hpair hin
  obtain ⟨u, rfl⟩ := Option.ne_none_iff_exists'.mp fun h => hno (Or.inl h)
  obtain ⟨w, rfl⟩ := Option.ne_none_iff_exists'.mp fun h => hno (Or.inr h)
  refine hl.both hr hpair hin (fun d => Or.inl) fun d hd hS hch hu hw => ?_
  refine hd.pops hin hch hrest hS hu hw fun e he hmem hrax hrbx => ?_
  refine bin_leads op he hrest.tail.tail (fun f r hr' hf hmem' hfrax => ?_) fun f hf hstop => ?_
  · rw [hrax, hrbx] at hr'
    refine (push_pushes (Code.right hrest.tail.tail) hf).mono fun g hg => hg.imp_right fun hg => ?_
    show Pushes M F _ S c.mem (binWord op u w) g
    rw [hr', ← hfrax]
    exact ⟨hg.1, hch.trans (hmem ▸ hmem' ▸ hg.2.1), hg.2.2⟩
  · rw [hrax, hrbx] at hf
    refine Or.inr ?_
    show Pushes M F _ S c.mem (binWord op u w) f
    rw [hf]
    exact hstop

/-! ### Conditions -/

/-- A comparison and its jump. -/
theorem compare_decides {o' : Option (BitVec 64)} (k : Cond) (l : Nat) (hl : Computes M Y F n xs o)
    (hr : Computes M Y F n ys o') :
    Decides M Y F n ([.visit] ++ xs ++ ys ++
        [.op .pop_rbx, .op .pop_rax, .op .cmp_rbx_rax, .jump (.jcc k) l]) l
      (o.bind fun u => o'.bind fun w => some (!k.compares u.toInt w.toInt)) := by
  intro p S c hc hin hlab
  have hpair : Code bin len Y p ((.visit :: xs) ++ ys) := hc.left
  have hrest : Code bin len Y (p + size (.visit :: xs ++ ys))
      [.op .pop_rbx, .op .pop_rax, .op .cmp_rbx_rax, .jump (.jcc k) l] := hc.right
  have hjcc : Item.size (.jump (.jcc k) l) = 6 := by cases k <;> rfl
  have hsize : p + size ([.visit] ++ xs ++ ys ++ [.op .pop_rbx, .op .pop_rax, .op .cmp_rbx_rax,
      .jump (.jcc k) l]) = p + size (.visit :: xs ++ ys) + 2 + 3 + 6 := by
    simp only [size_append, size_cons, size_nil, hjcc]
    show _ + (_ + _ + (1 + (1 + (3 + _)))) = _
    omega
  rw [hsize]
  by_cases hno : o = none ∨ o' = none
  · have hnone : (o.bind fun u => o'.bind fun w => some (!k.compares u.toInt w.toInt)) = none := by
      rcases hno with rfl | rfl
      · rfl
      · cases o with
        | none => rfl
        | some u => rfl
    rw [hnone]
    exact refused_leads hl.visit hr hno hpair hin
  obtain ⟨u, rfl⟩ := Option.ne_none_iff_exists'.mp fun h => hno (Or.inl h)
  obtain ⟨w, rfl⟩ := Option.ne_none_iff_exists'.mp fun h => hno (Or.inr h)
  refine hl.visit.both hr hpair hin (fun d => Or.inl) fun d hd hS hch hu hw => ?_
  refine hd.pops hin hch hrest hS hu hw fun e he hmem hrax hrbx => ?_
  obtain ⟨hs, hin'⟩ := he.step hrest.tail.tail rfl rfl rfl rfl rfl
  obtain ⟨r, hr', hon, hmem'⟩ := hin'.on.branch hrest.tail.tail.tail hlab
  have hholds := holds_cmp { e with rip := place M.base (p + size (.visit :: xs ++ ys) + 2 + 3) }
    e.rax e.rbx k
  refine .ahead hs (.ahead hr' (.here (Or.inr ⟨?_, ?_⟩)))
  · have hon' : On M (if k.compares e.rax.toInt e.rbx.toInt then Y.label l
        else p + size (.visit :: xs ++ ys) + 2 + 3 + 6) F.base S r := by
      rw [← hholds]
      exact hon
    rw [hrax, hrbx] at hon'
    cases hb : k.compares u.toInt w.toInt with
    | true => simpa [hb] using hon'
    | false => simpa [hb] using hon'
  · rw [hmem']
    exact hmem ▸ hch

/-- Both paths that emit a jump emit the same bytes. -/
theorem Code.jump {op : Op} (h : Code bin len Y p (.test op l :: xs)) :
    Code bin len Y p (.jump op l :: xs) :=
  ⟨h.here, h.inside⟩

/-- An expression that is not a binary operator, and the jump if it is zero. -/
theorem test_decides (l : Nat) (h : Computes M Y F n xs o) :
    Decides M Y F n ([.visit] ++ xs ++ [.op .pop_rax, .op .test_rax_rax, .test (.jcc .e) l]) l
      (o.map fun u => decide (u ≠ 0)) := by
  intro p S c hc hin hlab
  have hcode : Code bin len Y p (.visit :: xs) := hc.left
  have hrest : Code bin len Y (p + size (.visit :: xs))
      [.op .pop_rax, .op .test_rax_rax, .test (.jcc .e) l] := hc.right
  have hsize : p + size ([.visit] ++ xs ++ [.op .pop_rax, .op .test_rax_rax, .test (.jcc .e) l])
      = p + size (.visit :: xs) + 1 + 3 + 6 := by
    simp only [size_append, size_cons, size_nil]
    show _ + (_ + _ + (1 + (3 + (6 + 0)))) = _
    omega
  rw [hsize]
  refine (h.visit p S c hcode hin).bind fun d hd => ?_
  rcases hd with hd | hd
  · exact .here (Or.inl hd)
  cases o with
  | none => exact .here (Or.inr hd)
  | some u =>
      obtain ⟨hon, hch, hword⟩ := hd
      by_cases hlow : M.Low d
      · exact .here (Or.inl hlow)
      have hroom := not_low hon hlow
      have hmargin := M.margin
      have htop := M.top
      have hle := hin.framed.top_le
      have hsum : S - 8 + 8 = S := by omega
      obtain ⟨e, he, hon', hmem, hrax, -⟩ := hon.pop_rax hrest (by omega)
      rw [hsum] at hon'
      have hin' : Inside M F (p + size (.visit :: xs) + 1) S e :=
        hin.next hon' (Nat.le_refl S) (hmem ▸ hch)
      obtain ⟨hs, hin''⟩ := hin'.step hrest.tail rfl rfl rfl rfl rfl
      obtain ⟨r, hr, hon'', hmem'⟩ := hin''.on.branch (k := .e) hrest.tail.tail.jump hlab
      have hholds : Cpu.holds (Cpu.flags
          { e with rip := place M.base (p + size (.visit :: xs) + 1 + 3) } e.rax false) .e
          = decide (u = 0) := by
        rw [← hword, ← hrax]
        rfl
      refine .ahead he (.ahead hs (.ahead hr (.here (Or.inr ⟨?_, ?_⟩))))
      · have hon3 : On M (if decide (u = 0) then Y.label l
            else p + size (.visit :: xs) + 1 + 3 + 6) F.base S r := by
          rw [← hholds]
          exact hon''
        by_cases hu : u = 0
        · simpa [hu] using hon3
        · simpa [hu] using hon3
      · rw [hmem']
        exact hmem ▸ hch

end Eke
