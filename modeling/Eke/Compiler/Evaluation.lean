/-
The code of expressions gives their values.

`Gives` is about the code of an expression: started in a frame that holds the variables, the
processor pushes the value, or it is busy as long as the evaluation is.  `Branches` is the same
for a condition, and `CallsDo` for the functions that are called.  Less of the stack than the
program needs is the one excuse.  The proofs go along the interpreter, bind by bind; the call
instruction is the step with which the code pays for fuel.
-/
import Eke.Compiler.Meaning
import Eke.Compiler.Linking
import Eke.Compiler.Locals

namespace Eke

open Gen Store X86

variable {bin : Store} {len : Nat} {M : Setting bin len} {Y : Symbols} {A : Addresses} {F : Frame}
  {gt : List Node} {ρ : Vars (BitVec 64)} {r : Deeper (BitVec 64)} {top n k p q S S' l : Nat} {c d e : Cpu}
  {xs ys : List Item} {x y : Answer (BitVec 64)} {u w : BitVec 64}

/-- The processor as long as its stack pointer is not above `top`. -/
def upTo (top : Nat) : Cpu → Option Cpu := guarded Cpu.step fun c => c.rsp.toNat ≤ top

theorem upTo_eq (h : c.rsp.toNat ≤ top) : upTo top c = c.step := guarded_eq h

theorem Inside.up (h : Inside M F p S c) (htop : F.base ≤ top) : upTo top c = c.step := by
  refine upTo_eq ?_
  rw [h.on.rsp]
  exact Nat.le_trans h.framed.sp htop

/-- In the frame the variable at `x` is the word `v`. -/
def Frame.Stands (F : Frame) (x : Int) (v : BitVec 64) : Prop :=
  Local F.lv x ∧ (F.int x).setWidth 64 = v ∨
    ∃ i : Nat, i < F.argc ∧ x = -12 - 4 * (i : Int) ∧ F.param i = v

/-- The frame holds what the variables hold. -/
structure Frame.Holds (F : Frame) (ρ : Vars (BitVec 64)) : Prop where
  lv : F.lv = ρ.lv
  argc : F.argc = ρ.argc
  held : ∀ x v, ρ.held x = some v → F.Stands x v

section

variable (M Y F top n)

/-- The code of an expression gives its value. -/
def Gives (xs : List Item) (x : Answer (BitVec 64)) : Prop :=
  ∀ p S c, Code bin len Y p xs → Inside M F p S c →
    Fulfils (upTo top) n M.Low (fun u => Pushes M F (p + size xs) S c.mem (some u)) x c

/-- The code of a condition runs on where it holds and jumps to the label where it does not. -/
def Branches (xs : List Item) (l : Nat) (b : Answer Bool) : Prop :=
  ∀ p S c, Code bin len Y p xs → Inside M F p S c → Y.label l ≤ len →
    Fulfils (upTo top) n M.Low (fun b => Goes M F (p + size xs) (Y.label l) S c.mem (some b)) b c

end

/-! ### Literals and variables -/

theorem Gives.visit (h : Gives M Y F top n xs x) : Gives M Y F top n (.visit :: xs) x := by
  intro p S c hc hin
  have := h p S c hc.tail hin
  simpa only [size_cons, Item.size, Nat.zero_add] using this

section

variable (htop : F.base ≤ top)
include htop

/-- `rax` is pushed. -/
theorem push_gives (hc : Code bin len Y p (.op .push_rax :: xs)) (h : Inside M F p S c) :
    Fulfils (upTo top) n M.Low (fun u => Pushes M F (p + 1) S c.mem (some u)) (.is c.rax) c := by
  by_cases hlow : M.Low c
  · exact .give_up hlow
  have hle := h.framed.top_le
  obtain ⟨d, hd, hon, hch, hword⟩ := h.on.push hc (by omega) hlow
  exact .ahead ((h.up htop).trans hd) (.here ⟨hon, hch, hword⟩)

/-- An instruction that leaves a word in `rax`, and the push behind it. -/
theorem rax_gives {i : Item} (hc : Code bin len Y p (i :: .op .push_rax :: xs)) (h : Inside M F p S c)
    (hd : c.step = some d) (hon : On M (p + i.size) F.base S d) (hmem : d.mem = c.mem) :
    Fulfils (upTo top) n M.Low (fun u => Pushes M F (p + size [i, .op .push_rax]) S c.mem (some u))
      (.is d.rax) c := by
  refine .ahead ((h.up htop).trans hd) ?_
  have := push_gives (n := n) htop hc.tail (h.keep hon hmem)
  rwa [hmem, Nat.add_assoc] at this

theorem int_gives (v : BitVec 64) :
    Gives M Y F top n [.ins ⟨.movabs_rax, v.toNat⟩, .op .push_rax] (.is v) := by
  intro p S c hc hin
  have hv : BitVec.ofNat 64 (v.toNat % 256 ^ 8) = v := by
    rw [Nat.mod_eq_of_lt (Nat.lt_of_lt_of_le v.isLt (by decide)), BitVec.ofNat_toNat, BitVec.setWidth_eq]
  have hstep : c.step = some { c with rip := place M.base (p + 10), rax := v } := by
    rw [hin.on.fetch hc]
    exact congrArg (fun r => some { c with rip := place M.base (p + 10), rax := r }) hv
  exact rax_gives htop hc hin hstep ⟨hin.on.loaded, rfl, hin.on.rbp, hin.on.rsp⟩ rfl

theorem load_gives {offset : Int} {v : BitVec 64}
    (hv : ∀ p S c, Inside M F p S c → Loads F offset c.mem v) :
    Gives M Y F top n (load_items offset) (.is v) := by
  intro p S c hc hin
  have hw : (if offset < 0 then Op.mov_rbp_rax else .mov_rbp_eax).width = 4 := by split <;> rfl
  have hfetch := hin.on.fetch hc
  rw [hw] at hfetch
  have hstep := hfetch.trans (hv p S c hin _ hin.on.rbp rfl)
  exact rax_gives htop hc hin hstep ⟨hin.on.loaded, rfl, hin.on.rbp, hin.on.rsp⟩ rfl

omit htop in
/-- A local variable is loaded without its sign. -/
theorem local_loads {z : Int} (hz : Local F.lv z) (h : Inside M F p S c) :
    Loads F z c.mem ((F.int z).setWidth 64) := by
  intro c' hb hmem
  have hclear := F.clear
  have hf := h.framed
  have hlow := hf.low
  have ha := local_address hb hz hf.words hf.ints (by omega)
  have hbase := c'.rbp.isLt
  obtain ⟨h0, h4, hlt⟩ := hz
  have hval : dword c'.mem (F.base - (z.toNat + 8)) = F.int z := by
    unfold Frame.int dword
    rw [hmem, le_congr fun y hy hy' => h.mem y fun hbelow => ?_]
    have := hbelow.2
    omega
  rw [if_neg (by omega), ← hval]
  unfold Cpu.exec
  simp only
  rw [ha, if_pos]
  unfold fits
  rw [ha]
  exact decide_eq_true (by omega)

omit htop in
/-- A parameter is loaded as the word it is. -/
theorem param_loads {i : Nat} (hi : i < F.argc) (h : Inside M F p S c) :
    Loads F (-12 - 4 * (i : Int)) c.mem (F.param i) := by
  intro c' hb hmem
  have hclear := F.clear
  have hf := h.framed
  have hhigh := hf.high
  have hparams := hf.params
  have hmax := M.top
  have hval : c'.mem.word (F.base + 16 + 8 * i) = F.param i := by
    rw [hmem]
    refine h.mem.word fun y hy hy' hbelow => ?_
    have := hbelow.2
    omega
  rw [if_pos (by omega), load_param hb (by omega) (by omega), hval]

theorem var_gives (hρ : F.Holds ρ) (offset : Int) :
    Gives M Y F top n (load_items offset) (.ofOption (ρ.held offset)) := by
  cases hv : ρ.held offset with
  | none => exact fun _ _ _ _ _ => trivial
  | some v =>
      rcases hρ.held offset v hv with ⟨hz, rfl⟩ | ⟨i, hi, rfl, rfl⟩
      · exact load_gives htop fun p S c h => local_loads hz h
      · exact load_gives htop fun p S c h => param_loads hi h

/-! ### Operators -/

omit htop in
/-- What is done behind an expression that is followed by more code. -/
theorem Gives.step {α : Type} {f : BitVec 64 → Answer α} {G : α → Cpu → Prop}
    (h : Gives M Y F top n xs x) (hc : Code bin len Y p (xs ++ ys)) (hin : Inside M F p S c)
    (hk : ∀ u d, 8 ≤ S → Inside M F (p + size xs) (S - 8) d → Changes (M.below S) c.mem d.mem →
      d.mem.word (S - 8) = u → Fulfils (upTo top) n M.Low G (f u) d) :
    Fulfils (upTo top) n M.Low G (x >>= f) c := by
  refine (h p S c hc.left hin).bind fun u d _ hd => ?_
  obtain ⟨hon, hch, hword⟩ := hd
  by_cases hlow : M.Low d
  · exact .give_up hlow
  have hroom := not_low hon hlow
  have hmargin := M.margin
  exact hk u d (by omega) (hin.next hon (Nat.sub_le _ _) hch) hch hword

/-- The two operands are popped. -/
theorem pops_gives {α : Type} {z : Answer α} {G : α → Cpu → Prop} (hS : 16 ≤ S)
    (hc : Code bin len Y q (.op .pop_rbx :: .op .pop_rax :: xs)) (hin : Inside M F p S c)
    (h : Inside M F q (S - 8 - 8) d) (hch : Changes (M.below S) c.mem d.mem)
    (hu : d.mem.word (S - 8) = u) (hw : d.mem.word (S - 8 - 8) = w)
    (hk : ∀ e, Inside M F (q + 2) S e → Changes (M.below S) c.mem e.mem → e.rax = u → e.rbx = w →
      Fulfils (upTo top) n M.Low G z e) : Fulfils (upTo top) n M.Low G z d := by
  have hmax := M.top
  have hle := hin.framed.top_le
  have hsum : S - 8 - 8 + 8 = S - 8 := by omega
  obtain ⟨d', hd', hon, hmem, hrbx⟩ := h.on.pop_rbx hc (by omega)
  rw [hsum] at hon
  have hin' : Inside M F (q + 1) (S - 8) d' := hin.next hon (Nat.sub_le _ _) (hmem ▸ hch)
  obtain ⟨e, he, hon', hmem', hrax, hrbx'⟩ := hin'.on.pop_rax hc.tail (by omega)
  rw [show S - 8 + 8 = S by omega] at hon'
  have hmem2 : e.mem = d.mem := hmem'.trans hmem
  refine .ahead ((h.up htop).trans hd') (.ahead ((hin'.up htop).trans he) ?_)
  refine hk e (hin.next hon' (Nat.le_refl S) (hmem2 ▸ hch)) (hmem2 ▸ hch) ?_ ?_
  · rw [hrax, hmem, hu]
  · rw [hrbx', hrbx, hw]

/-- The instructions of an operator. -/
theorem bin_reaches (op : Int) (h : Inside M F p S c) (hc : Code bin len Y p (bin_items op ++ xs))
    (hr : binWord op c.rax c.rbx = some u) :
    Attains (upTo top) (fun d => M.Low d ∨ Inside M F (p + size (bin_items op)) S d ∧ d.mem = c.mem ∧
      d.rax = u) c := by
  unfold bin_items binWord at *
  split_ifs at hc hr ⊢ with h1 h2 h3 h4
  · obtain ⟨hs, hin⟩ := h.step hc rfl rfl rfl rfl rfl
    exact .ahead ((h.up htop).trans hs) (.here (Or.inr ⟨hin, rfl, Option.some.inj hr⟩))
  · obtain ⟨hs, hin⟩ := h.step hc rfl rfl rfl rfl rfl
    exact .ahead ((h.up htop).trans hs) (.here (Or.inr ⟨hin, rfl, Option.some.inj hr⟩))
  · obtain ⟨hs, hin⟩ := h.step hc rfl rfl rfl rfl rfl
    exact .ahead ((h.up htop).trans hs) (.here (Or.inr ⟨hin, rfl, Option.some.inj hr⟩))
  · -- the sign of the dividend goes to `rdx`
    obtain ⟨hs, hin⟩ := h.step hc rfl rfl rfl rfl rfl
    have hdiv := idiv_eq { c with
      rip := place M.base (p + Item.size (.op .cqo) + Item.size (.op .idiv_rbx))
      rdx := if c.rax.msb then BitVec.allOnes 64 else 0 } rfl
    have hdiv := hdiv.trans (congrArg (Option.map _) hr)
    obtain ⟨hs', hin'⟩ := hin.step hc.tail hdiv rfl rfl rfl rfl
    refine .ahead ((h.up htop).trans hs) (.ahead ((hin.up htop).trans hs') (.here (Or.inr ?_)))
    rw [Nat.add_assoc] at hin'
    exact ⟨hin', rfl, rfl⟩
  · exact .here (Or.inr ⟨h, rfl, Option.some.inj hr⟩)

/-- The code of a binary operator. -/
theorem bin_gives (op : Int) (hl : Gives M Y F top n xs x) (hr : Gives M Y F top n ys y) :
    Gives M Y F top n (xs ++ ys ++ [.op .pop_rbx, .op .pop_rax] ++ bin_items op ++ [.op .push_rax])
      (x >>= fun u => y >>= fun w => .ofOption (binWord op u w)) := by
  intro p S c hc hin
  have hsize : p + size (xs ++ ys ++ [.op .pop_rbx, .op .pop_rax] ++ bin_items op ++ [.op .push_rax]) =
      p + size xs + size ys + 2 + size (bin_items op) + 1 := by
    simp only [size_append, size_cons, size_nil]
    show _ + (_ + _ + (1 + (1 + 0)) + _ + (1 + 0)) = _
    omega
  rw [hsize]
  have hc' : Code bin len Y p (xs ++ (ys ++ (.op .pop_rbx :: .op .pop_rax :: (bin_items op ++
      [.op .push_rax])))) := by
    simpa only [List.append_assoc, List.cons_append, List.nil_append] using hc
  refine hl.step hc' hin fun u d _ hd hch hu => ?_
  refine hr.step hc'.right hd fun w e hS he hch' hw => ?_
  cases hbin : binWord op u w with
  | none => trivial
  | some v =>
      have hrest := hc'.right.right
      have hword : e.mem.word (S - 8) = u := by
        rw [← hu]
        refine hch'.word fun a ha ha' hb => ?_
        have := hb.2
        omega
      have hch2 := hch.trans (hch'.mono fun a => below_mono (Nat.sub_le _ _))
      refine pops_gives htop (by omega) hrest hin he hch2 hword hw fun f hf hch3 hrax hrbx => ?_
      rw [← hrax, ← hrbx] at hbin
      refine .after (bin_reaches htop op hf hrest.tail.tail hbin) fun g hg => ?_
      obtain ⟨hg, hmem, rfl⟩ := hg
      refine (push_gives htop (Code.right hrest.tail.tail) hg).mono fun a i _ hi => ?_
      obtain ⟨hon, hch4, hword4⟩ := hi
      exact ⟨hon, hch3.trans (hmem ▸ hch4), hword4⟩

/-! ### Arguments -/

/-- The arguments stand on the stack, the first one on top. -/
structure Piled (M : Setting bin len) (B q S : Nat) (m : Store) (us : List (BitVec 64)) (d : Cpu) : Prop where
  on : On M q B (S - 8 * us.length) d
  room : 8 * us.length ≤ S
  mem : Changes (M.below S) m d.mem
  words : ∀ i (h : i < us.length), d.mem.word (S - 8 * (us.length - i)) = us[i]

/-- The code of an argument list gives the values. -/
def GivesAll (M : Setting bin len) (Y : Symbols) (F : Frame) (top n : Nat) (xs : List Item) (count : Nat)
    (a : Answer (List (BitVec 64))) : Prop :=
  ∀ p S c, Code bin len Y p xs → Inside M F p S c →
    Fulfils (upTo top) n M.Low (fun us d => us.length = count ∧ Piled M F.base (p + size xs) S c.mem us d) a c

omit htop in
theorem nil_gives : GivesAll M Y F top n [] 0 (.is []) := by
  intro p S c _ hin
  exact .here ⟨rfl, hin.on, Nat.zero_le S, .refl, fun i h => absurd h (Nat.not_lt_zero i)⟩

omit htop in
theorem cons_gives {count : Nat} {a : Answer (List (BitVec 64))} (hargs : GivesAll M Y F top n xs count a)
    (hone : Gives M Y F top n ys x) :
    GivesAll M Y F top n (xs ++ ys) (count + 1) (a >>= fun us => x >>= fun u => .is (u :: us)) := by
  intro p S c hc hin
  refine (hargs p S c hc.left hin).bind fun us d _ hd => ?_
  obtain ⟨hlen, hpiled⟩ := hd
  have hin' := hin.next hpiled.on (Nat.sub_le _ _) hpiled.mem
  have hc' : Code bin len Y (p + size xs) (ys ++ []) := by
    rw [List.append_nil]
    exact hc.right
  refine hone.step hc' hin' fun u e hS he hch hword => .here ⟨by rw [List.length_cons, hlen], ?_⟩
  have hsum : S - 8 * us.length - 8 = S - 8 * (us.length + 1) := by omega
  refine ⟨?_, ?_, hpiled.mem.trans (hch.mono fun z => below_mono (Nat.sub_le _ _)), fun i h => ?_⟩
  · rw [size_append, ← Nat.add_assoc, List.length_cons, ← hsum]
    exact he.on
  · have := hpiled.room
    rw [List.length_cons]
    omega
  · cases i with
    | zero =>
        rw [List.length_cons, Nat.sub_zero, ← hsum]
        exact hword
    | succ i =>
        have hi : i < us.length := Nat.lt_of_succ_lt_succ h
        rw [List.length_cons, Nat.add_sub_add_right, List.getElem_cons_succ, ← hpiled.words i hi]
        refine hch.word fun z hz hz' hbelow => ?_
        have := hbelow.2
        have := hpiled.room
        omega

/-! ### Calls -/

/-- The processor came back from a function that was entered in state `c`. -/
structure CameBack (M : Setting bin len) (S argc : Nat) (c : Cpu) (v : Option (BitVec 64)) (d : Cpu) :
    Prop where
  rip : d.rip = c.mem.word S
  rbp : d.rbp = c.rbp
  rsp : d.rsp.toNat = S + 8
  mem : Changes (M.below (S + 8 + 8 * argc)) c.mem d.mem
  rax : ∀ u, v = some u → d.rax = u

/-- The functions do what calls of them mean. -/
def CallsDo (M : Setting bin len) (Y : Symbols) (top n : Nat) (r : Deeper (BitVec 64)) : Prop :=
  ∀ f us B S c, On M (Y.func f) B S c → M.lo + M.room ≤ S + 8 → S + 8 + 8 * us.length ≤ M.hi → S ≤ top →
    (∀ i (h : i < us.length), c.mem.word (S + 8 + 8 * i) = us[i]) →
    Fulfils (upTo top) n M.Low (CameBack M S us.length c) (r.call f us) c

omit htop in
/-- Back at the caller, the processor is behind the call instruction. -/
theorem CameBack.on {argc B : Nat} {v : Option (BitVec 64)} (h : CameBack M S argc c v d)
    (hon : On M q B S c) (hret : c.mem.word S = place M.base p) (hhi : S + 8 + 8 * argc ≤ M.hi) :
    On M p B (S + 8) d := by
  refine ⟨Setting.loaded hon.loaded h.mem fun x hx => ⟨hx.1, Nat.lt_of_lt_of_le hx.2 hhi⟩,
    h.rip.trans hret, ?_, h.rsp⟩
  rw [h.rbp]
  exact hon.rbp

/-- The arguments are dropped and the result is pushed. -/
theorem result_gives {f : Name} {m : Nat} (hc : Code bin len Y q (call_items f m))
    (hon : On M (q + 5) F.base (S - 8 * m) d) (hin : Inside M F p S c) (hm : 8 * m ≤ S) (hfew : m ≤ 32)
    (hch : Changes (M.below S) c.mem d.mem) :
    Fulfils (upTo top) n M.Low
      (fun u => Pushes M F (q + size (call_items f m)) S c.mem (some u)) (.is d.rax) d := by
  have hmax := M.top
  have hle := hin.framed.top_le
  -- the push, wherever it stands
  have hpush : ∀ (t : Nat) (e : Cpu), Code bin len Y t [.op .push_rax] → On M t F.base S e →
      e.mem = d.mem → e.rax = d.rax → t + 1 = q + size (call_items f m) →
      Fulfils (upTo top) n M.Low
        (fun u => Pushes M F (q + size (call_items f m)) S c.mem (some u)) (.is d.rax) e := by
    intro t e hcode he hmem hrax ht
    rw [← ht, ← hrax]
    refine (push_gives htop hcode (hin.next he (Nat.le_refl S) (hmem ▸ hch))).mono fun u g _ hg => ?_
    obtain ⟨hong, hchg, hword⟩ := hg
    exact ⟨hong, hch.trans (hmem ▸ hchg), hword⟩
  have hind : Inside M F (q + 5) (S - 8 * m) d := hin.next hon (Nat.sub_le _ _) hch
  unfold call_items at hc hpush ⊢
  by_cases hpos : 0 < m
  · rw [if_pos hpos] at hc hpush ⊢
    have hrest : Code bin len Y (q + 5) [.ins ⟨.add_rsp, (BitVec.ofNat 32 (m * 8)).toNat⟩, .op .push_rax] :=
      hc.tail
    obtain ⟨e, he, hone, hmem, hrax⟩ := hon.drop hrest hfew (by omega)
    rw [show S - 8 * m + m * 8 = S by omega] at hone
    exact .ahead ((hind.up htop).trans he) (hpush _ e hrest.tail hone hmem hrax rfl)
  · obtain rfl : m = 0 := by omega
    rw [if_neg hpos] at hc hpush ⊢
    exact hpush _ d hc.tail hon rfl rfl rfl

/-- A call, from its first argument to the push of the result; the call instruction is the step
that the callee's fuel is short of. -/
theorem call_gives {f : Name} {count : Nat} {a : Answer (List (BitVec 64))} (hcalls : CallsDo M Y top n r)
    (hfun : Y.func f ≤ len) (hargs : GivesAll M Y F top (n + 1) xs count a) (hfew : count ≤ 32)
    (hc : Code bin len Y p (xs ++ call_items f count)) (hin : Inside M F p S c) :
    Fulfils (upTo top) (n + 1) M.Low (fun v d => ∃ w, Pushes M F (p + size (xs ++ call_items f count)) S c.mem
      (some w) d ∧ ∀ u, v = some u → w = u) (a >>= fun us => r.call f us) c := by
  refine (hargs p S c hc.left hin).bind fun us d _ hd => ?_
  obtain ⟨rfl, hpiled⟩ := hd
  by_cases hlow : M.Low d
  · exact .give_up hlow
  have hge := not_low hpiled.on hlow
  have hmargin := M.margin
  have hle := hin.framed.top_le
  have hsp := hin.framed.sp
  have hroom := hpiled.room
  have hind := hin.next hpiled.on (Nat.sub_le _ _) hpiled.mem
  obtain ⟨e, he, hone, hmem⟩ := hpiled.on.call hc.right hfun (by omega) hlow
  have hwords : ∀ i (h : i < us.length),
      e.mem.word (S - 8 * us.length - 8 + 8 + 8 * i) = us[i] := by
    intro i hi
    rw [hmem, word_setWord_out (by omega), ← hpiled.words i hi]
    congr 1
    omega
  have hcall := hcalls f us F.base (S - 8 * us.length - 8) e hone (by omega) (by omega) (by omega) hwords
  refine .next ((hind.up htop).trans he) (hcall.further fun v g _ hg => ?_)
  have hchd : Changes (M.below S) c.mem e.mem := by
    rw [hmem]
    exact hpiled.mem.trans (changes_setWord fun x hx hx' => ⟨by omega, by omega⟩)
  have hchg : Changes (M.below S) c.mem g.mem := by
    refine hchd.trans (hg.mem.mono fun x hx => ⟨hx.1, ?_⟩)
    have := hx.2
    omega
  have hret : e.mem.word (S - 8 * us.length - 8) = place M.base (p + size xs + 5) := by
    rw [hmem, word_setWord]
  have hong := hg.on hone hret (by omega)
  rw [show S - 8 * us.length - 8 + 8 = S - 8 * us.length by omega] at hong
  have hresult := result_gives (n := n) htop hc.right hong hin hroom hfew hchg
  refine Attains.mono hresult fun i hi => hi.imp_right fun hi => ⟨g.rax, ?_, hg.rax⟩
  rw [size_append, ← Nat.add_assoc]
  exact hi

end

/-! ### Expressions -/

theorem args_items_nil (m : Nat) : args_items A .code m .null k = [] := by
  cases m <;> simp only [args_items]

theorem callable_items {f : Name} {args : Node} (h : callable f args = true) (t : Int) :
    chainLength args ≤ 32 ∧ kind_items A .code (.call f args t) k =
      args_items A .code 32 args k ++ call_items f (chainLength args) := by
  unfold callable at h
  obtain ⟨hplain, hfew⟩ := of_decide_eq_true h
  refine ⟨hfew, ?_⟩
  unfold isBuiltin at hplain
  simp only [not_or] at hplain
  have hcut : cut_items Limits.code.args args = [] := cut_none hfew
  have hmin : min (chainLength args) Limits.code.args = chainLength args := Nat.min_eq_left hfew
  simp only [kind_items, if_neg hplain.1, if_neg hplain.2.2.2]
  rw [if_neg (by simp only [not_or]; exact ⟨hplain.2.1, hplain.2.2.1⟩), hcut, hmin]
  rfl

mutual

/-- The code of every expression gives its value. -/
theorem node_gives (htop : F.base ≤ top) (hcalls : CallsDo M Y top n r) (hfun : ∀ f, Y.func f ≤ len)
    (hρ : F.Holds ρ) : ∀ (e : Node) (k : Nat),
    Gives M Y F top (n + 1) (node_items A .code e k) (node_value wordValues r ρ e)
  | .null, k => fun _ _ _ _ _ => trivial
  | .mk _ kind _ _, k => by
      simp only [node_items, node_value]
      exact (kind_gives htop hcalls hfun hρ kind k).visit

theorem kind_gives (htop : F.base ≤ top) (hcalls : CallsDo M Y top n r) (hfun : ∀ f, Y.func f ≤ len)
    (hρ : F.Holds ρ) : ∀ (kind : Kind) (k : Nat),
    Gives M Y F top (n + 1) (kind_items A .code kind k) (kind_value wordValues r ρ kind)
  | .int v, k => by
      simp only [kind_items, kind_value]
      exact int_gives htop v
  | .var _ offset _, k => by
      simp only [kind_items, kind_value]
      exact var_gives htop hρ offset
  | .bin op left right, k => by
      simp only [kind_items, kind_value]
      exact bin_gives htop op (node_gives htop hcalls hfun hρ left k) (node_gives htop hcalls hfun hρ right _)
  | .call f args t, k => by
      simp only [kind_value]
      split
      · rename_i hf
        obtain ⟨hfew, hitems⟩ := callable_items (A := A) (k := k) hf t
        rw [hitems]
        intro p S c hc hin
        have hargs := args_give htop hcalls hfun hρ args 32 k hfew
        have hcall := call_gives htop hcalls (hfun f) hargs hfew hc hin
        have hassoc : (args_values wordValues r ρ args >>= fun us => r.call f us >>= Answer.ofOption) =
            (args_values wordValues r ρ args >>= fun us => r.call f us) >>= Answer.ofOption := by
          cases args_values wordValues r ρ args <;> rfl
        rw [hassoc]
        refine hcall.bind fun v d _ hd => ?_
        obtain ⟨w, hw, hv⟩ := hd
        cases v with
        | none => trivial
        | some u =>
            obtain rfl := hv u rfl
            exact .here hw
      · exact fun _ _ _ _ _ => trivial
  | .func .., _ | .block _, _ | .elem _, _ | .if_ .., _ | .while_ .., _ | .return_ _, _ | .assign .., _
  | .str _, _ | .gvar .., _ | .pointer .., _ | .addr _, _ | .break_, _ | .continue_, _ | .arr_access _, _
  | .mem_access .., _ | .preinc _, _ | .predec _, _ | .postinc _, _ | .postdec _, _ =>
      fun _ _ _ _ _ => trivial

theorem args_give (htop : F.base ≤ top) (hcalls : CallsDo M Y top n r) (hfun : ∀ f, Y.func f ≤ len)
    (hρ : F.Holds ρ) : ∀ (args : Node) (m k : Nat), chainLength args ≤ m →
    GivesAll M Y F top (n + 1) (args_items A .code m args k) (chainLength args)
      (args_values wordValues r ρ args)
  | .null, m, k, _ => by
      rw [args_items_nil]
      exact nil_gives
  | .mk _ kind _ nx, m, k, hm => by
      cases m with
      | zero => cases hm
      | succ m =>
          have hnx := args_give htop hcalls hfun hρ nx m k (Nat.le_of_succ_le_succ hm)
          have hone := (kind_gives htop hcalls hfun hρ kind
            (k + allocs (args_items A .code m nx k))).visit
          simp only [args_items, args_values, List.append_assoc, List.singleton_append]
          exact cons_gives hnx hone

end

/-! ### Conditions -/

/-- A comparison and its jump. -/
theorem compare_branches {j : Cond} (htop : F.base ≤ top) (hl : Gives M Y F top n xs x)
    (hr : Gives M Y F top n ys y) :
    Branches M Y F top n ([.visit] ++ xs ++ ys ++
        [.op .pop_rbx, .op .pop_rax, .op .cmp_rbx_rax, .jump (.jcc j) l]) l
      (x >>= fun u => y >>= fun w => .is (!j.compares u.toInt w.toInt)) := by
  intro p S c hc hin hlab
  have hjcc : Item.size (.jump (.jcc j) l) = 6 := by cases j <;> rfl
  have hsize : p + size ([.visit] ++ xs ++ ys ++ [.op .pop_rbx, .op .pop_rax, .op .cmp_rbx_rax,
      .jump (.jcc j) l]) = p + size xs + size ys + 2 + 3 + 6 := by
    have hvisit : Item.size .visit = 0 := rfl
    simp only [size_append, size_cons, size_nil, hjcc, hvisit]
    show _ + (_ + _ + (1 + (1 + (3 + _)))) = _
    omega
  rw [hsize]
  have hc' : Code bin len Y p (xs ++ (ys ++ [.op .pop_rbx, .op .pop_rax, .op .cmp_rbx_rax,
      .jump (.jcc j) l])) := by
    have h : Code bin len Y p (.visit :: (xs ++ (ys ++ [.op .pop_rbx, .op .pop_rax, .op .cmp_rbx_rax,
        .jump (.jcc j) l]))) := by
      simpa only [List.append_assoc, List.cons_append, List.nil_append] using hc
    exact h.tail
  refine hl.step hc' hin fun u d _ hd hch hu => hr.step hc'.right hd fun w e hS he hch' hw => ?_
  have hrest := hc'.right.right
  have hword : e.mem.word (S - 8) = u := by
    rw [← hu]
    refine hch'.word fun a ha ha' hb => ?_
    have := hb.2
    omega
  have hch2 := hch.trans (hch'.mono fun a => below_mono (Nat.sub_le _ _))
  refine pops_gives htop (by omega) hrest hin he hch2 hword hw fun f hf hch3 hrax hrbx => ?_
  obtain ⟨hs, hin'⟩ := hf.step hrest.tail.tail rfl rfl rfl rfl rfl
  obtain ⟨i, hi, hon, hmem⟩ := hin'.on.branch hrest.tail.tail.tail hlab
  have hholds := holds_cmp { f with rip := place M.base (p + size xs + size ys + 2 + 3) } f.rax f.rbx j
  refine .ahead ((hf.up htop).trans hs) (.ahead ((hin'.up htop).trans hi) (.here ⟨?_, ?_⟩))
  · have hon' : On M (if j.compares f.rax.toInt f.rbx.toInt then Y.label l
        else p + size xs + size ys + 2 + 3 + 6) F.base S i := by
      rw [← hholds]
      exact hon
    rw [hrax, hrbx] at hon'
    cases hb : j.compares u.toInt w.toInt with
    | true => simpa [hb] using hon'
    | false => simpa [hb] using hon'
  · rw [hmem]
    exact hch3

/-- An expression that is not a binary operator, and the jump if it is zero. -/
theorem truth_branches (htop : F.base ≤ top) (h : Gives M Y F top n xs x) :
    Branches M Y F top n ([.visit] ++ xs ++ [.op .pop_rax, .op .test_rax_rax, .test (.jcc .e) l]) l
      (x >>= fun u => .is (decide (u ≠ 0))) := by
  intro p S c hc hin hlab
  have hsize : p + size ([.visit] ++ xs ++ [.op .pop_rax, .op .test_rax_rax, .test (.jcc .e) l])
      = p + size xs + 1 + 3 + 6 := by
    simp only [size_append, size_cons, size_nil, Item.size]
    show _ + (_ + (1 + (3 + (6 + 0)))) = _
    omega
  rw [hsize]
  have hc' : Code bin len Y p (xs ++ [.op .pop_rax, .op .test_rax_rax, .test (.jcc .e) l]) := by
    have h : Code bin len Y p (.visit :: (xs ++ [.op .pop_rax, .op .test_rax_rax,
        .test (.jcc .e) l])) := by
      simpa only [List.append_assoc, List.cons_append, List.nil_append] using hc
    exact h.tail
  refine h.step hc' hin fun u d hS hd hch hu => ?_
  have hmax := M.top
  have hle := hin.framed.top_le
  have hrest := hc'.right
  obtain ⟨e, he, hon, hmem, hrax, -⟩ := hd.on.pop_rax hrest (by omega)
  rw [show S - 8 + 8 = S by omega] at hon
  have hin' : Inside M F (p + size xs + 1) S e := hin.next hon (Nat.le_refl S) (hmem ▸ hch)
  obtain ⟨hs, hin''⟩ := hin'.step hrest.tail rfl rfl rfl rfl rfl
  obtain ⟨i, hi, hon', hmem'⟩ := hin''.on.branch (k := .e) hrest.tail.tail.jump hlab
  have hholds : Cpu.holds (Cpu.flags { e with rip := place M.base (p + size xs + 1 + 3) } e.rax false) .e
      = decide (u = 0) := by
    rw [← hu, ← hrax]
    rfl
  refine .ahead ((hd.up htop).trans he) (.ahead ((hin'.up htop).trans hs)
    (.ahead ((hin''.up htop).trans hi) (.here ⟨?_, ?_⟩)))
  · have hon3 : On M (if decide (u = 0) then Y.label l else p + size xs + 1 + 3 + 6) F.base S i := by
      rw [← hholds]
      exact hon'
    by_cases hu0 : u = 0
    · simpa [hu0] using hon3
    · simpa [hu0] using hon3
  · rw [hmem']
    exact hmem ▸ hch

theorem cond_branches (htop : F.base ≤ top) (hcalls : CallsDo M Y top n r) (hfun : ∀ f, Y.func f ≤ len)
    (hρ : F.Holds ρ) (cond : Node) (l k : Nat) :
    Branches M Y F top (n + 1) (cond_items A .code cond l false k) l (cond_truth wordValues r ρ cond) := by
  cases cond with
  | null => exact fun _ _ _ _ _ _ => trivial
  | mk t kind ix nx =>
      cases kind with
      | bin op left right =>
          have h := compare_branches (j := condOf (invert op)) (l := l) htop
            (node_gives (A := A) htop hcalls hfun hρ left k)
            (node_gives (A := A) htop hcalls hfun hρ right (k + allocs (node_items A .code left k)))
          simp only [invert_compares] at h
          simp only [cond_items, cond_truth, Bool.false_eq_true, if_false]
          exact h
      | _ =>
          simp only [cond_items, cond_truth, Bool.false_eq_true, if_false]
          exact truth_branches htop (kind_gives htop hcalls hfun hρ _ k)

end Eke
