/-
Negative numbers in local variables.

A local variable is four bytes.  The code stores the low half of a word there and loads it
without its sign, so that a negative number comes back 2^32 larger.  What follows from that is
said use by use: as the argument of a call, in comparisons and in divisions, each with the exact
numbers for which the code still does what C says.
-/
import Eke.Compiler.Conditions

namespace Eke

open Gen Store X86

variable {bin : Store} {len : Nat} {M : Setting bin len} {Y : Symbols} {A : Addresses} {F : Frame}
  {n k : Nat} {u : BitVec 64} {v w : BitVec 32}

/-! ### Storing -/

/-- The node is a use of the local variable at `x`. -/
def IsUse (x : Int) : Node → Prop
  | .mk _ (.var _ offset _) _ _ => offset = x
  | _ => False

/-- The node is the local variable at `x` as the target of an assignment with this offset. -/
def IsPlace (offset x : Int) : Node → Prop
  | .mk _ (.var _ off _) _ _ => (if offset ≠ 0 then offset else off) = x
  | _ => False

/-- The low half of `rax` is stored to a local variable. -/
theorem store_local {B lv argc S : Nat} {x : Int} {c : Cpu} (hb : c.rbp.toNat = B)
    (hf : Framed M lv argc B S) (hx : Local lv x) :
    c.exec ⟨.mov_eax_rbp, (disp x).toNat % 256 ^ 4⟩
      = some { c with mem := c.mem.setLe (B - (x.toNat + 8)) 4 c.rax.toNat } := by
  have hlow := hf.low
  have hlt := c.rbp.isLt
  have h0 := hx.1
  have ha := local_address hb hx hf.words hf.ints (by omega)
  unfold Cpu.exec
  simp only
  rw [ha, if_pos]
  unfold fits
  rw [ha]
  exact decide_eq_true (by omega)

theorem dword_setLe {m : Store} {a b v : Nat} (h : b + 4 ≤ a ∨ a + 4 ≤ b ∨ b = a) :
    dword (m.setLe a 4 v) b = if b = a then BitVec.ofNat 32 v else dword m b := by
  unfold dword
  by_cases hba : b = a
  · rw [if_pos hba, hba, le_setLe, ← BitVec.toNat_inj, BitVec.toNat_ofNat, BitVec.toNat_ofNat]
    omega
  · rw [if_neg hba, le_setLe_out (by omega)]

/-- The processor is at `q`; the variable at `x` holds `v`, and the others what they held. -/
structure Assigned (M : Setting bin len) (F : Frame) (x : Int) (v : BitVec 32) (q S : Nat) (d : Cpu) :
    Prop where
  inside : Inside M { F with mem := d.mem } q S d
  here : Frame.int { F with mem := d.mem } x = v
  others : ∀ y, Local F.lv y → y ≠ x → Frame.int { F with mem := d.mem } y = F.int y

/-- A word is popped into a local variable. -/
theorem stores {x : Int} {xs : List Item} {p S : Nat} {c : Cpu} (hx : Local F.lv x)
    (h : Computes M Y F n xs (some u)) (hc : Code bin len Y p (xs ++ store_items x))
    (hin : Inside M F p S c) :
    Leads Cpu.step n (fun d => M.Low d ∨
      Assigned M F x (low u) (p + size (xs ++ store_items x)) S d) c := by
  refine (h p S c hc.left hin).bind fun d hd => ?_
  rcases hd with hd | ⟨hon, hch, hword⟩
  · exact .here (Or.inl hd)
  by_cases hlow : M.Low d
  · exact .here (Or.inl hlow)
  have hroom := not_low hon hlow
  have hmargin := M.margin
  have htop := M.top
  have hf := hin.framed
  have hle := hf.top_le
  have hbase := hf.low
  have hclear := F.clear
  have hS := hin.le
  obtain ⟨h0, h4, hlt⟩ := hx
  obtain ⟨e, he, hon', hmem, hrax, -⟩ := hon.pop_rax hc.right (by omega)
  rw [show S - 8 + 8 = S by omega] at hon'
  have hfetch := hon'.fetch (Code.tail hc.right)
  rw [if_neg (by omega : ¬ x < 0)] at hfetch
  have hstep := hfetch.trans (store_local (c := { e with rip := _ }) hon'.rbp hf ⟨h0, h4, hlt⟩)
  refine .ahead he (.ahead hstep (.here (Or.inr ?_)))
  have hslot : Changes (fun y => F.base - (x.toNat + 8) ≤ y ∧ y < F.base - (x.toNat + 8) + 4) d.mem
      (e.mem.setLe (F.base - (x.toNat + 8)) 4 e.rax.toNat) := by
    rw [← hmem]
    exact changes_setLe fun y hy hy' => ⟨hy, hy'⟩
  have hload := Setting.loaded hon.loaded hslot fun y hy => by
    have := hf.high
    omega
  -- the words on the stack below are not local variables
  have hkept : ∀ y, Local F.lv y → dword d.mem (F.base - (y.toNat + 8)) = F.int y := by
    intro y hy
    unfold Frame.int dword
    rw [le_congr fun z hz hz' => (hch z fun hb => ?_).trans (hin.mem z fun hb => ?_)]
    · have := hb.2
      have := hy.2.2
      omega
    · have := hb.2
      have := hy.2.2
      omega
  refine ⟨⟨⟨hload, ?_, hon'.rbp, hon'.rsp⟩, hf, hS, .refl⟩, ?_, fun y hy hne => ?_⟩
  · show place M.base (p + size xs + 1 + (Instr.bytes _).length) = _
    simp [store_items, if_neg (by omega : ¬ x < 0), Item.size, Instr.bytes, Op.opcode, Op.width,
      Nat.add_assoc]
  · show dword (e.mem.setLe _ 4 e.rax.toNat) (F.base - (x.toNat + 8)) = _
    rw [dword_setLe (Or.inr (Or.inr rfl)), if_pos rfl, hrax, hword]
    exact BitVec.ofNat_toNat 32 u
  · obtain ⟨hy0, hy4, hylt⟩ := hy
    show dword (e.mem.setLe _ 4 e.rax.toNat) (F.base - (y.toNat + 8)) = _
    rw [dword_setLe (by omega), if_neg (by omega), hmem]
    exact hkept y ⟨hy0, hy4, hylt⟩

/-- The code of an assignment to a local variable. -/
theorem assign_stores {offset x op : Int} {left right : Node} {p S : Nat} {c : Cpu}
    (hleft : IsPlace offset x left) (hx : Local F.lv x)
    (h : Computes M Y F n (node_items A .code right k) (some u))
    (hc : Code bin len Y p (kind_items A .code (.assign offset op left right) k))
    (hin : Inside M F p S c) :
    Leads Cpu.step n (fun d => M.Low d ∨
      Assigned M F x (low u) (p + size (kind_items A .code (.assign offset op left right) k)) S d) c := by
  cases left with
  | null => exact absurd hleft not_false
  | mk t kind ix nx =>
      cases kind with
      | var dt off val =>
          simp only [IsPlace] at hleft
          simp only [kind_items, hleft] at hc ⊢
          refine stores hx (fun p S c hc hin => ?_) hc hin
          refine (h p S c hc.left hin).mono fun d hd => hd.imp_right fun hd => ⟨hd.1.at ?_, hd.2⟩
          rw [size_append]
          rfl
      | _ => exact absurd hleft not_false

/-! ### Using -/

/-- The code of a use pushes the number without its sign. -/
theorem use_computes {x : Int} {e : Node} (hx : Local F.lv x) (he : IsUse x e) :
    Computes M Y F n (node_items A .code e k) (some ((F.int x).setWidth 64)) := by
  cases e with
  | null => exact absurd he not_false
  | mk t kind ix nx =>
      cases kind with
      | var dt off val =>
          obtain rfl : off = x := he
          simp only [node_items, kind_items]
          exact (local_computes hx).visit
      | _ => exact absurd he not_false

theorem wide_toInt (v : BitVec 32) : (v.setWidth 64).toInt = v.toNat := by
  have hlt := v.isLt
  have hnat : (v.setWidth 64).toNat = v.toNat := by
    rw [BitVec.toNat_setWidth, Nat.mod_eq_of_lt (by omega)]
  rw [BitVec.toInt_eq_toNat_of_lt (by omega), hnat]

theorem signed_toInt (w : BitVec 32) : (w.signExtend 64).toInt = w.toInt :=
  BitVec.toInt_signExtend_of_le (by decide)

/-- A number without its sign. -/
theorem unsigned_cases (v : BitVec 32) :
    0 ≤ v.toInt ∧ (v.toNat : Int) = v.toInt ∨ v.toInt < 0 ∧ (v.toNat : Int) = v.toInt + 2 ^ 32 := by
  have hlt := v.isLt
  rw [BitVec.toInt_eq_toNat_cond]
  split
  · exact Or.inl ⟨by omega, rfl⟩
  · exact Or.inr ⟨by omega, by omega⟩

/-- The comparison of two numbers without their signs. -/
theorem compares_unsigned (c : Cond) (v w : BitVec 32) :
    c.compares v.toNat w.toNat = c.compares v.toInt w.toInt ↔
      (v.toInt < 0 ↔ w.toInt < 0) ∨ c = .e ∨ c = .ne := by
  have hv := BitVec.two_mul_toInt_lt (x := v)
  have hv' := BitVec.le_two_mul_toInt (x := v)
  have hw := BitVec.two_mul_toInt_lt (x := w)
  have hw' := BitVec.le_two_mul_toInt (x := w)
  rcases unsigned_cases v with ⟨h, he⟩ | ⟨h, he⟩
  · rcases unsigned_cases w with ⟨h', he'⟩ | ⟨h', he'⟩
    · rw [he, he']
      exact iff_of_true rfl (Or.inl (by omega))
    · have h1 : c.compares v.toInt (w.toInt + 2 ^ 32) = c.compares 0 1 := c.compares_lt (by omega)
      have h2 : c.compares v.toInt w.toInt = c.compares 1 0 := c.compares_gt (by omega)
      rw [he, he', h1, h2, c.compares_swap]
      exact (or_iff_right (by omega)).symm
  · rcases unsigned_cases w with ⟨h', he'⟩ | ⟨h', he'⟩
    · have h1 : c.compares (v.toInt + 2 ^ 32) w.toInt = c.compares 1 0 := c.compares_gt (by omega)
      have h2 : c.compares v.toInt w.toInt = c.compares 0 1 := c.compares_lt (by omega)
      rw [he, he', h1, h2, eq_comm, c.compares_swap]
      exact (or_iff_right (by omega)).symm
    · rw [he, he', c.compares_add]
      exact iff_of_true rfl (Or.inl (by omega))

/-- A negative number without its sign is larger than every number. -/
theorem compares_left (c : Cond) (v w : BitVec 32) :
    c.compares v.toNat w.toInt = c.compares v.toInt w.toInt ↔
      0 ≤ v.toInt ∨ c.compares v.toInt w.toInt = c.compares 1 0 := by
  have hv := BitVec.le_two_mul_toInt (x := v)
  have hw := BitVec.two_mul_toInt_lt (x := w)
  rcases unsigned_cases v with ⟨h, he⟩ | ⟨h, he⟩
  · rw [he]
    exact iff_of_true rfl (Or.inl h)
  · rw [he, c.compares_gt (by omega), eq_comm]
    exact (or_iff_right (by omega)).symm

theorem compares_right (c : Cond) (v w : BitVec 32) :
    c.compares w.toInt v.toNat = c.compares w.toInt v.toInt ↔
      0 ≤ v.toInt ∨ c.compares w.toInt v.toInt = c.compares 0 1 := by
  have hv := BitVec.le_two_mul_toInt (x := v)
  have hw := BitVec.two_mul_toInt_lt (x := w)
  rcases unsigned_cases v with ⟨h, he⟩ | ⟨h, he⟩
  · rw [he]
    exact iff_of_true rfl (Or.inl h)
  · rw [he, c.compares_lt (by omega), eq_comm]
    exact (or_iff_right (by omega)).symm

/-! ### Quotients -/

/-- The size of a quotient. -/
theorem tdiv_natAbs {a b : Int} (hb : b ≠ 0) :
    (a.tdiv b).natAbs ≤ a.natAbs ∧ ((a.tdiv b).natAbs = 0 ↔ a.natAbs < b.natAbs) ∧
      (2 ≤ b.natAbs → 2 * (a.tdiv b).natAbs ≤ a.natAbs) := by
  rw [Int.natAbs_tdiv]
  refine ⟨Nat.div_le_self _ _, Nat.div_eq_zero_iff_lt (by omega), fun h2 => ?_⟩
  calc 2 * (a.natAbs / b.natAbs) ≤ b.natAbs * (a.natAbs / b.natAbs) := Nat.mul_le_mul_right _ h2
    _ ≤ a.natAbs := Nat.mul_div_le _ _

theorem tdiv_zero_of_lt {a b : Int} (hb : b ≠ 0) (h : a.natAbs < b.natAbs) : a.tdiv b = 0 :=
  Int.natAbs_eq_zero.mp ((tdiv_natAbs hb).2.1.mpr h)

theorem tdiv_sign (a b : Int) : (0 ≤ a → 0 ≤ b → 0 ≤ a.tdiv b) ∧ (a ≤ 0 → 0 ≤ b → a.tdiv b ≤ 0) ∧
    (0 ≤ a → b ≤ 0 → a.tdiv b ≤ 0) ∧ (a ≤ 0 → b ≤ 0 → 0 ≤ a.tdiv b) := by
  refine ⟨Int.tdiv_nonneg, fun ha hb => ?_, fun ha hb => ?_, fun ha hb => ?_⟩
  · have := Int.tdiv_nonneg (a := -a) (b := b) (by omega) hb
    rw [Int.neg_tdiv] at this
    omega
  · have := Int.tdiv_nonneg (a := a) (b := -b) ha (by omega)
    rw [Int.tdiv_neg] at this
    omega
  · have := Int.tdiv_nonneg (a := -a) (b := -b) (by omega) (by omega)
    rw [Int.neg_tdiv, Int.tdiv_neg] at this
    omega

/-- A local variable divided by a number. -/
theorem dividend_exact (v : BitVec 32) {w : BitVec 32} (hw : w.toInt ≠ 0) :
    ((v.toNat : Int).tdiv w.toInt - v.toInt.tdiv w.toInt) % 2 ^ 32 = 0 ↔
      0 ≤ v.toInt ∨ w.toInt = 1 ∨ w.toInt = -1 := by
  have hv := BitVec.le_two_mul_toInt (x := v)
  have hw1 := BitVec.two_mul_toInt_lt (x := w)
  have hw2 := BitVec.le_two_mul_toInt (x := w)
  rcases unsigned_cases v with ⟨h, he⟩ | ⟨h, he⟩
  · rw [he]
    exact iff_of_true (by omega) (Or.inl h)
  · rw [he, or_iff_right (by omega)]
    by_cases hone : w.toInt = 1 ∨ w.toInt = -1
    · refine iff_of_true ?_ hone
      rcases hone with h1 | h1
      · rw [h1, Int.tdiv_one, Int.tdiv_one]
        omega
      · rw [h1, Int.tdiv_neg, Int.tdiv_neg, Int.tdiv_one, Int.tdiv_one]
        omega
    · -- both quotients are small, one is not zero, and their signs differ
      refine iff_of_false ?_ hone
      have hb : 2 ≤ w.toInt.natAbs := by omega
      have h1 := (tdiv_natAbs (a := v.toInt) hw).2.2 hb
      have h2 := (tdiv_natAbs (a := v.toInt + 2 ^ 32) hw).2.2 hb
      have h3 : (v.toInt + 2 ^ 32).tdiv w.toInt ≠ 0 := by
        have hnot : ¬ (v.toInt + 2 ^ 32).natAbs < w.toInt.natAbs := by omega
        rw [← (tdiv_natAbs hw).2.1] at hnot
        omega
      obtain ⟨-, hs2, -, hs4⟩ := tdiv_sign v.toInt w.toInt
      obtain ⟨hs1, -, hs3, -⟩ := tdiv_sign (v.toInt + 2 ^ 32) w.toInt
      rcases Int.lt_or_gt_of_ne hw with hneg | hpos
      · have := hs4 (by omega) (by omega)
        have := hs3 (by omega) (by omega)
        omega
      · have := hs2 (by omega) (by omega)
        have := hs1 (by omega) (by omega)
        omega

/-- A number divided by a local variable. -/
theorem divisor_exact {v : BitVec 32} (w : BitVec 32) (hv0 : v.toInt ≠ 0) :
    (w.toInt.tdiv v.toNat - w.toInt.tdiv v.toInt) % 2 ^ 32 = 0 ↔
      0 ≤ v.toInt ∨ w.toInt.natAbs < v.toInt.natAbs := by
  have hv := BitVec.le_two_mul_toInt (x := v)
  have hw1 := BitVec.two_mul_toInt_lt (x := w)
  have hw2 := BitVec.le_two_mul_toInt (x := w)
  rcases unsigned_cases v with ⟨h, he⟩ | ⟨h, he⟩
  · rw [he]
    exact iff_of_true (by omega) (Or.inl h)
  · rw [he, or_iff_right (by omega)]
    obtain ⟨hle, hzero, -⟩ := tdiv_natAbs (a := w.toInt) hv0
    by_cases hlt : w.toInt.natAbs < (v.toInt + 2 ^ 32).natAbs
    · rw [tdiv_zero_of_lt (by omega) hlt, ← hzero]
      constructor
      · intro hmod
        omega
      · intro hq
        omega
    · have hw : w.toInt = -2 ^ 31 := by omega
      have hv31 : v.toInt = -2 ^ 31 := by omega
      rw [hw, hv31]
      decide

/-- The quotient of two local variables. -/
theorem quotient_exact (v : BitVec 32) {w : BitVec 32} (hw : w.toInt ≠ 0) :
    ((v.toNat : Int).tdiv w.toNat - v.toInt.tdiv w.toInt) % 2 ^ 32 = 0 ↔
      0 ≤ v.toInt ∧ 0 ≤ w.toInt ∨ w.toInt = 1 ∨ 0 ≤ v.toInt ∧ v.toInt.natAbs < w.toInt.natAbs ∨
        v.toInt = w.toInt := by
  have hv := BitVec.le_two_mul_toInt (x := v)
  have hv1 := BitVec.two_mul_toInt_lt (x := v)
  have hw1 := BitVec.two_mul_toInt_lt (x := w)
  have hw2 := BitVec.le_two_mul_toInt (x := w)
  rcases unsigned_cases w with ⟨h', he'⟩ | ⟨h', he'⟩
  · rw [he', dividend_exact v hw]
    omega
  · obtain ⟨hle, hzero, -⟩ := tdiv_natAbs (a := v.toInt) hw
    rcases unsigned_cases v with ⟨h, he⟩ | ⟨h, he⟩
    · have hlt : v.toInt.natAbs < (w.toInt + 2 ^ 32).natAbs := by omega
      have hright : (0 ≤ v.toInt ∧ 0 ≤ w.toInt ∨ w.toInt = 1 ∨ 0 ≤ v.toInt ∧ v.toInt.natAbs < w.toInt.natAbs ∨
          v.toInt = w.toInt) ↔ v.toInt.natAbs < w.toInt.natAbs := by omega
      rw [he, he', tdiv_zero_of_lt (by omega) hlt, hright, ← hzero]
      constructor
      · intro hmod
        omega
      · intro hq
        omega
    · have hright : (0 ≤ v.toInt ∧ 0 ≤ w.toInt ∨ w.toInt = 1 ∨ 0 ≤ v.toInt ∧ v.toInt.natAbs < w.toInt.natAbs ∨
          v.toInt = w.toInt) ↔ v.toInt = w.toInt := by omega
      rw [he, he', hright]
      rcases Int.lt_trichotomy v.toInt w.toInt with hlt | heq | hgt
      · have hq : v.toInt.natAbs < w.toInt.natAbs → False := by omega
        rw [tdiv_zero_of_lt (by omega) (by omega : (v.toInt + 2 ^ 32).natAbs < (w.toInt + 2 ^ 32).natAbs)]
        refine iff_of_false (fun hmod => hq (hzero.mp ?_)) (by omega)
        omega
      · refine iff_of_true ?_ heq
        rw [heq, Int.tdiv_self hw, Int.tdiv_self (by omega)]
        rfl
      · obtain ⟨hle', hzero', -⟩ := tdiv_natAbs (a := v.toInt + 2 ^ 32) (b := w.toInt + 2 ^ 32) (by omega)
        have hq : (v.toInt + 2 ^ 32).natAbs < (w.toInt + 2 ^ 32).natAbs → False := by omega
        rw [tdiv_zero_of_lt hw (by omega : v.toInt.natAbs < w.toInt.natAbs)]
        refine iff_of_false (fun hmod => hq (hzero'.mp ?_)) (by omega)
        omega

/-- A quotient of words that stand for small numbers. -/
theorem quotient_low {u w : BitVec 64} (hw : w.toInt ≠ 0) (hu : u.toInt.natAbs ≤ 2 ^ 32) :
    ∃ r, quotient u w = some r ∧ low r = BitVec.ofInt 32 (u.toInt.tdiv w.toInt) := by
  have hle := (tdiv_natAbs (a := u.toInt) hw).1
  refine ⟨_, ?_, low_ofInt _⟩
  unfold quotient
  rw [if_neg (by omega)]

/-- The code of a division of two such words. -/
theorem division_computes {left right : Node} {w : BitVec 64}
    (hl : ∀ n, Computes M Y F n (node_items A .code left k) (some u))
    (hr : ∀ n, Computes M Y F n (node_items A .code right (k + allocs (node_items A .code left k))) (some w))
    (hw : w.toInt ≠ 0) (hu : u.toInt.natAbs ≤ 2 ^ 32) :
    ∃ r, (∀ n, Computes M Y F n (kind_items A .code (.bin '/'.toNat left right) k) (some r)) ∧
      ∀ z, low r = BitVec.ofInt 32 z ↔ (u.toInt.tdiv w.toInt - z) % 2 ^ 32 = 0 := by
  obtain ⟨r, hq, hlow⟩ := quotient_low hw hu
  refine ⟨r, fun n => ?_, fun z => by rw [hlow, ofInt_congr]⟩
  have h := bin_computes '/'.toNat (hl n) (hr n)
  simp only [kind_items]
  have hword : ((some u).bind fun u => (some w).bind fun w => binWord '/'.toNat u w) = some r := hq
  rwa [hword] at h

/-- The code of a comparison. -/
theorem comparison_decides {left right : Node} {w : BitVec 64} {op t : Int} {ix nx : Node} {c : Cond} {l : Nat}
    (hop : comparison op = some c)
    (hl : ∀ n, Computes M Y F n (node_items A .code left k) (some u))
    (hr : ∀ n, Computes M Y F n (node_items A .code right (k + allocs (node_items A .code left k))) (some w)) :
    ∀ n, Decides M Y F n (cond_items A .code (.mk t (.bin op left right) ix nx) l false k) l
      (some (c.compares u.toInt w.toInt)) := by
  intro n
  have htest : tested op u.toInt w.toInt = c.compares u.toInt w.toInt := by
    unfold tested
    rw [hop]
  rw [← htest]
  exact bin_decides t ix nx (hl n) (hr n)

variable (M Y A F) in
/-- What the code of uses of the local variable at `x` does, while `x` holds `v`, and for which
numbers that is what C says. -/
structure Uses (x : Int) (v : BitVec 32) : Prop where
  /-- The word that is passed to a function is the number. -/
  argument : ∀ e k, IsUse x e → ∃ r, (∀ n, Computes M Y F n (node_items A .code e k) (some r)) ∧
    (r.toInt = v.toInt ↔ 0 ≤ v.toInt)
  /-- `x` is compared with a local variable. -/
  compared : ∀ (y : Int) (e f : Node) (op : Int) (c : Cond) (t : Int) (ix nx : Node) (l k : Nat),
    Local F.lv y → IsUse x e → IsUse y f → comparison op = some c →
    ∃ b, (∀ n, Decides M Y F n (cond_items A .code (.mk t (.bin op e f) ix nx) l false k) l (some b)) ∧
      (b = c.compares v.toInt (F.int y).toInt ↔
        (v.toInt < 0 ↔ (F.int y).toInt < 0) ∨ c = .e ∨ c = .ne)
  /-- `x` is the left operand of a comparison with an expression that computes `w`. -/
  onLeft : ∀ (w : BitVec 32) (e f : Node) (op : Int) (c : Cond) (t : Int) (ix nx : Node) (l k : Nat),
    (∀ n, Computes M Y F n (node_items A .code f (k + allocs (node_items A .code e k)))
      (some (w.signExtend 64))) →
    IsUse x e → comparison op = some c →
    ∃ b, (∀ n, Decides M Y F n (cond_items A .code (.mk t (.bin op e f) ix nx) l false k) l (some b)) ∧
      (b = c.compares v.toInt w.toInt ↔ 0 ≤ v.toInt ∨ c.compares v.toInt w.toInt = c.compares 1 0)
  onRight : ∀ (w : BitVec 32) (e f : Node) (op : Int) (c : Cond) (t : Int) (ix nx : Node) (l k : Nat),
    (∀ n, Computes M Y F n (node_items A .code f k) (some (w.signExtend 64))) →
    IsUse x e → comparison op = some c →
    ∃ b, (∀ n, Decides M Y F n (cond_items A .code (.mk t (.bin op f e) ix nx) l false k) l (some b)) ∧
      (b = c.compares w.toInt v.toInt ↔ 0 ≤ v.toInt ∨ c.compares w.toInt v.toInt = c.compares 0 1)
  /-- `x` is divided by a local variable. -/
  divided : ∀ (y : Int) (e f : Node) (k : Nat),
    Local F.lv y → IsUse x e → IsUse y f → (F.int y).toInt ≠ 0 →
    ∃ r, (∀ n, Computes M Y F n (kind_items A .code (.bin '/'.toNat e f) k) (some r)) ∧
      (low r = BitVec.ofInt 32 (v.toInt.tdiv (F.int y).toInt) ↔
        0 ≤ v.toInt ∧ 0 ≤ (F.int y).toInt ∨ (F.int y).toInt = 1 ∨
          0 ≤ v.toInt ∧ v.toInt.natAbs < (F.int y).toInt.natAbs ∨ v.toInt = (F.int y).toInt)
  /-- `x` is divided by an expression that computes `w`. -/
  dividend : ∀ (w : BitVec 32) (e f : Node) (k : Nat),
    (∀ n, Computes M Y F n (node_items A .code f (k + allocs (node_items A .code e k)))
      (some (w.signExtend 64))) →
    IsUse x e → w.toInt ≠ 0 →
    ∃ r, (∀ n, Computes M Y F n (kind_items A .code (.bin '/'.toNat e f) k) (some r)) ∧
      (low r = BitVec.ofInt 32 (v.toInt.tdiv w.toInt) ↔ 0 ≤ v.toInt ∨ w.toInt = 1 ∨ w.toInt = -1)
  divisor : ∀ (w : BitVec 32) (e f : Node) (k : Nat),
    (∀ n, Computes M Y F n (node_items A .code f k) (some (w.signExtend 64))) →
    IsUse x e → v.toInt ≠ 0 →
    ∃ r, (∀ n, Computes M Y F n (kind_items A .code (.bin '/'.toNat f e) k) (some r)) ∧
      (low r = BitVec.ofInt 32 (w.toInt.tdiv v.toInt) ↔
        0 ≤ v.toInt ∨ w.toInt.natAbs < v.toInt.natAbs)

theorem local_uses {x : Int} (hx : Local F.lv x) : Uses M Y A F x (F.int x) := by
  have hbound : ∀ v : BitVec 32, (v.setWidth 64).toInt.natAbs ≤ 2 ^ 32 := by
    intro v
    have := v.isLt
    rw [wide_toInt]
    omega
  have hsigned : ∀ w : BitVec 32, (w.signExtend 64).toInt.natAbs ≤ 2 ^ 32 := by
    intro w
    have hw1 := BitVec.two_mul_toInt_lt (x := w)
    have hw2 := BitVec.le_two_mul_toInt (x := w)
    rw [signed_toInt]
    omega
  have hnat : ∀ v : BitVec 32, v.toInt ≠ 0 → (v.toNat : Int) ≠ 0 := by
    intro v hv
    rcases unsigned_cases v with ⟨h, he⟩ | ⟨h, he⟩
    · omega
    · have := BitVec.le_two_mul_toInt (x := v)
      omega
  constructor
  · intro e k he
    refine ⟨_, fun n => use_computes hx he, ?_⟩
    rw [wide_toInt]
    rcases unsigned_cases (F.int x) with ⟨h, hv⟩ | ⟨h, hv⟩
    · omega
    · omega
  · intro y e f op c t ix nx l k hy he hf hop
    refine ⟨_, comparison_decides hop (fun n => use_computes hx he) (fun n => use_computes hy hf), ?_⟩
    rw [wide_toInt, wide_toInt]
    exact compares_unsigned c _ _
  · intro w e f op c t ix nx l k hf he hop
    refine ⟨_, comparison_decides hop (fun n => use_computes hx he) hf, ?_⟩
    rw [wide_toInt, signed_toInt]
    exact compares_left c _ _
  · intro w e f op c t ix nx l k hf he hop
    refine ⟨_, comparison_decides hop hf (fun n => use_computes hx he), ?_⟩
    rw [wide_toInt, signed_toInt]
    exact compares_right c _ _
  · intro y e f k hy he hf hw
    obtain ⟨r, hr, hlow⟩ := division_computes (fun n => use_computes (k := k) hx he)
      (fun n => use_computes hy hf) (by rw [wide_toInt]; exact hnat _ hw) (hbound _)
    refine ⟨r, hr, (hlow _).trans ?_⟩
    rw [wide_toInt, wide_toInt]
    exact quotient_exact _ hw
  · intro w e f k hf he hw
    obtain ⟨r, hr, hlow⟩ := division_computes (fun n => use_computes (k := k) hx he) hf
      (by rw [signed_toInt]; exact hw) (hbound _)
    refine ⟨r, hr, (hlow _).trans ?_⟩
    rw [wide_toInt, signed_toInt]
    exact dividend_exact _ hw
  · intro w e f k hf he hv
    obtain ⟨r, hr, hlow⟩ := division_computes hf (fun n => use_computes hx he)
      (by rw [wide_toInt]; exact hnat _ hv) (hsigned _)
    refine ⟨r, hr, (hlow _).trans ?_⟩
    rw [wide_toInt, signed_toInt]
    exact divisor_exact w hv

/-- **Negative numbers in local variables.**  Code that stores a word to a local variable stores
its low half and leaves the other local variables; from there on each use of the variable does
what C says for exactly the numbers that `Uses` names. -/
theorem local_variables {bin : Store} {len : Nat} (M : Setting bin len) (Y : Symbols)
    (A : Addresses) (F : Frame) (x : Int) (xs : List Item) (u : BitVec 64) (p S n : Nat) (c : Cpu)
    (hx : Local F.lv x) (h : Computes M Y F n xs (some u)) (hc : Code bin len Y p (xs ++ store_items x))
    (hin : Inside M F p S c) :
    Leads Cpu.step n (fun d => M.Low d ∨
      Assigned M F x (low u) (p + size (xs ++ store_items x)) S d ∧
        Uses M Y A { F with mem := d.mem } x (low u)) c := by
  refine (stores hx h hc hin).mono fun d hd => hd.imp_right fun hd => ⟨hd, ?_⟩
  have huses : Uses M Y A { F with mem := d.mem } x (Frame.int { F with mem := d.mem } x) := local_uses hx
  rwa [hd.here] at huses

/-- Code that pushes -1. -/
def minusOne : List Item := [.ins ⟨.movabs_rax, (-1 : BitVec 64).toNat⟩, .op .push_rax]

/-- `x = -1`. -/
theorem local_variables_minus :
    Leads Cpu.step 4 (fun d => (imageSetting ⟨fun _ => 0, fun _ => 0, 0, 0⟩ (minusOne ++ store_items 0)
        (by decide)).Low d ∨
      Assigned (imageSetting ⟨fun _ => 0, fun _ => 0, 0, 0⟩ (minusOne ++ store_items 0) (by decide))
        (imageFrame (imageStore ⟨fun _ => 0, fun _ => 0, 0, 0⟩ (minusOne ++ store_items 0))) 0 (low (-1))
        (0 + size (minusOne ++ store_items 0)) 130000 d ∧
      Uses (imageSetting ⟨fun _ => 0, fun _ => 0, 0, 0⟩ (minusOne ++ store_items 0) (by decide))
        ⟨fun _ => 0, fun _ => 0, 0, 0⟩ .zero
        { imageFrame (imageStore ⟨fun _ => 0, fun _ => 0, 0, 0⟩ (minusOne ++ store_items 0)) with
          mem := d.mem } 0 (low (-1)))
      (imageCpu (imageStore ⟨fun _ => 0, fun _ => 0, 0, 0⟩ (minusOne ++ store_items 0))) :=
  local_variables _ _ .zero _ 0 minusOne (-1) 0 130000 4 _ ⟨by decide, by decide, by decide⟩
    (int_computes _) (image_code (by decide)) (image_inside (by decide) fun _ _ => rfl)

/-- A use of the variable at `x`. -/
def useOf (x : Int) : Node := .mk 0 (.var K_INT x .null) .null .null

/-- With -1 in the variable at 0 and 0 in the one at 4, `x < y` is not taken. -/
theorem less_not_taken : ¬ ∀ (bin : Store) (len : Nat) (M : Setting bin len) (Y : Symbols)
    (A : Addresses) (F : Frame) (x y t : Int) (e f ix nx : Node) (l k : Nat),
    Local F.lv x → Local F.lv y → IsUse x e → IsUse y f →
    ∀ n, Decides M Y F n (cond_items A .code (.mk t (.bin '<'.toNat e f) ix nx) l false k) l
      (some (decide ((F.int x).toInt < (F.int y).toInt))) := by
  intro hall
  let Y : Symbols := ⟨fun _ => 26, fun _ => 0, 0, 0⟩
  let cond := cond_items .zero .code (.mk 0 (.bin '<'.toNat (useOf 0) (useOf 4)) .null .null) 1 false 0
  let xs := cond ++ [.op .nop]
  let m := (imageStore Y xs).setLe 130992 4 (2 ^ 32 - 1)
  let c := imageCpu m
  have hcode : Code (imageStore Y xs) (size xs) Y 0 (cond ++ [.op .nop]) := image_code (by decide)
  have htrue : decide (((imageFrame m).int 0).toInt < ((imageFrame m).int 4).toInt) = true := by
    decide
  have hrun := hall _ _ (imageSetting Y xs (by decide)) Y .zero (imageFrame m) 0 4 0 (useOf 0) (useOf 4)
    .null .null 1 0 ⟨by decide, by decide, (by decide : (0 : Int) < 8)⟩
    ⟨by decide, by decide, (by decide : (4 : Int) < 8)⟩ rfl rfl 20 0 130000 c hcode.left
    (image_inside (by decide) fun z hz => setLe_out (by omega)) (by decide)
  rw [htrue] at hrun
  obtain ⟨d, hd, hend⟩ := hrun.on_trail (by decide)
  have hseen : ∀ d ∈ trail Cpu.step 20 c, ¬ d.rsp.toNat < 65536 + 64 ∧
      d.rip ≠ place 0 (0 + size cond) := by decide
  obtain ⟨hroom, hrip⟩ := hseen d hd
  rcases hend with hend | ⟨hon, -⟩
  · exact hroom hend
  · exact hrip hon.rip

end Eke
