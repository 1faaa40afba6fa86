/-
Binary operators as values.

The parser's table has eleven binary operators, and the generator has instructions for four of
them: a remainder or a comparison that is used as a value pushes its left operand.  The
division is one of 64-bit words, whatever 32-bit numbers the operands stand for.
-/
import Eke.Compiler.Image
import Eke.Compiler.Parser

namespace Eke

open Gen Store X86

/-! ### What C says -/

/-- The condition of a comparison operator. -/
def comparison (op : Int) : Option Cond :=
  if op = '<'.toNat then some .l
  else if op = '>'.toNat then some .g
  else if op = T_LEQ then some .le
  else if op = T_GEQ then some .ge
  else if op = T_EQ then some .e
  else if op = T_NEQ then some .ne
  else none

/-- The value of a binary operator in C, as a number of any size. -/
def cOp (op a b : Int) : Option Int :=
  if op = '+'.toNat then some (a + b)
  else if op = '-'.toNat then some (a - b)
  else if op = '*'.toNat then some (a * b)
  else if op = '/'.toNat then if b = 0 then none else some (a.tdiv b)
  else if op = '%'.toNat then if b = 0 then none else some (a.tmod b)
  else (comparison op).map fun k => if k.compares a b then 1 else 0

theorem comparison_cases {op : Int} {k : Cond} (h : comparison op = some k) :
    op = '<'.toNat ∨ op = '>'.toNat ∨ op = T_LEQ ∨ op = T_GEQ ∨ op = T_EQ ∨ op = T_NEQ := by
  unfold comparison at h
  split_ifs at h with h1 h2 h3 h4 h5 h6
  all_goals grind

theorem comparison_some {op : Int} {k : Cond} (h : comparison op = some k) :
    op ≠ '+'.toNat ∧ op ≠ '-'.toNat ∧ op ≠ '*'.toNat ∧ op ≠ '/'.toNat ∧ op ≠ '%'.toNat := by
  rcases comparison_cases h with rfl | rfl | rfl | rfl | rfl | rfl
  all_goals decide

theorem cOp_comparison {op : Int} {k : Cond} (h : comparison op = some k) (a b : Int) :
    cOp op a b = some (if k.compares a b then 1 else 0) := by
  obtain ⟨h1, h2, h3, h4, h5⟩ := comparison_some h
  unfold cOp
  rw [if_neg h1, if_neg h2, if_neg h3, if_neg h4, if_neg h5, h]
  rfl

/-- The operators with a value. -/
theorem cOp_cases {op a b z : Int} (h : cOp op a b = some z) :
    op = '+'.toNat ∨ op = '-'.toNat ∨ op = '*'.toNat ∨ op = '/'.toNat ∨ op = '%'.toNat ∨
      ∃ k, comparison op = some k := by
  unfold cOp at h
  split_ifs at h with h1 h2 h3 h4 h5 h6
  · exact Or.inl h1
  · exact Or.inr (Or.inl h2)
  · exact Or.inr (Or.inr (Or.inl h3))
  · exact Or.inr (Or.inr (Or.inr (Or.inl h4)))
  · exact Or.inr (Or.inr (Or.inr (Or.inr (Or.inl h6))))
  · obtain ⟨k, hk, -⟩ := Option.map_eq_some_iff.mp h
    exact Or.inr (Or.inr (Or.inr (Or.inr (Or.inr ⟨k, hk⟩))))

/-- They are the binary operators of the parser's table. -/
theorem cOp_precedence (op : Int) :
    (∃ a b z, cOp op a b = some z) ↔ 0 < Parser.get_precedence op ∧ Parser.get_precedence op < 80 := by
  constructor
  · intro h
    obtain ⟨a, b, z, h⟩ := h
    rcases cOp_cases h with rfl | rfl | rfl | rfl | rfl | ⟨k, hk⟩
    · decide
    · decide
    · decide
    · decide
    · decide
    · rcases comparison_cases hk with rfl | rfl | rfl | rfl | rfl | rfl
      all_goals decide
  · intro h
    refine ⟨1, 1, ?_⟩
    unfold Parser.get_precedence at h
    split_ifs at h with h1 h2 h3 h4 h5
    · omega
    · rcases h2 with rfl | rfl | rfl
      · exact ⟨1, by decide⟩
      · exact ⟨1, by decide⟩
      · exact ⟨0, by decide⟩
    · rcases h3 with rfl | rfl
      · exact ⟨2, by decide⟩
      · exact ⟨0, by decide⟩
    · rcases h4 with rfl | rfl | rfl | rfl
      · exact ⟨0, by decide⟩
      · exact ⟨0, by decide⟩
      · exact ⟨1, by decide⟩
      · exact ⟨1, by decide⟩
    · rcases h5 with rfl | rfl
      · exact ⟨1, by decide⟩
      · exact ⟨0, by decide⟩
    · omega

/-! ### What the code computes -/

/-- The number a word's low half stands for. -/
def low (u : BitVec 64) : BitVec 32 := u.setWidth 32

/-- The code of an operator computes the C value for these two words: always for `+`, `-` and
`*`; for `/` if the quotient of the words is that of the numbers, up to multiples of 2^32, and a
64-bit number; for the others if the value happens to be the left operand. -/
def Exact (op : Int) (u w : BitVec 64) : Prop :=
  if op = '+'.toNat ∨ op = '-'.toNat ∨ op = '*'.toNat then True
  else if op = '/'.toNat then
    u.toInt.tdiv w.toInt < 2 ^ 63 ∧
      (u.toInt.tdiv w.toInt - (low u).toInt.tdiv (low w).toInt) % 2 ^ 32 = 0
  else cOp op (low u).toInt (low w).toInt = some (low u).toInt

theorem ofInt_congr {a b : Int} : BitVec.ofInt 32 a = BitVec.ofInt 32 b ↔ (a - b) % 2 ^ 32 = 0 := by
  rw [← BitVec.toNat_inj, BitVec.toNat_ofInt, BitVec.toNat_ofInt]
  omega

/-- The low half of a quotient. -/
theorem low_ofInt (z : Int) : low (BitVec.ofInt 64 z) = BitVec.ofInt 32 z := by
  unfold low
  rw [← BitVec.toNat_inj, BitVec.toNat_setWidth, BitVec.toNat_ofInt, BitVec.toNat_ofInt]
  omega

theorem low_sub (u w : BitVec 64) : low (u - w) = low u - low w := by
  unfold low
  rw [← BitVec.toNat_inj, BitVec.toNat_setWidth, BitVec.toNat_sub, BitVec.toNat_sub,
    BitVec.toNat_setWidth, BitVec.toNat_setWidth]
  omega

theorem low_eq_ofInt (u : BitVec 64) {z : Int} (hz : -2 ^ 31 ≤ z) (hz' : z < 2 ^ 31) :
    low u = BitVec.ofInt 32 z ↔ z = (low u).toInt := by
  have hself : (BitVec.ofInt 32 z).toInt = z := by
    rw [BitVec.toInt_ofInt]
    exact Int.bmod_eq_of_le hz (by omega)
  rw [← BitVec.toInt_inj, hself, eq_comm]

/-- A word whose low half is not zero. -/
theorem toInt_ne_zero {w : BitVec 64} (h : (low w).toInt ≠ 0) : w.toInt ≠ 0 := by
  intro hw
  have hzero : w = 0 := BitVec.toInt_inj.mp hw
  subst w
  exact h rfl

/-- The values of the operators without instructions fit. -/
theorem cOp_fits {op z : Int} {a b : BitVec 32} (h : cOp op a.toInt b.toInt = some z)
    (hop : op = '%'.toNat ∨ ∃ k, comparison op = some k) : -2 ^ 31 ≤ z ∧ z < 2 ^ 31 := by
  have ha := BitVec.two_mul_toInt_lt (x := a)
  have ha' := BitVec.le_two_mul_toInt (x := a)
  rcases hop with rfl | ⟨k, hk⟩
  · have hsome : (if b.toInt = 0 then none else some (a.toInt.tmod b.toInt)) = some z := h
    split_ifs at hsome with h0
    have hmod := (Option.some.inj hsome).symm
    have habs : z.natAbs ≤ a.toInt.natAbs := by
      rw [hmod, Int.natAbs_tmod]
      exact Nat.mod_le _ _
    have hneg : a.toInt < 0 → z ≤ 0 := by
      intro hlt
      have := Int.tmod_nonneg b.toInt (a := -a.toInt) (by omega)
      rw [Int.neg_tmod] at this
      omega
    omega
  · rw [cOp_comparison hk] at h
    have := Option.some.inj h
    split at this
    · omega
    · omega

/-- The low half of the quotient of the words. -/
theorem quotient_meant {u w : BitVec 64} (h0 : (low w).toInt ≠ 0) :
    (∃ r, quotient u w = some r ∧ low r = BitVec.ofInt 32 ((low u).toInt.tdiv (low w).toInt)) ↔
      u.toInt.tdiv w.toInt < 2 ^ 63 ∧
        (u.toInt.tdiv w.toInt - (low u).toInt.tdiv (low w).toInt) % 2 ^ 32 = 0 := by
  have hw := toInt_ne_zero h0
  unfold quotient
  by_cases hbig : 2 ^ 63 ≤ u.toInt.tdiv w.toInt
  · rw [if_pos (Or.inr hbig)]
    constructor
    · intro h
      obtain ⟨r, hr, -⟩ := h
      cases hr
    · intro h
      omega
  · rw [if_neg (by omega)]
    constructor
    · intro h
      obtain ⟨r, hr, hlow⟩ := h
      rw [← Option.some.inj hr, low_ofInt, ofInt_congr] at hlow
      exact ⟨by omega, hlow⟩
    · intro h
      refine ⟨_, rfl, ?_⟩
      rw [low_ofInt, ofInt_congr]
      exact h.2

/-- An operator without instructions stands for its left operand. -/
theorem left_exact {op z : Int} {u w : BitVec 64} (hz : cOp op (low u).toInt (low w).toInt = some z)
    (hop : op = '%'.toNat ∨ ∃ k, comparison op = some k) :
    (∃ r, binWord op u w = some r ∧ low r = BitVec.ofInt 32 z) ↔ Exact op u w := by
  have hne : op ≠ '+'.toNat ∧ op ≠ '-'.toNat ∧ op ≠ '*'.toNat ∧ op ≠ '/'.toNat := by
    rcases hop with rfl | ⟨k, hk⟩
    · decide
    · obtain ⟨h1, h2, h3, h4, -⟩ := comparison_some hk
      exact ⟨h1, h2, h3, h4⟩
  obtain ⟨h1, h2, h3, h4⟩ := hne
  have hword : binWord op u w = some u := by
    unfold binWord
    rw [if_neg h1, if_neg h2, if_neg h3, if_neg h4]
  have hexact : Exact op u w ↔ some z = some (low u).toInt := by
    unfold Exact
    rw [if_neg (by simp only [h1, h2, h3, or_self, not_false_eq_true]), if_neg h4, hz]
  have hfits := cOp_fits hz hop
  rw [hword, hexact, Option.some_inj, ← low_eq_ofInt u hfits.1 hfits.2]
  constructor
  · intro h
    obtain ⟨r, hr, hlow⟩ := h
    rw [Option.some.inj hr]
    exact hlow
  · intro h
    exact ⟨u, rfl, h⟩

theorem binWord_exact {op z : Int} {u w : BitVec 64} (hz : cOp op (low u).toInt (low w).toInt = some z) :
    (∃ r, binWord op u w = some r ∧ low r = BitVec.ofInt 32 z) ↔ Exact op u w := by
  rcases cOp_cases hz with rfl | rfl | rfl | rfl | hop
  · have hval : z = (low u).toInt + (low w).toInt := (Option.some.inj hz).symm
    refine iff_of_true ⟨u + w, rfl, ?_⟩ trivial
    rw [hval, BitVec.ofInt_add, BitVec.ofInt_toInt, BitVec.ofInt_toInt]
    exact BitVec.setWidth_add u w (by decide)
  · have hval : z = (low u).toInt - (low w).toInt := (Option.some.inj hz).symm
    refine iff_of_true ⟨u - w, rfl, ?_⟩ trivial
    rw [hval, Int.sub_eq_add_neg, BitVec.ofInt_add, BitVec.ofInt_neg, BitVec.ofInt_toInt, BitVec.ofInt_toInt,
      ← BitVec.sub_eq_add_neg]
    exact low_sub u w
  · have hval : z = (low u).toInt * (low w).toInt := (Option.some.inj hz).symm
    refine iff_of_true ⟨u * w, rfl, ?_⟩ trivial
    rw [hval, BitVec.ofInt_mul, BitVec.ofInt_toInt, BitVec.ofInt_toInt]
    exact BitVec.setWidth_mul u w (by decide)
  · have hsome : (if (low w).toInt = 0 then none else some ((low u).toInt.tdiv (low w).toInt))
        = some z := hz
    split_ifs at hsome with h0
    rw [← Option.some.inj hsome]
    exact quotient_meant h0
  · exact left_exact hz hop

/-- **Binary operators.**  Where the operands' code pushes the words `u` and `w`, and the C value
of the operator is `z`, the code of the operator computes a word whose low half is `z` if and
only if the operator is exact on these words. -/
theorem binary_value {bin : Store} {len : Nat} (M : Setting bin len) (Y : Symbols) (A : Addresses)
    (F : Frame) (op : Int) (left right : Node) (k : Nat) (u w : BitVec 64) (z : Int)
    (hl : ∀ n, Computes M Y F n (node_items A .code left k) (some u))
    (hr : ∀ n, Computes M Y F n (node_items A .code right (k + allocs (node_items A .code left k))) (some w))
    (hz : cOp op (low u).toInt (low w).toInt = some z) :
    ∃ o, (∀ n, Computes M Y F n (kind_items A .code (.bin op left right) k) o) ∧
      ((∃ r, o = some r ∧ low r = BitVec.ofInt 32 z) ↔ Exact op u w) := by
  refine ⟨binWord op u w, fun n => ?_, binWord_exact hz⟩
  simp only [kind_items]
  exact bin_computes op (hl n) (hr n)

/-- A literal. -/
def number (v : BitVec 64) : Node := .mk 0 (.int v) .null .null

theorem number_computes {bin : Store} {len : Nat} {M : Setting bin len} {Y : Symbols} {F : Frame} (v : BitVec 64)
    (k n : Nat) : Computes M Y F n (node_items .zero .code (number v) k) (some v) :=
  (int_computes v).visit

/-- `7 / 4`. -/
theorem binary_value_quotient :
    ∃ o, (∀ n, Computes (imageSetting ⟨fun _ => 0, fun _ => 0, 0, 0⟩ [] (by decide))
        ⟨fun _ => 0, fun _ => 0, 0, 0⟩ (imageFrame fun _ => 0) n
        (kind_items .zero .code (.bin '/'.toNat (number 7) (number 4)) 0) o) ∧
      ((∃ r, o = some r ∧ low r = BitVec.ofInt 32 1) ↔ Exact '/'.toNat 7 4) :=
  binary_value _ _ .zero _ _ _ _ 0 7 4 1 (number_computes 7 0) (number_computes 4 0) (by decide)

/-- `7 % 4` is 3, and its code pushes 7. -/
theorem remainder_dropped : ¬ ∀ (bin : Store) (len : Nat) (M : Setting bin len) (Y : Symbols) (A : Addresses)
    (F : Frame) (op : Int) (left right : Node) (k : Nat) (u w : BitVec 64) (z : Int),
    (∀ n, Computes M Y F n (node_items A .code left k) (some u)) →
    (∀ n, Computes M Y F n (node_items A .code right (k + allocs (node_items A .code left k))) (some w)) →
    cOp op (low u).toInt (low w).toInt = some z →
    (op = '/'.toNat ∨ op = '%'.toNat → ¬ ((low u).toInt = -2 ^ 31 ∧ (low w).toInt = -1)) →
    ∃ r, (∀ n, Computes M Y F n (kind_items A .code (.bin op left right) k) (some r)) ∧
      low r = BitVec.ofInt 32 z := by
  intro hall
  let Y : Symbols := ⟨fun _ => 0, fun _ => 0, 0, 0⟩
  let xs := kind_items .zero .code (.bin '%'.toNat (number 7) (number 4)) 0
  let c := imageCpu (imageStore Y xs)
  obtain ⟨r, hr, hlow⟩ := hall _ _ (imageSetting Y xs (by decide)) Y .zero (imageFrame (imageStore Y xs))
    '%'.toNat (number 7) (number 4) 0 7 4 3 (number_computes 7 0) (number_computes 4 0) (by decide)
    (by decide)
  have hrun := hr 9 0 130000 c (image_code (by decide)) (image_inside (by decide) fun _ _ => rfl)
  obtain ⟨d, hd, hend⟩ := hrun.on_trail (by decide)
  have hseen : ∀ d ∈ trail Cpu.step 9 c, ¬ d.rsp.toNat < 65536 + 64 ∧
      (d.rip = place 0 (0 + size xs) → d.mem.word (130000 - 8) = 7) := by decide
  obtain ⟨hroom, hword⟩ := hseen d hd
  rcases hend with hend | ⟨hon, -, hr7⟩
  · exact hroom hend
  · rw [hword hon.rip] at hr7
    subst hr7
    exact absurd hlow (by decide)

end Eke
