/-
Conditions of `if`, `while` and `for`.

`gen_condition` compiles every binary operator as a comparison and a jump, and everything else
as a test for zero.  Of the operators that are no comparisons, each is tested as `==`.  So a
condition is decided as in C where its root is a comparison, a literal, a variable or a call, as
long as the operands' code computes their C values; an arithmetic root is decided as in C only
if its operands are equal exactly where its value is not zero.
-/
import Eke.Compiler.Operators

namespace Eke

open Gen Store X86

variable {bin : Store} {len : Nat} {M : Setting bin len} {Y : Symbols} {A : Addresses} {F : Frame}
  {n k l : Nat} {op : Int} {o o' : Option (BitVec 64)}

/-! ### One operator -/

/-- What the code of a condition tests for the operator at its root. -/
def tested (op a b : Int) : Bool :=
  match comparison op with
  | some c => c.compares a b
  | none => decide (a = b)

/-- The jump leaves the code if the test fails. -/
theorem invert_compares (op a b : Int) : (!(condOf (invert op)).compares a b) = tested op a b := by
  unfold tested
  cases hop : comparison op with
  | some c =>
      have hcases := comparison_cases hop
      rcases hcases with rfl | rfl | rfl | rfl | rfl | rfl
      all_goals
        obtain rfl := Option.some.inj hop
        rw [Bool.eq_iff_iff]
        simp [condOf, invert, Cond.compares]
  | none =>
      unfold comparison at hop
      split_ifs at hop with h1 h2 h3 h4 h5 h6
      have hinv : invert op = op := by
        unfold invert
        rw [if_neg h1, if_neg h2, if_neg h3, if_neg h4, if_neg h5, if_neg h6]
      have hcond : condOf op = .ne := by
        unfold condOf
        rw [if_neg h1, if_neg h2, if_neg h3, if_neg h4, if_neg h5]
      rw [hinv, hcond]
      simp [Cond.compares]

/-- The code of a condition with a binary operator at its root. -/
theorem bin_decides {left right : Node} (t : Int) (ix nx : Node)
    (hl : Computes M Y F n (node_items A .code left k) o)
    (hr : Computes M Y F n (node_items A .code right (k + allocs (node_items A .code left k))) o') :
    Decides M Y F n (cond_items A .code (.mk t (.bin op left right) ix nx) l false k) l
      (o.bind fun u => o'.bind fun w => some (tested op u.toInt w.toInt)) := by
  have h := compare_decides (condOf (invert op)) l hl hr
  simp only [invert_compares] at h
  simpa only [cond_items, Bool.false_eq_true, if_false] using h

/-! ### Conditions with their values -/

/-- An expression with the words its literals, variables and calls give. -/
inductive Operand
  | leaf (u : BitVec 64)
  | binary (op : Int) (left right : Operand)

namespace Operand

/-- What the code computes: a remainder or a comparison stands for its left operand. -/
def word : Operand → Option (BitVec 64)
  | leaf u => some u
  | binary op left right => left.word.bind fun u => right.word.bind fun w => binWord op u w

/-- The value in C, if no operator overflows or divides by zero. -/
def value : Operand → Option Int
  | leaf u => some u.toInt
  | binary op left right =>
      (left.value.bind fun a => right.value.bind fun b => cOp op a b).filter fun z =>
        -2 ^ 31 ≤ z ∧ z < 2 ^ 31

/-- The words are non-negative numbers below 2^31. -/
def Small : Operand → Prop
  | leaf u => u.toNat < 2 ^ 31
  | binary _ left right => left.Small ∧ right.Small

/-- As a condition of the value `z` it is tested as in C: its root is a comparison, and the words
of the operands compare as the operands do; or another operator, and they are equal exactly if
`z` is not zero; or none. -/
def Tested : Operand → Int → Prop
  | leaf _, _ => True
  | binary op left right, z =>
      ∃ u w, left.word = some u ∧ right.word = some w ∧ (tested op u.toInt w.toInt = true ↔ z ≠ 0)

/-- Only operators with instructions. -/
def Plain : Operand → Prop
  | leaf _ => True
  | binary op left right =>
      (op = '+'.toNat ∨ op = '-'.toNat ∨ op = '*'.toNat ∨ op = '/'.toNat) ∧ left.Plain ∧ right.Plain

/-- Such code computes the C value, in 64 bits. -/
theorem word_value : ∀ {e : Operand} {z : Int}, e.Plain → e.Small → e.value = some z →
    -2 ^ 31 ≤ z ∧ z < 2 ^ 31 ∧ ∃ u, e.word = some u ∧ u.toInt = z := by
  intro e
  induction e with
  | leaf u =>
      intro z _ hsmall hz
      obtain rfl := Option.some.inj hz
      have hint : u.toInt = u.toNat := BitVec.toInt_eq_toNat_of_lt (by
        have : u.toNat < 2 ^ 31 := hsmall
        omega)
      have : u.toNat < 2 ^ 31 := hsmall
      exact ⟨by omega, by omega, u, rfl, rfl⟩
  | binary op left right ihl ihr =>
      intro z hplain hsmall hz
      obtain ⟨hop, hpl, hpr⟩ := hplain
      obtain ⟨hz, hfits⟩ := Option.filter_eq_some_iff.mp hz
      obtain ⟨a, ha, hz⟩ := Option.bind_eq_some_iff.mp hz
      obtain ⟨b, hb, hz⟩ := Option.bind_eq_some_iff.mp hz
      obtain ⟨hla, hla', u, hu, rfl⟩ := ihl hpl hsmall.1 ha
      obtain ⟨hlb, hlb', w, hw, rfl⟩ := ihr hpr hsmall.2 hb
      have hfits : -2 ^ 31 ≤ z ∧ z < 2 ^ 31 := of_decide_eq_true hfits
      refine ⟨hfits.1, hfits.2, ?_⟩
      have hword : ∀ r, binWord op u w = some r → (Operand.binary op left right).word = some r := by
        intro r hr
        rw [word, hu, hw]
        exact hr
      rcases hop with rfl | rfl | rfl | rfl
      · have hval : u.toInt + w.toInt = z := Option.some.inj hz
        refine ⟨u + w, hword _ rfl, ?_⟩
        rw [BitVec.toInt_add, hval]
        exact Int.bmod_eq_of_le (by omega) (by omega)
      · have hval : u.toInt - w.toInt = z := Option.some.inj hz
        refine ⟨u - w, hword _ rfl, ?_⟩
        rw [BitVec.toInt_sub, hval]
        exact Int.bmod_eq_of_le (by omega) (by omega)
      · have hval : u.toInt * w.toInt = z := Option.some.inj hz
        refine ⟨u * w, hword _ rfl, ?_⟩
        rw [BitVec.toInt_mul, hval]
        exact Int.bmod_eq_of_le (by omega) (by omega)
      · have hsome : (if w.toInt = 0 then none else some (u.toInt.tdiv w.toInt)) = some z := hz
        split_ifs at hsome with h0
        have hval := Option.some.inj hsome
        refine ⟨BitVec.ofInt 64 z, hword _ ?_, ?_⟩
        · show quotient u w = _
          unfold quotient
          rw [if_neg (by omega), hval]
        · rw [BitVec.toInt_ofInt]
          exact Int.bmod_eq_of_le (by omega) (by omega)

/-- Over such operands every comparison is tested as in C, and an arithmetic root exactly if the
operands are equal where its value is not zero. -/
theorem tested_plain {op z : Int} {left right : Operand} {a b : Int}
    (hl : left.Plain) (hr : right.Plain) (hsmall : (Operand.binary op left right).Small)
    (ha : left.value = some a) (hb : right.value = some b)
    (hz : (Operand.binary op left right).value = some z) :
    (Operand.binary op left right).Tested z ↔
      (∃ c, comparison op = some c) ∨ (a = b ↔ z ≠ 0) := by
  obtain ⟨-, -, u, hu, rfl⟩ := word_value hl hsmall.1 ha
  obtain ⟨-, -, w, hw, rfl⟩ := word_value hr hsmall.2 hb
  have hiff : (Operand.binary op left right).Tested z ↔ (tested op u.toInt w.toInt = true ↔ z ≠ 0) := by
    constructor
    · intro h
      obtain ⟨u', w', hu', hw', h⟩ := h
      obtain rfl := Option.some.inj (hu.symm.trans hu')
      obtain rfl := Option.some.inj (hw.symm.trans hw')
      exact h
    · intro h
      exact ⟨u, w, hu, hw, h⟩
  rw [hiff]
  unfold tested
  cases hop : comparison op with
  | some c =>
      refine iff_of_true ?_ (Or.inl ⟨c, rfl⟩)
      obtain ⟨hz, -⟩ := Option.filter_eq_some_iff.mp hz
      rw [ha, hb, Option.bind_some, Option.bind_some, cOp_comparison hop] at hz
      rw [← Option.some.inj hz]
      split <;> simp_all
  | none => simp

end Operand

variable (M Y A F) in
/-- The expression's literals, variables and calls give the words at the leaves: a literal its
value, a local variable the number it holds without its sign, a parameter its word, and a call
the word that its code computes. -/
inductive Reads : Kind → Nat → Operand → Prop
  | int (v : BitVec 64) (k : Nat) : Reads (.int v) k (.leaf v)
  | localVar {x : Int} (dt : Int) (val : Node) (k : Nat) (hx : Local F.lv x) :
      Reads (.var dt x val) k (.leaf ((F.int x).setWidth 64))
  | param {i : Nat} (dt : Int) (val : Node) (k : Nat) (hi : i < F.argc) :
      Reads (.var dt (-12 - 4 * (i : Int)) val) k (.leaf (F.param i))
  | call {f : Name} {args : Node} {c : Int} {k : Nat} {u : BitVec 64}
      (h : ∀ n, Computes M Y F n (kind_items A .code (.call f args c) k) (some u)) :
      Reads (.call f args c) k (.leaf u)
  | binary (op : Int) {t t' : Int} {left right : Kind} {ix ix' nx nx' : Node} {k : Nat} {e e' : Operand}
      (hl : Reads left k e)
      (hr : Reads right (k + allocs (node_items A .code (.mk t left ix nx) k)) e') :
      Reads (.bin op (.mk t left ix nx) (.mk t' right ix' nx')) k (.binary op e e')

/-- The code of an expression computes its word. -/
theorem Reads.computes {kind : Kind} {e : Operand} (h : Reads M Y A F kind k e) :
    ∀ n, Computes M Y F n (kind_items A .code kind k) e.word := by
  induction h with
  | int v k =>
      intro n
      simp only [kind_items]
      exact int_computes v
  | localVar dt val k hx =>
      intro n
      simp only [kind_items]
      exact local_computes hx
  | param dt val k hi =>
      intro n
      simp only [kind_items]
      exact param_computes hi
  | call h => exact h
  | binary op hl hr ihl ihr =>
      intro n
      simp only [kind_items]
      refine bin_computes op ?_ ?_
      · simp only [node_items]
        exact (ihl n).visit
      · have := ihr n
        simp only [node_items] at this ⊢
        exact this.visit

theorem Reads.node_computes {t : Int} {kind : Kind} {ix nx : Node} {e : Operand}
    (h : Reads M Y A F kind k e) (n : Nat) :
    Computes M Y F n (node_items A .code (.mk t kind ix nx) k) e.word := by
  simp only [node_items]
  exact (h.computes n).visit

/-- A word is tested for zero. -/
theorem leaf_tested {u : BitVec 64} {z : Int} (hz : (Operand.leaf u).value = some z) :
    some (decide (u ≠ 0)) = some (decide (z ≠ 0)) ↔ (Operand.leaf u).Tested z := by
  obtain rfl := Option.some.inj hz
  refine iff_of_true ?_ trivial
  have hzero : u = 0 ↔ u.toInt = 0 := by
    rw [← BitVec.toInt_inj]
    rfl
  rw [Option.some_inj, decide_eq_decide]
  exact not_congr hzero

/-- **Conditions.**  Where an expression of literals, variables, calls and binary operators has
the C value `z`, its code as a condition runs on if `z` is not zero and jumps if it is, exactly
if the expression is tested as in C. -/
theorem condition_decided {bin : Store} {len : Nat} (M : Setting bin len) (Y : Symbols)
    (A : Addresses) (F : Frame) (t : Int) (kind : Kind) (ix nx : Node) (l k : Nat) (e : Operand) (z : Int)
    (he : Reads M Y A F kind k e) (hz : e.value = some z) :
    ∃ o, (∀ n, Decides M Y F n (cond_items A .code (.mk t kind ix nx) l false k) l o) ∧
      (o = some (decide (z ≠ 0)) ↔ e.Tested z) := by
  cases he with
  | int v k => exact ⟨_, fun n => test_decides l (int_computes v), leaf_tested hz⟩
  | localVar dt val k hx => exact ⟨_, fun n => test_decides l (local_computes hx), leaf_tested hz⟩
  | param dt val k hi => exact ⟨_, fun n => test_decides l (param_computes hi), leaf_tested hz⟩
  | call h => exact ⟨_, fun n => test_decides l (h n), leaf_tested hz⟩
  | binary op hl hr =>
      refine ⟨_, fun n => bin_decides t ix nx (hl.node_computes n) (hr.node_computes n), ?_⟩
      constructor
      · intro h
        obtain ⟨u, hu, h⟩ := Option.bind_eq_some_iff.mp h
        obtain ⟨w, hw, h⟩ := Option.bind_eq_some_iff.mp h
        refine ⟨u, w, hu, hw, ?_⟩
        rw [Option.some.inj h]
        exact decide_eq_true_iff
      · intro h
        obtain ⟨u, w, hu, hw, h⟩ := h
        rw [hu, hw]
        refine congrArg some ?_
        rw [Bool.eq_iff_iff, decide_eq_true_iff]
        exact h

/-- `if (7 < 9)`. -/
theorem condition_decided_less :
    ∃ o, (∀ n, Decides (imageSetting ⟨fun _ => 0, fun _ => 0, 0, 0⟩ [] (by decide))
        ⟨fun _ => 0, fun _ => 0, 0, 0⟩ (imageFrame fun _ => 0) n
        (cond_items .zero .code (.mk 0 (.bin '<'.toNat (number 7) (number 9)) .null .null) 1 false 0) 1 o) ∧
      (o = some (decide ((1 : Int) ≠ 0)) ↔
        (Operand.binary '<'.toNat (.leaf 7) (.leaf 9)).Tested 1) :=
  condition_decided _ _ .zero _ 0 _ .null .null 1 0 (.binary '<'.toNat (.leaf 7) (.leaf 9)) 1
    (.binary _ (.int 7 0) (.int 9 _)) (by decide)

/-- The body of `if (2 - 1)` is skipped. -/
theorem difference_skipped : ¬ ∀ (bin : Store) (len : Nat) (M : Setting bin len) (Y : Symbols)
    (A : Addresses) (F : Frame) (t : Int) (kind : Kind) (ix nx : Node) (l k : Nat) (e : Operand) (z : Int),
    Reads M Y A F kind k e → e.Small → e.value = some z →
    ∀ n, Decides M Y F n (cond_items A .code (.mk t kind ix nx) l false k) l (some (decide (z ≠ 0))) := by
  intro hall
  let Y : Symbols := ⟨fun _ => 34, fun _ => 0, 0, 0⟩
  let cond := cond_items .zero .code (.mk 0 (.bin '-'.toNat (number 2) (number 1)) .null .null) 1 false 0
  let xs := cond ++ [.op .nop]
  let c := imageCpu (imageStore Y xs)
  have hcode : Code (imageStore Y xs) (size xs) Y 0 (cond ++ [.op .nop]) := image_code (by decide)
  have hrun := hall _ _ (imageSetting Y xs (by decide)) Y .zero (imageFrame (imageStore Y xs)) 0
    (.bin '-'.toNat (number 2) (number 1)) .null .null 1 0 (.binary '-'.toNat (.leaf 2) (.leaf 1)) 1
    (.binary _ (.int 2 0) (.int 1 _))
    ⟨(by decide : (2 : BitVec 64).toNat < 2 ^ 31), (by decide : (1 : BitVec 64).toNat < 2 ^ 31)⟩
    (by decide) 20 0 130000 c
    hcode.left (image_inside (by decide) fun _ _ => rfl) (by decide)
  obtain ⟨d, hd, hend⟩ := hrun.on_trail (by decide)
  have hseen : ∀ d ∈ trail Cpu.step 20 c, ¬ d.rsp.toNat < 65536 + 64 ∧
      d.rip ≠ place 0 (0 + size cond) := by decide
  obtain ⟨hroom, hrip⟩ := hseen d hd
  rcases hend with hend | ⟨hon, -⟩
  · exact hroom hend
  · exact hrip hon.rip

end Eke
