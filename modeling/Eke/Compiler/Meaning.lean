/-
What programs mean.

A program of functions over `int` variables has a meaning: blocks, conditionals, loops,
declarations, assignments, returns and calls of its own functions, recursive ones too.  The
interpreter is written once, for any kind of values.  `cValues` are C's, numbers for which an
overflow has no meaning; `wordValues` are those of the generated code, words of which a variable
keeps what its instructions keep.  What has a meaning in C means the same in words, except for
negative numbers in local variables: those are left out here.
-/
import Eke.Compiler.Conditions
import Eke.Lib.Answers

namespace Eke

open Gen X86

/-! ### Values -/

/-- The values a program computes with: what a literal, a binary operator, a comparison in a
condition and a condition without an operator stand for, and what a local variable keeps. -/
structure Values (V : Type) where
  lit : BitVec 64 → Option V
  bin : Int → V → V → Option V
  test : Int → V → V → Option Bool
  truth : V → Bool
  keep : V → Option V

/-- An `int`. -/
def isInt (z : Int) : Bool := -2 ^ 31 ≤ z ∧ z < 2 ^ 31

/-- C's values, without negative numbers in local variables. -/
def cValues : Values Int where
  lit v := (some v.toInt).filter isInt
  bin op a b :=
    if op = '+'.toNat ∨ op = '-'.toNat ∨ op = '*'.toNat ∨ op = '/'.toNat then
      (cOp op a b).filter isInt
    else none
  test op a b := (comparison op).map fun k => k.compares a b
  truth a := a ≠ 0
  keep a := if 0 ≤ a then some a else none

/-- The words the code computes with; four bytes of a word are kept in a local variable. -/
def wordValues : Values (BitVec 64) where
  lit v := some v
  bin := binWord
  test op u w := some (tested op u.toInt w.toInt)
  truth u := u ≠ 0
  keep u := some ((low u).setWidth 64)

/-! ### Variables -/

/-- The variables of a function, by their offsets: `lv` bytes of local ones, and `argc`
parameters. -/
structure Vars (V : Type) where
  lv : Nat
  argc : Nat
  held : Int → Option V

variable {V W : Type}

/-- The parameter at an offset. -/
def paramIndex (x : Int) : Nat := ((-12 - x) / 4).toNat

instance : DecidablePred isBuiltin := fun name =>
  inferInstanceAs (Decidable (name = _ ∨ name = _ ∨ name = _ ∨ name = _))

namespace Vars

def isLocal (ρ : Vars V) (x : Int) : Bool := 0 ≤ x ∧ x % 4 = 0 ∧ x < ρ.lv

def isParam (ρ : Vars V) (x : Int) : Bool :=
  x ≤ -12 ∧ (-12 - x) % 4 = 0 ∧ paramIndex x < ρ.argc

def put (ρ : Vars V) (x : Int) (v : Option V) : Vars V :=
  { ρ with held := fun y => if y = x then v else ρ.held y }

/-- An assignment, which has no meaning if there is no such variable. -/
def set (D : Values V) (ρ : Vars V) (x : Int) (v : V) : Answer (Vars V) :=
  if ρ.isParam x then .is (ρ.put x v)
  else if ρ.isLocal x then do
    let v ← Answer.ofOption (D.keep v)
    return ρ.put x v
  else .wild

/-- The variables of a function that is called: the parameters hold the arguments, and the local
variables nothing yet. -/
def entered (lv : Nat) (args : List V) : Vars V where
  lv := lv
  argc := args.length
  held x := if x ≤ -12 ∧ (-12 - x) % 4 = 0 then args[paramIndex x]? else none

end Vars

/-! ### The interpreter -/

/-- A statement was executed, or the function was left, with or without a value. -/
inductive After (V : Type)
  | next (ρ : Vars V)
  | left (v : Option V)

/-- What is executed behind a statement, unless that leaves the function. -/
def behind (x : Answer (After V)) (k : Vars V → Answer (After V)) : Answer (After V) := do
  match ← x with
  | .next ρ => k ρ
  | .left v => return .left v

/-- What the program means with less fuel: a call, and a loop from its condition on. -/
structure Deeper (V : Type) where
  call : Name → List V → Answer (Option V)
  again : Kind → Vars V → Answer (After V)

/-- The function of a name, if one entry of the global table has it, with a body. -/
def definition (gt : List Node) (f : Name) : Option Node :=
  match gt.filter fun q => q.funcName = some f with
  | [d] => if d.body.isSome then some d else none
  | _ => none

/-- A call whose arguments are all passed, of a function of the program. -/
def callable (name : Name) (args : Node) : Bool := ¬ isBuiltin name ∧ chainLength args ≤ 32

section

variable (D : Values V) (r : Deeper V)

mutual

def node_value (ρ : Vars V) : Node → Answer V
  | .null => .wild
  | .mk _ k _ _ => kind_value ρ k

/-- The value of an expression; a function that returned nothing has none. -/
def kind_value (ρ : Vars V) : Kind → Answer V
  | .int int_val => .ofOption (D.lit int_val)
  | .var _ offset _ => .ofOption (ρ.held offset)
  | .bin op left right => do
      let u ← node_value ρ left
      let w ← node_value ρ right
      .ofOption (D.bin op u w)
  | .call name args _ =>
      if callable name args then do
        let us ← args_values ρ args
        let v ← r.call name us
        .ofOption v
      else .wild
  | _ => .wild

/-- The values of the arguments, the last of which is computed first. -/
def args_values (ρ : Vars V) : Node → Answer (List V)
  | .null => .is []
  | .mk _ k _ nx => do
      let us ← args_values ρ nx
      let u ← kind_value ρ k
      return u :: us

end

/-- Whether a condition holds. -/
def cond_truth (ρ : Vars V) : Node → Answer Bool
  | .null => .wild
  | .mk _ (.bin op left right) _ _ => do
      let u ← node_value D r ρ left
      let w ← node_value D r ρ right
      .ofOption (D.test op u w)
  | .mk _ k _ _ => do
      let u ← kind_value D r ρ k
      return D.truth u

mutual

def node_runs (ρ : Vars V) : Node → Answer (After V)
  | .null => .is (.next ρ)
  | .mk _ k _ _ => kind_runs ρ k

/-- The statements of a block, where a variable is a declaration. -/
def block_runs (ρ : Vars V) : Node → Answer (After V)
  | .null => .is (.next ρ)
  | .mk _ (.var _ offset value) _ nx => do
      if value.isSome then
        let v ← node_value D r ρ value
        let ρ' ← ρ.set D offset v
        block_runs ρ' nx
      else block_runs (ρ.put offset none) nx
  | .mk _ k _ nx => behind (kind_runs ρ k) fun ρ' => block_runs ρ' nx

def kind_runs (ρ : Vars V) : Kind → Answer (After V)
  | .block body => block_runs ρ body
  | .if_ cond then_stmt else_stmt => do
      if ← cond_truth D r ρ cond then node_runs ρ then_stmt else node_runs ρ else_stmt
  | .while_ cond then_stmt isfor => do
      if ← cond_truth D r ρ cond then
        behind (node_runs ρ then_stmt) (r.again (.while_ cond then_stmt isfor))
      else return .next ρ
  | .assign offset _ left right => do
      let v ← node_value D r ρ right
      match left with
      | .mk _ (.var _ off _) _ _ => do
          let ρ' ← ρ.set D (if offset ≠ 0 then offset else off) v
          return .next ρ'
      | _ => .wild
  | .return_ value =>
      if value.isSome then do
        let v ← node_value D r ρ value
        return .left (some v)
      else return .left none
  | .call name args _ =>
      if callable name args then do
        let us ← args_values D r ρ args
        let _ ← r.call name us
        return .next ρ
      else .wild
  | k => do
      let _ ← kind_value D r ρ k
      return .next ρ

end

variable (gt : List Node)

/-- A call of a function with its arguments. -/
def call_means (f : Name) (args : List V) : Answer (Option V) :=
  match definition gt f with
  | none => .wild
  | some d =>
      if d.paramCount = args.length ∧ args.length ≤ 32 then do
        match ← node_runs D r (.entered d.localBytes.toNat args) d.body with
        | .next _ => return none
        | .left v => return v
      else .wild

end

/-- The meaning of the program, with fuel for `n` calls and rounds of loops inside one another. -/
def meaning (D : Values V) (gt : List Node) : Nat → Deeper V
  | 0 => ⟨fun _ _ => .more, fun _ _ => .more⟩
  | n + 1 => ⟨call_means D (meaning D gt n) gt, fun k ρ => kind_runs D (meaning D gt n) ρ k⟩

/-! ### From one kind of values to another -/

/-- What has a value in `D` has one in `E` that stands for it. -/
structure Values.Under (R : V → W → Prop) (D : Values V) (E : Values W) : Prop where
  lit : ∀ v a, D.lit v = some a → ∃ b, E.lit v = some b ∧ R a b
  bin : ∀ op a a' b b' z, R a b → R a' b' → D.bin op a a' = some z → ∃ w, E.bin op b b' = some w ∧ R z w
  test : ∀ op a a' b b' t, R a b → R a' b' → D.test op a a' = some t → E.test op b b' = some t
  truth : ∀ a b, R a b → D.truth a = E.truth b
  keep : ∀ a b z, R a b → D.keep a = some z → ∃ w, E.keep b = some w ∧ R z w

/-- The variables hold values that stand for one another. -/
structure Vars.Under (R : V → W → Prop) (ρ : Vars V) (ρ' : Vars W) : Prop where
  lv : ρ.lv = ρ'.lv
  argc : ρ.argc = ρ'.argc
  held : ∀ x a, ρ.held x = some a → ∃ b, ρ'.held x = some b ∧ R a b

/-- The values, where there is one. -/
def Stood (R : V → W → Prop) : Option V → Option W → Prop
  | some a, b => ∃ w, b = some w ∧ R a w
  | none, b => b = none

def After.Under (R : V → W → Prop) : After V → After W → Prop
  | .next ρ, .next ρ' => ρ.Under R ρ'
  | .left v, .left w => Stood R v w
  | _, _ => False

structure Deeper.Under (R : V → W → Prop) (r : Deeper V) (r' : Deeper W) : Prop where
  call : ∀ f us ws, List.Forall₂ R us ws → (r.call f us).Refines (Stood R) (r'.call f ws)
  again : ∀ k ρ ρ', ρ.Under R ρ' → (r.again k ρ).Refines (After.Under R) (r'.again k ρ')

section

variable {R : V → W → Prop} {D : Values V} {E : Values W} {r : Deeper V} {r' : Deeper W} {ρ : Vars V}
  {ρ' : Vars W}

theorem Vars.Under.put (h : ρ.Under R ρ') (x : Int) {v : Option V} {w : Option W}
    (hv : ∀ a, v = some a → ∃ b, w = some b ∧ R a b) : (ρ.put x v).Under R (ρ'.put x w) := by
  refine ⟨h.lv, h.argc, fun y a ha => ?_⟩
  simp only [Vars.put] at ha ⊢
  by_cases hy : y = x
  · rw [if_pos hy] at ha ⊢
    exact hv a ha
  · rw [if_neg hy] at ha ⊢
    exact h.held y a ha

theorem Vars.Under.set (h : ρ.Under R ρ') (hD : D.Under R E) (x : Int) {v : V} {w : W} (hv : R v w) :
    (ρ.set D x v).Refines (Vars.Under R) (ρ'.set E x w) := by
  have hparam : ρ'.isParam x = ρ.isParam x := by simp only [Vars.isParam, h.argc]
  have hlocal : ρ'.isLocal x = ρ.isLocal x := by simp only [Vars.isLocal, h.lv]
  unfold Vars.set
  rw [hparam, hlocal]
  split
  · exact h.put x fun a ha => ⟨w, rfl, Option.some.inj ha ▸ hv⟩
  · split
    · refine Answer.Refines.bind (.ofOption fun z hz => hD.keep v w z hv hz) fun z z' hz => ?_
      exact h.put x fun a ha => ⟨z', rfl, Option.some.inj ha ▸ hz⟩
    · trivial

/-- The variables of a function that is called with values that stand for one another. -/
theorem Vars.entered_under (lv : Nat) {us : List V} {ws : List W} (h : List.Forall₂ R us ws) :
    (Vars.entered lv us).Under R (Vars.entered lv ws) := by
  refine ⟨rfl, h.length_eq, fun x a ha => ?_⟩
  simp only [Vars.entered] at ha ⊢
  split at ha
  · rename_i hx
    rw [if_pos hx]
    obtain ⟨hlt, ha⟩ := List.getElem?_eq_some_iff.mp ha
    have hlt' : paramIndex x < ws.length := h.length_eq ▸ hlt
    refine ⟨ws[paramIndex x], List.getElem?_eq_getElem hlt', ?_⟩
    rw [← ha]
    exact h.get hlt hlt'
  · cases ha

theorem Stood.ofOption {v : Option V} {w : Option W} (h : Stood R v w) :
    (Answer.ofOption v).Refines R (Answer.ofOption w) := by
  cases v with
  | none => trivial
  | some a =>
      obtain ⟨b, rfl, hb⟩ := h
      exact hb

mutual

theorem node_value_refines (hD : D.Under R E) (hr : r.Under R r') (h : ρ.Under R ρ') : ∀ e : Node,
    (node_value D r ρ e).Refines R (node_value E r' ρ' e)
  | .null => trivial
  | .mk _ k _ _ => kind_value_refines hD hr h k

theorem kind_value_refines (hD : D.Under R E) (hr : r.Under R r') (h : ρ.Under R ρ') : ∀ k : Kind,
    (kind_value D r ρ k).Refines R (kind_value E r' ρ' k)
  | .int v => .ofOption (hD.lit v)
  | .var _ offset _ => .ofOption (h.held offset)
  | .bin op left right =>
      (node_value_refines hD hr h left).bind fun a b hab =>
        (node_value_refines hD hr h right).bind fun a' b' hab' =>
          .ofOption fun z hz => hD.bin op a a' b b' z hab hab' hz
  | .call name args _ => by
      simp only [kind_value]
      split
      · refine (args_values_refines hD hr h args).bind fun us ws hus => ?_
        exact (hr.call name us ws hus).bind fun _ _ hv => hv.ofOption
      · trivial
  | .func .. | .block _ | .elem _ | .if_ .. | .while_ .. | .return_ _ | .assign .. | .str _ | .gvar ..
  | .pointer .. | .addr _ | .break_ | .continue_ | .arr_access _ | .mem_access .. | .preinc _ | .predec _
  | .postinc _ | .postdec _ => trivial

theorem args_values_refines (hD : D.Under R E) (hr : r.Under R r') (h : ρ.Under R ρ') : ∀ args : Node,
    (args_values D r ρ args).Refines (List.Forall₂ R) (args_values E r' ρ' args)
  | .null => List.Forall₂.nil
  | .mk _ k _ nx =>
      (args_values_refines hD hr h nx).bind fun _ _ hus =>
        (kind_value_refines hD hr h k).bind fun _ _ hu => List.Forall₂.cons hu hus

end

theorem cond_truth_refines (hD : D.Under R E) (hr : r.Under R r') (h : ρ.Under R ρ') (cond : Node) :
    (cond_truth D r ρ cond).Refines Eq (cond_truth E r' ρ' cond) := by
  cases cond with
  | null => trivial
  | mk t k ix nx =>
      cases k with
      | bin op left right =>
          refine (node_value_refines hD hr h left).bind fun a b hab => ?_
          refine (node_value_refines hD hr h right).bind fun a' b' hab' => ?_
          exact .ofOption fun t ht => ⟨t, hD.test op a a' b b' t hab hab' ht, rfl⟩
      | _ => exact (kind_value_refines hD hr h _).bind fun a b hab => hD.truth a b hab

theorem behind_refines {x : Answer (After V)} {y : Answer (After W)} {f : Vars V → Answer (After V)}
    {g : Vars W → Answer (After W)} (h : x.Refines (After.Under R) y)
    (hk : ∀ ρ ρ', ρ.Under R ρ' → (f ρ).Refines (After.Under R) (g ρ')) :
    (behind x f).Refines (After.Under R) (behind y g) := by
  refine h.bind fun a b hab => ?_
  cases a with
  | next ρ =>
      cases b with
      | next ρ' => exact hk ρ ρ' hab
      | left w => exact hab.elim
  | left v =>
      cases b with
      | next ρ' => exact hab.elim
      | left w => exact hab

mutual

theorem node_runs_refines (hD : D.Under R E) (hr : r.Under R r') : ∀ (s : Node) {ρ : Vars V} {ρ' : Vars W},
    ρ.Under R ρ' → (node_runs D r ρ s).Refines (After.Under R) (node_runs E r' ρ' s)
  | .null, _, _, h => h
  | .mk _ k _ _, _, _, h => kind_runs_refines hD hr k h

theorem block_runs_refines (hD : D.Under R E) (hr : r.Under R r') : ∀ (s : Node) {ρ : Vars V} {ρ' : Vars W},
    ρ.Under R ρ' → (block_runs D r ρ s).Refines (After.Under R) (block_runs E r' ρ' s)
  | .null, _, _, h => h
  | .mk _ k _ nx, _, _, h => by
      cases k with
      | var dt offset value =>
          simp only [block_runs]
          split
          · refine (node_value_refines hD hr h value).bind fun v w hv => ?_
            exact (h.set hD offset hv).bind fun ρ₁ ρ₂ h' => block_runs_refines hD hr nx h'
          · exact block_runs_refines hD hr nx (h.put offset nofun)
      | _ =>
          simp only [block_runs]
          exact behind_refines (kind_runs_refines hD hr _ h) fun ρ₁ ρ₂ h' => block_runs_refines hD hr nx h'

theorem kind_runs_refines (hD : D.Under R E) (hr : r.Under R r') : ∀ (k : Kind) {ρ : Vars V} {ρ' : Vars W},
    ρ.Under R ρ' → (kind_runs D r ρ k).Refines (After.Under R) (kind_runs E r' ρ' k)
  | .block body, _, _, h => block_runs_refines hD hr body h
  | .if_ cond then_stmt else_stmt, _, _, h => by
      simp only [kind_runs]
      refine (cond_truth_refines hD hr h cond).bind fun a b hab => ?_
      subst hab
      split
      · exact node_runs_refines hD hr then_stmt h
      · exact node_runs_refines hD hr else_stmt h
  | .while_ cond then_stmt isfor, _, _, h => by
      simp only [kind_runs]
      refine (cond_truth_refines hD hr h cond).bind fun a b hab => ?_
      subst hab
      split
      · exact behind_refines (node_runs_refines hD hr then_stmt h) fun ρ₁ ρ₂ h' => hr.again _ ρ₁ ρ₂ h'
      · exact h
  | .assign offset op left right, _, _, h => by
      simp only [kind_runs]
      refine (node_value_refines hD hr h right).bind fun v w hv => ?_
      cases left with
      | null => trivial
      | mk t k ix nx =>
          cases k with
          | var dt off value => exact (h.set hD _ hv).bind fun ρ₁ ρ₂ h' => h'
          | _ => trivial
  | .return_ value, _, _, h => by
      simp only [kind_runs]
      split
      · exact (node_value_refines hD hr h value).bind fun v w hv => ⟨w, rfl, hv⟩
      · exact rfl
  | .call name args t, _, _, h => by
      simp only [kind_runs]
      split
      · refine (args_values_refines hD hr h args).bind fun us ws hus => ?_
        exact (hr.call name us ws hus).bind fun _ _ _ => h
      · trivial
  | .int v, _, _, h => (kind_value_refines hD hr h (.int v)).bind fun _ _ _ => h
  | .var dt offset value, _, _, h => (kind_value_refines hD hr h (.var dt offset value)).bind fun _ _ _ => h
  | .bin op left right, _, _, h => (kind_value_refines hD hr h (.bin op left right)).bind fun _ _ _ => h
  | .func .., _, _, _ | .elem _, _, _, _ | .str _, _, _, _ | .gvar .., _, _, _ | .pointer .., _, _, _
  | .addr _, _, _, _ | .break_, _, _, _ | .continue_, _, _, _ | .arr_access _, _, _, _
  | .mem_access .., _, _, _ | .preinc _, _, _, _ | .predec _, _, _, _ | .postinc _, _, _, _
  | .postdec _, _, _, _ => trivial

end

theorem call_means_refines (hD : D.Under R E) (hr : r.Under R r') (gt : List Node) (f : Name)
    {us : List V} {ws : List W} (h : List.Forall₂ R us ws) :
    (call_means D r gt f us).Refines (Stood R) (call_means E r' gt f ws) := by
  unfold call_means
  rw [← h.length_eq]
  cases definition gt f with
  | none => trivial
  | some d =>
      dsimp only
      split
      · refine (node_runs_refines hD hr d.body (Vars.entered_under _ h)).bind fun a b hab => ?_
        cases a with
        | next ρ₁ =>
            cases b with
            | next ρ₂ => exact rfl
            | left w => exact hab.elim
        | left v =>
            cases b with
            | next ρ₂ => exact hab.elim
            | left w => exact hab
      · trivial

/-- Whatever fuel there is, the two meanings go together. -/
theorem meaning_refines (hD : D.Under R E) (gt : List Node) : ∀ n,
    (meaning D gt n).Under R (meaning E gt n) := by
  intro n
  induction n with
  | zero => exact ⟨fun _ _ _ _ => trivial, fun _ _ _ _ => trivial⟩
  | succ n ih =>
      exact ⟨fun f us ws h => call_means_refines hD ih gt f h,
        fun k ρ ρ' h => kind_runs_refines hD ih k h⟩

end

/-! ### C's values as words -/

/-- The word stands for an `int`. -/
def Word (a : Int) (u : BitVec 64) : Prop := u.toInt = a ∧ isInt a = true

theorem isInt_iff {a : Int} : isInt a = true ↔ -2 ^ 31 ≤ a ∧ a < 2 ^ 31 := decide_eq_true_iff

/-- An operator with instructions. -/
theorem binWord_word {op a b z : Int} {u w : BitVec 64} (hu : Word a u) (hw : Word b w)
    (hz : cValues.bin op a b = some z) : ∃ r, binWord op u w = some r ∧ Word z r := by
  obtain ⟨rfl, ha⟩ := hu
  obtain ⟨rfl, hb⟩ := hw
  rw [isInt_iff] at ha hb
  simp only [cValues] at hz
  split at hz
  case isFalse => cases hz
  case isTrue hop =>
    obtain ⟨hval, hfits⟩ := Option.filter_eq_some_iff.mp hz
    have hrange := isInt_iff.mp hfits
    rcases hop with rfl | rfl | rfl | rfl
    · obtain rfl : u.toInt + w.toInt = z := Option.some.inj hval
      refine ⟨u + w, rfl, ?_, hfits⟩
      rw [BitVec.toInt_add]
      exact Int.bmod_eq_of_le (by omega) (by omega)
    · obtain rfl : u.toInt - w.toInt = z := Option.some.inj hval
      refine ⟨u - w, rfl, ?_, hfits⟩
      rw [BitVec.toInt_sub]
      exact Int.bmod_eq_of_le (by omega) (by omega)
    · obtain rfl : u.toInt * w.toInt = z := Option.some.inj hval
      refine ⟨u * w, rfl, ?_, hfits⟩
      rw [BitVec.toInt_mul]
      exact Int.bmod_eq_of_le (by omega) (by omega)
    · have hsome : (if w.toInt = 0 then none else some (u.toInt.tdiv w.toInt)) = some z := hval
      split at hsome
      case isTrue => cases hsome
      case isFalse h0 =>
        have hquot := Option.some.inj hsome
        refine ⟨BitVec.ofInt 64 z, ?_, ?_, hfits⟩
        · show quotient u w = _
          unfold quotient
          rw [if_neg (by omega), hquot]
        · rw [BitVec.toInt_ofInt]
          exact Int.bmod_eq_of_le (by omega) (by omega)

/-- A number that is not negative survives in four bytes. -/
theorem keep_word {a : Int} {u : BitVec 64} (hu : Word a u) (ha : 0 ≤ a) :
    Word a ((low u).setWidth 64) := by
  obtain ⟨rfl, hint⟩ := hu
  have hrange := isInt_iff.mp hint
  have hnat : u.toInt = u.toNat := by
    rw [BitVec.toInt_eq_toNat_cond] at ha ⊢
    split
    · rfl
    · rename_i h
      rw [if_neg h] at ha
      have := u.isLt
      omega
  refine ⟨?_, hint⟩
  congr 1
  rw [← BitVec.toNat_inj]
  unfold low
  rw [BitVec.toNat_setWidth, BitVec.toNat_setWidth]
  omega

/-- The code's words do what C's values do. -/
theorem cValues_under : cValues.Under Word wordValues where
  lit v a h := by
    have hfilter : (some v.toInt).filter isInt = some a := h
    obtain ⟨hv, hint⟩ := Option.filter_eq_some_iff.mp hfilter
    exact ⟨v, rfl, Option.some.inj hv, hint⟩
  bin _ _ _ _ _ _ ha ha' hz := binWord_word ha ha' hz
  test op a a' b b' t ha ha' ht := by
    obtain ⟨rfl, -⟩ := ha
    obtain ⟨rfl, -⟩ := ha'
    obtain ⟨k, hk, rfl⟩ := Option.map_eq_some_iff.mp ht
    simp only [wordValues, tested, hk]
  truth a b h := by
    obtain ⟨rfl, -⟩ := h
    have hzero : b = 0 ↔ b.toInt = 0 := by
      rw [← BitVec.toInt_inj]
      rfl
    simp only [cValues, wordValues, ne_eq, hzero]
  keep a u z h hz := by
    simp only [cValues] at hz
    split at hz
    · rename_i h0
      obtain rfl := Option.some.inj hz
      exact ⟨_, rfl, keep_word h h0⟩
    · cases hz

end Eke
