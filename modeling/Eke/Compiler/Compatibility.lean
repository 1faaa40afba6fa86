/-
The five contexts in which a value meets a type.

Each of them spells the rule out again.  An initializer and an element of an initializer list go
by the same rule.  An assignment allows other base types only without pointers; what is returned
and what is passed may never be a character's code, and a parameter has lost the levels of its
pointers.  `contexts_agree` names the pairs of types on which they all say the same.
-/
import Eke.Compiler.Sema
import Eke.Compiler.ParameterList
import Mathlib.Tactic.Tauto

namespace Eke

open Prog

namespace Sema

/-- Where a value of one type is used as one of another. -/
inductive Context
  | assignment
  | initializer
  | element
  | argument
  | return_

/-- The check of each context.  The node of a parameter has its type without the pointer level. -/
def Context.accepts : Context → Int → Int → Bool
  | assignment, expected, actual => assignMatches expected actual
  | initializer, expected, actual => isStringPtr expected actual ∨ baseMatches expected actual
  | element, expected, actual => types_are_compatible expected actual
  | argument, expected, actual => valueMatches (expected % 1000) actual
  | return_, expected, actual => valueMatches expected actual

/-! ### The checks in the code -/

section

variable (S : Parser) {c d d' : Node} {e a : Int} {t : Int} {ix next value left right : Node}

theorem assignment_judged {offset op : Int} (hleft : get_node_type S left c = .ok e d)
    (hright : get_node_type S right d = .ok a d') :
    sema_analyze S (.mk t (.assign offset op left right) ix next) c =
      (check (Context.assignment.accepts e a) >>= fun _ => pure a) d' := by
  rw [sema_analyze, sema_kind, bind_of_ok hleft, bind_of_ok hright]
  rfl

theorem initializer_judged {dt offset : Int} {r : Record} (hr : symbolOf S t c = .ok r d)
    (hsome : value.isSome) (hone : value.next = .null) (ha : sema_analyze S value d = .ok a d') :
    sema_analyze S (.mk t (.var dt offset value) ix next) c =
      (check (Context.initializer.accepts r.typeCode a) >>= fun _ => pure r.typeCode) d' := by
  rw [sema_analyze, sema_kind]
  refine (bind_of_ok hr).trans ?_
  have hnext : ¬ value.next.isSome = true := by
    rw [hone]
    nofun
  rw [if_neg hnext, if_pos hsome]
  exact bind_of_ok ha

theorem array_element_judged {my_type : Int} {expr : Node} {val : Nat}
    (ha : sema_analyze S expr c = .ok a d) :
    array_elements S my_type (.mk t (.elem expr) ix next) val c =
      (check (Context.element.accepts my_type a) >>= fun _ => array_elements S my_type next (val + 1)) d := by
  rw [array_elements, bind_of_ok ha]
  rfl

theorem struct_element_judged {se : Structentry} {expr : Node} {val : Nat} (hval : (val : Int) < se.count)
    (ha : sema_analyze S expr c = .ok a d) :
    struct_elements S se (.mk t (.elem expr) ix next) val c =
      (check (Context.element.accepts (se.memberCode val) a) >>= fun _ =>
        struct_elements S se next (val + 1)) d := by
  rw [struct_elements, if_neg (Int.not_le.mpr hval), bind_of_ok ha]
  rfl

/-- The parameter is of the type `dt`, with `lvl` levels of pointers. -/
theorem argument_judged {dt offset lvl : Int} (hdt : 0 ≤ dt ∧ dt < 1000) {v ix' next' k}
    (ha : sema_analyze S (.mk t k ix next) c = .ok a d) :
    call_args S (.mk t (.var dt offset v) ix' next') (.mk t k ix next) c =
      (check (Context.argument.accepts (dt + lvl * 1000) a) >>= fun _ => call_args S next' next) d := by
  have hbase : (dt + lvl * 1000) % 1000 = dt := by omega
  rw [sema_analyze] at ha
  rw [call_args, if_pos (show (Node.mk t (.var dt offset v) ix' next').isSome = true from rfl)]
  refine (bind_of_ok (a := dt) (t := c) rfl).trans ((bind_of_ok ha).trans ?_)
  rw [Context.accepts, hbase]
  rfl

/-- The symbol of a parameter has the pointer level that its node does not have. -/
theorem param_typed {r : Parser.Calls} {gt_index : Int} {n : Node} {s s' : Parser}
    (h : Parser.param r gt_index s = .ok n s') :
    ∃ t dt lvl i, n = .mk t (.var dt 0 .null) .null .null ∧ s'.sp = i + 1 ∧
      (s'.symtab i).typeCode = dt + lvl * 1000 := by
  obtain ⟨tok, s₁, -, h⟩ := bind_ok_iff.mp h
  obtain ⟨ty, s₂, -, h⟩ := bind_ok_iff.mp h
  obtain ⟨lvl, s₃, -, h⟩ := bind_ok_iff.mp h
  obtain ⟨a_tok, s₄, -, h⟩ := bind_ok_iff.mp h
  obtain ⟨bp, _, hb, h⟩ := bind_ok_iff.mp h
  cases hb
  obtain ⟨_, s₅, h₅, h⟩ := bind_ok_iff.mp h
  obtain ⟨sp, _, hsp, h₅⟩ := bind_ok_iff.mp h₅
  cases hsp
  split at h₅
  case isFalse => cases h₅
  cases h₅
  obtain ⟨id, _, hid, h⟩ := bind_ok_iff.mp h
  obtain ⟨hfound, rfl⟩ := Out.ok.inj hid
  have hlast : id = s₄.sp := by
    rw [← hfound]
    show Parser.symbolBelow _ a_tok.name (s₄.sp + 1) = s₄.sp
    simp [Parser.symbolBelow, Parser.setSymbol]
  obtain ⟨_, s₆, h₆, h⟩ := bind_ok_iff.mp h
  obtain ⟨_, s₇, h₇, h⟩ := bind_ok_iff.mp h
  obtain ⟨-, rfl⟩ := Out.ok.inj h₇
  cases h
  rw [hlast] at h₆
  obtain ⟨-, rfl⟩ := Out.ok.inj (show Out.ok () _ = Out.ok () s₆ by simpa [Parser.modifySymbol, update] using h₆)
  refine ⟨_, ty.1.type, lvl, s₄.sp, rfl, rfl, ?_⟩
  simp [Parser.setSymbol, Record.typeCode]

theorem return_judged (he : expectedReturn c = .ok e c) (hsome : value.isSome)
    (ha : sema_analyze S value c = .ok a d) :
    sema_analyze S (.mk t (.return_ value) ix next) c =
      (check (Context.return_.accepts e a) >>= fun _ => pure T_VOID) d := by
  rw [sema_analyze, sema_kind]
  refine (bind_of_ok he).trans ?_
  rw [if_pos hsome]
  exact bind_of_ok ha

end

/-! ### The five rules -/

/-- Types below the pointers that all checks take for the same. -/
def SameBase (expected actual : Int) : Prop :=
  expected = actual ∨ expected = K_INT ∧ actual = T_INT ∨ expected = T_INT ∧ actual = K_INT

/-- A character's code. -/
def IsCode (expected actual : Int) : Prop := expected = K_CHAR ∧ actual = T_INT

section

variable (expected actual : Int)

theorem element_iff : Context.element.accepts expected actual = true ↔
    isStringPtr expected actual = true ∨ expected / 1000 = actual / 1000 ∧
      (SameBase (expected % 1000) (actual % 1000) ∨ IsCode (expected % 1000) (actual % 1000)) := by
  simp only [Context.accepts, types_are_compatible, baseMatches, SameBase, IsCode, decide_eq_true_iff]
  constructor
  · rintro (rfl | h | h)
    · exact .inr ⟨rfl, .inl (.inl rfl)⟩
    · exact .inl h
    · tauto
  · tauto

theorem initializer_iff : Context.initializer.accepts expected actual = true ↔
    isStringPtr expected actual = true ∨ expected / 1000 = actual / 1000 ∧
      (SameBase (expected % 1000) (actual % 1000) ∨ IsCode (expected % 1000) (actual % 1000)) := by
  simp only [Context.accepts, baseMatches, SameBase, IsCode, decide_eq_true_iff]
  tauto

theorem assignment_iff : Context.assignment.accepts expected actual = true ↔
    isStringPtr expected actual = true ∨ SameBase expected actual ∨ IsCode expected actual := by
  simp only [Context.accepts, assignMatches, SameBase, IsCode, decide_eq_true_iff]
  tauto

theorem argument_iff : Context.argument.accepts expected actual = true ↔ SameBase (expected % 1000) actual := by
  simp only [Context.accepts, valueMatches, SameBase, decide_eq_true_iff]

theorem return_iff : Context.return_.accepts expected actual = true ↔ SameBase expected actual := by
  simp only [Context.accepts, valueMatches, SameBase, decide_eq_true_iff]

end

/-- All contexts say the same of a value and a type. -/
def ContextsAgree (expected actual : Int) : Prop :=
  ∀ x y : Context, x.accepts expected actual = y.accepts expected actual

/-- The value is no string for a pointer to characters and, behind the same pointers, no number
for a character; and if pointers are expected to a type that fits, then it has some, but not as
many. -/
structure Plain (expected actual : Int) : Prop where
  string : ¬ (expected = K_CHAR + 1000 ∧ actual = T_STRING)
  code : expected / 1000 = actual / 1000 → ¬ IsCode (expected % 1000) (actual % 1000)
  pointers : expected / 1000 ≠ 0 → SameBase (expected % 1000) (actual % 1000) →
    actual / 1000 ≠ 0 ∧ actual / 1000 ≠ expected / 1000

variable {expected actual : Int}

theorem SameBase.below (h : SameBase expected actual) (he : 0 ≤ expected ∧ expected < 1000) :
    actual / 1000 = 0 := by
  simp only [SameBase, K_INT, T_INT] at h
  omega

theorem SameBase.rest (h : SameBase expected actual) : SameBase (expected % 1000) (actual % 1000) := by
  simp only [SameBase, K_INT, T_INT] at h ⊢
  omega

theorem SameBase.level (h : SameBase expected actual) : expected / 1000 = actual / 1000 := by
  simp only [SameBase, K_INT, T_INT] at h
  omega

theorem isStringPtr_iff : isStringPtr expected actual = true ↔ expected = K_CHAR + 1000 ∧ actual = T_STRING :=
  decide_eq_true_iff

/-- A pair of such types is accepted where both have no pointers and the same base. -/
theorem accepts_plain (h : Plain expected actual) (x : Context) : x.accepts expected actual = true ↔
    expected / 1000 = 0 ∧ SameBase expected actual := by
  have hself : expected / 1000 = 0 → expected % 1000 = expected := by omega
  have hflat : SameBase expected actual → expected / 1000 = 0 := by
    intro hsame
    by_contra hne
    exact (h.pointers hne hsame.rest).2 hsame.level.symm
  have helement : isStringPtr expected actual = true ∨ expected / 1000 = actual / 1000 ∧
      (SameBase (expected % 1000) (actual % 1000) ∨ IsCode (expected % 1000) (actual % 1000)) ↔
      expected / 1000 = 0 ∧ SameBase expected actual := by
    constructor
    · rintro (hstr | ⟨hlevel, hsame | hcode⟩)
      · exact (h.string (isStringPtr_iff.mp hstr)).elim
      · have hzero : expected / 1000 = 0 := by
          by_contra hne
          exact (h.pointers hne hsame).2 hlevel.symm
        have hactual : actual % 1000 = actual := by omega
        rw [hself hzero, hactual] at hsame
        exact ⟨hzero, hsame⟩
      · exact (h.code hlevel hcode).elim
    · rintro ⟨hzero, hsame⟩
      exact .inr ⟨hsame.level, .inl hsame.rest⟩
  cases x with
  | assignment =>
      rw [assignment_iff]
      constructor
      · rintro (hstr | hsame | ⟨rfl, rfl⟩)
        · exact (h.string (isStringPtr_iff.mp hstr)).elim
        · exact ⟨hflat hsame, hsame⟩
        · exact (h.code (by decide) ⟨by decide, by decide⟩).elim
      · exact fun hsmall => .inr (.inl hsmall.2)
  | initializer => rw [initializer_iff, helement]
  | element => rw [element_iff, helement]
  | argument =>
      rw [argument_iff]
      constructor
      · intro hsame
        have hactual : actual / 1000 = 0 := hsame.below (by omega)
        have hzero : expected / 1000 = 0 := by
          by_contra hne
          refine (h.pointers hne ?_).1 hactual
          have hrest := hsame.rest
          rwa [Int.emod_emod_of_dvd expected (dvd_refl 1000)] at hrest
        rw [hself hzero] at hsame
        exact ⟨hzero, hsame⟩
      · rintro ⟨hzero, hsame⟩
        rwa [hself hzero]
  | return_ =>
      rw [return_iff]
      exact ⟨fun hsame => ⟨hflat hsame, hsame⟩, And.right⟩

theorem contexts_agree (expected actual : Int) : ContextsAgree expected actual ↔ Plain expected actual := by
  constructor
  · intro hagree
    -- an argument is checked in the strictest way, an element of a list in the mildest one
    have hstrict : isStringPtr expected actual = true ∨ expected / 1000 = actual / 1000 ∧
        (SameBase (expected % 1000) (actual % 1000) ∨ IsCode (expected % 1000) (actual % 1000)) ↔
        SameBase (expected % 1000) actual := by
      rw [← element_iff, ← argument_iff, hagree .element .argument]
    refine ⟨fun hstr => ?_, fun hlevel hcode => ?_, fun hne hsame => ?_⟩
    · have hsame := hstrict.mp (.inl (isStringPtr_iff.mpr hstr))
      obtain ⟨rfl, rfl⟩ := hstr
      revert hsame
      unfold SameBase
      decide
    · have hsame := hstrict.mp (.inr ⟨hlevel, .inr hcode⟩)
      simp only [SameBase, IsCode, K_CHAR, K_INT, T_INT] at hsame hcode
      omega
    · refine ⟨fun hzero => ?_, fun hlevel => ?_⟩
      · have hactual : actual % 1000 = actual := by omega
        rw [hactual] at hsame
        rcases hstrict.mpr hsame with hstr | ⟨hlevel, -⟩
        · obtain ⟨rfl, rfl⟩ := isStringPtr_iff.mp hstr
          revert hsame
          unfold SameBase
          decide
        · exact hne (hlevel.trans hzero)
      · have hzero := (hstrict.mp (.inr ⟨hlevel.symm, .inl hsame⟩)).below (by omega)
        exact hne (hlevel.symm.trans hzero)
  · intro hplain x y
    rw [Bool.eq_iff_iff, accepts_plain hplain x, accepts_plain hplain y]

/-- A pointer to numbers is no argument for a parameter of its own type, and a number goes into an
array of characters but not to a parameter. -/
theorem contexts_differ : ¬ (∀ expected actual, ContextsAgree expected actual) ∧
    Context.argument.accepts (K_INT + 1000) (K_INT + 1000) = false ∧
      Context.element.accepts (K_INT + 1000) (K_INT + 1000) = true ∧
        Context.argument.accepts K_CHAR T_INT = false ∧ Context.element.accepts K_CHAR T_INT = true := by
  refine ⟨fun h => ?_, by decide, by decide, by decide, by decide⟩
  have hsame := h K_CHAR T_INT .argument .element
  revert hsame
  decide

end Sema

end Eke
