/-
More fuel for the parser.

The fuel only bounds how long the parser is watched: a parse that comes to an end with some
fuel comes to the same end with more.
-/
import Eke.Compiler.Parser
import Eke.Lib.Fuel

namespace Eke

namespace Parser

open Prog

/-- The functions the parser calls itself by, with less fuel and with more. -/
structure CallsUnder (r r' : Calls) : Prop where
  fuel : r.fuel ≤ r'.fuel
  expression : ∀ p, Under (r.parse_expression p) (r'.parse_expression p)
  statement : Under r.parse_statement r'.parse_statement

variable {r r' : Calls} (h : CallsUnder r r')

include h

/-! ### Expressions -/

theorem callArgs_under : Under (callArgs r) (callArgs r') := by
  refine under_cycle (fun args => under_then fun b => ?_) h.fuel _
  split
  · exact .refl _
  · exact under_first (h.expression 0)

theorem led_under (left : Node) : Under (led r left) (led r' left) := by
  apply under_then
  intro op
  split
  · exact under_then fun name => under_first (callArgs_under h)
  split
  · exact .refl _
  split
  · exact .refl _
  split
  · exact .refl _
  · exact under_first (h.expression _)

theorem indexes_under : Under (indexes r) (indexes r') := by
  refine under_cycle (fun es => under_then fun b => ?_) h.fuel _
  split
  · exact under_then fun _ => under_first (h.expression 0)
  · exact .refl _

theorem identifier_under (t : Token) : Under (identifier r t) (identifier r' t) := by
  refine under_then fun id => under_then fun kind => under_then fun token_id => under_then fun _ => ?_
  exact under_first (indexes_under h)

theorem nud_under : Under (nud r) (nud r') := by
  refine under_then fun t => ?_
  refine under_ite (under_then fun _ => under_then fun _ => under_first (h.expression 90)) ?_
  refine under_ite (under_then fun _ => under_first (h.expression 90)) ?_
  refine under_ite (under_then fun _ => under_then fun _ => under_first (h.expression 70)) ?_
  refine under_ite (under_then fun _ => under_then fun _ => under_first (h.expression 90)) ?_
  refine under_ite (.refl _) ?_
  refine under_ite (under_then fun _ => under_first (h.expression 0)) ?_
  refine under_ite (.refl _) ?_
  exact under_ite (identifier_under h t) (.refl _)

theorem parse_expression_under (p : Int) : Under (parse_expression r p) (parse_expression r' p) := by
  refine under_bind (nud_under h) fun left => under_cycle (fun left => under_then fun t => ?_) h.fuel _
  split
  · exact under_first (led_under h left)
  · exact .refl _

/-! ### Declarations -/

theorem elements_under : Under (elements r) (elements r') := by
  refine under_cycle (fun es => under_then fun b => ?_) h.fuel _
  split
  · exact .refl _
  · exact under_first (h.expression 0)

theorem initializer_under (id te : Int) : Under (initializer r id te) (initializer r' id te) := by
  apply under_then
  intro t
  split
  · refine under_then fun _ => under_then fun b => ?_
    split
    · exact under_then fun _ => under_first (elements_under h)
    · exact under_first (h.expression 0)
  · exact .refl _

theorem localBounds_under (id : Int) : Under (localBounds r id) (localBounds r' id) :=
  under_cycle (fun _ => .refl _) h.fuel _

theorem globalBounds_under (id : Int) : Under (globalBounds r id) (globalBounds r' id) :=
  under_cycle (fun _ => .refl _) h.fuel _

theorem stars_under : Under (stars r) (stars r') := under_cycle (fun _ => .refl _) h.fuel _

theorem declarator_under (base_type struct_id base_size curroffset : Int) :
    Under (declarator r base_type struct_id base_size curroffset)
      (declarator r' base_type struct_id base_size curroffset) := by
  refine under_bind (stars_under h) fun count => under_then fun d_tok => under_then fun tid =>
    under_then fun bp => under_then fun n => under_then fun _ => under_then fun id => ?_
  refine under_bind (localBounds_under h id) fun b => ?_
  exact under_first (initializer_under h id b.2)

theorem parse_declaration_under : Under (parse_declaration r) (parse_declaration r') := by
  refine under_then fun t => under_then fun b => ?_
  split
  · refine under_then fun rt => under_then fun ty => under_first (under_cycle (fun d => ?_) h.fuel _)
    exact under_first (declarator_under h _ _ _ _)
  · exact .refl _

theorem globalDeclarator_under (base_type dt struct_id base_size : Int) :
    Under (globalDeclarator r base_type dt struct_id base_size)
      (globalDeclarator r' base_type dt struct_id base_size) := by
  refine under_bind (stars_under h) fun count => under_then fun d_tok => under_then fun tid =>
    under_then fun gbr => under_then fun n => under_then fun _ => under_then fun id => ?_
  refine under_bind (globalBounds_under h id) fun b => ?_
  exact under_first (initializer_under h id b.2)

theorem parse_global_declaration_under :
    Under (parse_global_declaration r) (parse_global_declaration r') := by
  refine under_then fun t => under_then fun b => ?_
  split
  · refine under_then fun t => under_then fun ty => under_first (under_cycle (fun d => ?_) h.fuel _)
    exact under_first (globalDeclarator_under h _ _ _ _)
  · exact .refl _

/-! ### Statements -/

theorem parse_block_under : Under (parse_block r) (parse_block r') := by
  refine under_then fun _ => under_first (under_cycle (fun head => under_then fun b => ?_) h.fuel _)
  split
  · exact .refl _
  · exact under_first h.statement

theorem parse_return_under : Under (parse_return r) (parse_return r') := by
  refine under_then fun _ => under_then fun void => under_first ?_
  split
  · exact .refl _
  · exact h.expression 0

theorem parse_if_stmt_under : Under (parse_if_stmt r) (parse_if_stmt r') := by
  refine under_then fun _ => under_then fun _ => under_then fun _ =>
    under_bind (h.expression 0) fun cond => under_then fun _ => under_bind h.statement fun then_stmt => ?_
  refine under_then fun more => under_first ?_
  split
  · exact under_then fun _ => h.statement
  · exact .refl _

theorem parse_while_under : Under (parse_while r) (parse_while r') := by
  refine under_then fun _ => under_then fun _ => under_then fun _ => ?_
  refine under_bind (h.expression 0) fun cond => ?_
  exact under_then fun _ => under_first h.statement

theorem assignment_under (left : Node) (token_id : Int) :
    Under (assignment r left token_id) (assignment r' left token_id) := by
  refine under_then fun _ => under_then fun name => under_then fun id => under_then fun offset => ?_
  exact under_first (h.expression 0)

theorem parse_for_under : Under (parse_for r) (parse_for r') := by
  refine under_then fun _ => under_then fun _ => under_then fun _ => under_bind h.statement fun init => ?_
  refine under_bind (h.expression 0) fun cond => under_then fun _ => ?_
  refine under_bind (h.expression 0) fun left => under_then fun t => under_bind ?_ fun post_expr => ?_
  · split
    · exact assignment_under h left _
    · exact .refl _
  · exact under_then fun _ => under_first h.statement

theorem parse_statement_under : Under (parse_statement r) (parse_statement r') := by
  refine under_then fun tok => under_then fun b => ?_
  refine under_ite (parse_declaration_under h) ?_
  refine under_ite (parse_block_under h) ?_
  refine under_ite (parse_if_stmt_under h) ?_
  refine under_ite (parse_while_under h) ?_
  refine under_ite (.refl _) ?_
  refine under_ite (.refl _) ?_
  refine under_ite (parse_for_under h) ?_
  refine under_ite (parse_return_under h) ?_
  refine under_bind (h.expression 0) fun left => under_then fun t => ?_
  exact under_ite (under_first (assignment_under h left _)) (.refl _)

omit h in
theorem calls_under : ∀ {n m : Nat}, n ≤ m → CallsUnder (calls n) (calls m) := by
  intro n
  induction n with
  | zero =>
      intro m _
      exact ⟨Nat.zero_le _, fun p => under_more _, under_more _⟩
  | succ n ih =>
      intro m hm
      obtain ⟨m, rfl⟩ : ∃ i, m = i + 1 := ⟨m - 1, by omega⟩
      have hcalls := ih (Nat.le_of_succ_le_succ hm)
      exact ⟨hm, parse_expression_under hcalls, parse_statement_under hcalls⟩

/-! ### Functions and structs -/

theorem param_under (gt_index : Int) : Under (param r gt_index) (param r' gt_index) :=
  under_then fun _ => under_then fun _ => under_first (stars_under h)

theorem params_under (gt_index : Int) : Under (params r gt_index) (params r' gt_index) := by
  refine under_cycle (fun d => under_then fun b => ?_) h.fuel _
  split
  · exact .refl _
  · refine under_then fun t => under_then fun typed => under_first ?_
    split
    · exact under_first (param_under h gt_index)
    · exact .refl _

theorem parse_function_under : Under (parse_function r) (parse_function r') := by
  refine under_then fun t => under_then fun b => ?_
  split
  · refine under_then fun rt => under_then fun f_tok => under_then fun gt => under_then fun _ =>
      under_then fun _ => under_then fun _ => under_bind (params_under h gt) fun d => ?_
    refine under_then fun _ => under_then fun b => ?_
    split
    · exact .refl _
    · exact under_then fun _ => under_first (parse_block_under h)
  · exact .refl _

theorem memberBounds_under (e_size : Int) : Under (memberBounds r e_size) (memberBounds r' e_size) := by
  refine under_cycle (fun e_size => under_then fun b => ?_) h.fuel _
  split
  · exact under_then fun _ => under_first (under_cycle (fun _ => .refl _) h.fuel _)
  · exact .refl _

theorem structMember_under (memcount : Nat) (curroff : Int) :
    Under (structMember r memcount curroff) (structMember r' memcount curroff) := by
  refine under_then fun type_tok => under_then fun struct_name => under_bind (stars_under h) fun isptr => ?_
  refine under_then fun _ => under_then fun e_size => under_then fun e_name => under_then fun _ => ?_
  exact under_first (memberBounds_under h e_size)

theorem parse_struct_def_under : Under (parse_struct_def r) (parse_struct_def r') := by
  refine under_then fun _ => under_then fun _ => under_then fun _ => under_then fun _ => under_first ?_
  refine under_cycle (fun d => under_then fun b => ?_) h.fuel _
  split
  · exact .refl _
  · exact under_first (structMember_under h d.1 d.2)

theorem parse_typedef_under : Under (parse_typedef r) (parse_typedef r') := by
  refine under_then fun _ => under_then fun t => ?_
  split
  · exact under_first (parse_struct_def_under h)
  · exact .refl _

/-! ### The text -/

theorem topLevel_under : Under (topLevel r) (topLevel r') := by
  refine under_then fun tok => under_then fun ahead => ?_
  split
  · exact .refl _
  split
  · exact under_first (parse_struct_def_under h)
  split
  · exact under_first (parse_typedef_under h)
  apply under_then
  intro b
  split
  · refine under_first ?_
    split
    · exact parse_function_under h
    · exact parse_global_declaration_under h
  · exact .refl _

omit h in
/-- A parse that comes to an end comes to the same end with more fuel. -/
theorem parse_under {n m : Nat} (hnm : n ≤ m) (tokens : List Token) (s : Parser) :
    (∃ t, parse n tokens s = .more t) ∨ parse n tokens s = parse m tokens s := by
  have hcalls := calls_under hnm
  have htext : Under (topLevels (calls n)) (topLevels (calls m)) :=
    under_cycle (fun _ => under_first (topLevel_under hcalls)) hcalls.fuel _
  exact htext (initParser (initParser (newText tokens s)))

end Parser

end Eke
