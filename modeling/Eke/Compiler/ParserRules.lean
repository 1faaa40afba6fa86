/-
What holds of every function of the parser if it holds of the steps.

A property with `Reading` holds of the expressions and of the struct definitions, and with a
proof for the declarations of the statements as well; one with `Entering` holds of the
declarations and the functions, and one with `Declaring` of everything.
-/
import Eke.Compiler.Parser

namespace Eke

namespace Parser

open Prog

/-- A property of the steps that read tokens and symbols. -/
structure Looking (Q : (α : Type) → P α → Prop) : Prop extends Rules Q where
  peek : Q _ peek
  match_ : ∀ t, Q _ (match_ t)
  forward : Q _ (update fun s => { s with tp1 := s.tp1 + 1 })
  tokenName : ∀ i, Q _ (tokenName i)
  thisToken : Q _ thisToken
  lastToken : Q _ lastToken
  find_symbol : ∀ name, Q _ (find_symbol name)
  kind : ∀ id, Q _ (symbol useKind id)
  offset : ∀ id, Q _ (symbol Record.offset id)
  struct_id : ∀ id, Q _ (oldSymbol Record.ownStruct Record.struct_id id)
  leaning : ∀ {α : Type} (f : Parser → α), Q α (leaning f)

/-- A property of these steps and of those that build structs. -/
structure Reading (Q : (α : Type) → P α → Prop) : Prop extends Looking Q where
  modifyStruct : ∀ f, Q _ (modifyStruct f)
  grow : Q _ (update fun s => { s with st_count := s.st_count + 1 })

/-- A property that follows from another one, with rules of its own. -/
theorem Looking.mono {Q R : (α : Type) → P α → Prop} (H : Looking Q) (hR : Rules R)
    (h : ∀ {α : Type} {x : P α}, Q α x → R α x) : Looking R where
  toRules := hR
  peek := h H.peek
  match_ t := h (H.match_ t)
  forward := h H.forward
  tokenName i := h (H.tokenName i)
  thisToken := h H.thisToken
  lastToken := h H.lastToken
  find_symbol name := h (H.find_symbol name)
  kind id := h (H.kind id)
  offset id := h (H.offset id)
  struct_id id := h (H.struct_id id)
  leaning f := h (H.leaning f)

theorem Reading.mono {Q R : (α : Type) → P α → Prop} (H : Reading Q) (hR : Rules R)
    (h : ∀ {α : Type} {x : P α}, Q α x → R α x) : Reading R where
  toLooking := H.toLooking.mono hR h
  modifyStruct f := h (H.modifyStruct f)
  grow := h H.grow

/-- The property of the functions the parser calls itself by. -/
structure CallsHave (Q : (α : Type) → P α → Prop) (r : Calls) : Prop where
  expression : ∀ p, Q _ (r.parse_expression p)
  statement : Q _ r.parse_statement

variable {Q : (α : Type) → P α → Prop} (H : Looking Q) {r : Calls}

include H

/-! ### Tokens and structs -/

theorem advance_rule : Q _ advance := by
  refine H.bind H.peek fun t => ?_
  split
  · exact H.bind H.forward fun _ => H.pure t
  · exact H.undefined

theorem consume_rule (t : Int) : Q _ (consume t) := by
  refine H.bind (H.match_ t) fun b => ?_
  split
  · exact H.bind H.peek fun tok => H.bind H.forward fun _ => H.pure tok
  · exact H.exit 1

theorem skip_rule (t : Int) : Q _ (skip t) := by
  refine H.bind (H.match_ t) fun b => ?_
  split
  · exact H.bind (consume_rule H t) fun _ => H.pure _
  · exact H.pure _

theorem find_struct_rule (name : Name) : Q _ (find_struct name) := by
  refine H.bind (H.leaning _) fun found => ?_
  cases found with
  | none => exact H.undefined
  | some id => exact H.pure id

theorem structEntry_rule (id : Int) : Q _ (structEntry id) := by
  refine H.bind (H.leaning _) fun e => ?_
  cases e with
  | none => exact H.undefined
  | some e => exact H.pure e

theorem is_type_rule (t : Int) : Q _ (is_type t) := by
  unfold is_type
  split
  · exact H.pure _
  split
  · exact H.bind H.peek fun p => H.bind (find_struct_rule H _) fun id => H.pure _
  · exact H.pure _

theorem stars_rule : Q _ (stars r) := by
  refine H.cycle (fun count => ?_) _ _
  refine H.bind (H.match_ _) fun m => ?_
  split
  · exact H.bind (consume_rule H _) fun _ => H.pure _
  · exact H.pure _

theorem typeStruct_rule (t : Token) : Q _ (typeStruct t) := by
  unfold typeStruct
  split
  · refine H.bind ?_ fun rt => H.bind (find_struct_rule H _) fun id => ?_
    · split
      · exact consume_rule H _
      · exact H.pure t
    split
    · exact H.exit 1
    · exact H.bind (structEntry_rule H id) fun e => H.pure _
  · exact H.pure _

theorem more_declarators_rule : Q _ more_declarators := by
  refine H.bind (H.match_ _) fun m => ?_
  split
  · exact H.bind (consume_rule H _) fun _ => H.pure _
  · refine H.bind H.peek fun t => ?_
    split
    · exact H.pure _
    · exact H.exit 1

theorem paramStruct_rule (t : Token) : Q _ (paramStruct t) := by
  unfold paramStruct
  split
  · refine H.bind ?_ fun rt => H.bind (find_struct_rule H _) fun id => ?_
    · split
      · exact consume_rule H _
      · exact H.pure t
    split
    · exact H.exit 1
    · exact H.pure _
  · exact H.pure _

theorem memberBounds_rule (e_size : Int) : Q _ (memberBounds r e_size) := by
  refine H.cycle (fun e_size => ?_) _ _
  refine H.bind (H.match_ _) fun m => ?_
  split
  · refine H.bind (consume_rule H _) fun _ => H.bind (H.cycle (fun z => ?_) _ _) fun z =>
      H.bind (consume_rule H _) fun _ => H.pure _
    refine H.bind (H.match_ _) fun m => ?_
    split
    · exact H.pure _
    · exact H.bind (consume_rule H _) fun t => H.pure _
  · exact H.pure _

theorem memberSize_rule (t : Token) (isptr : Int) (name : Name) : Q _ (memberSize t isptr name) := by
  unfold memberSize
  split
  · exact H.pure _
  split
  · refine H.bind (find_struct_rule H _) fun id => ?_
    split
    · exact H.exit 1
    · exact H.bind (structEntry_rule H id) fun e => H.pure _
  · exact H.pure _

/-! ### Struct definitions -/

section

omit H

/-- A struct definition, behind the new entry of the table. -/
def structBody (r : Calls) : P Unit := do
  let _ ← consume K_STRUCT
  structName
  let _ ← consume '{'.toNat
  let (memcount, curroff) ← cycle r.fuel (fun d : Nat × Int => do
    if ← match_ '}'.toNat then pure (.inr d) else do
      let curroff ← structMember r d.1 d.2
      pure (.inl (d.1 + 1, curroff))) (0, 0)
  let _ ← consume '}'.toNat
  modifyStruct fun e => { e with size := curroff, count := memcount }

variable (B : Reading Q)

include B

theorem newStruct_rule : Q _ newStruct := by
  refine B.bind (B.leaning _) fun n => ?_
  split
  · exact B.grow
  · exact B.undefined

theorem memberType_rule (memcount : Nat) : Q _ (memberType memcount) := by
  refine B.bind (advance_rule B.toLooking) fun t => ?_
  split
  · exact B.bind (B.modifyStruct _) fun _ => B.pure t
  · exact B.undefined

theorem structMember_rule (memcount : Nat) (curroff : Int) :
    Q _ (structMember r memcount curroff) := by
  have H := B.toLooking
  refine H.bind (memberType_rule B memcount) fun t => H.bind ?_ fun name =>
    H.bind (stars_rule H) fun isptr => H.bind (B.modifyStruct _) fun _ =>
      H.bind (memberSize_rule H t isptr name) fun e_size => H.bind (consume_rule H _) fun e_name =>
        H.bind (B.modifyStruct _) fun _ => H.bind (memberBounds_rule H e_size) fun e_size =>
          H.bind (consume_rule H _) fun _ => H.pure _
  split
  · exact H.bind (consume_rule H _) fun tname => H.bind (B.modifyStruct _) fun _ => H.pure _
  · exact H.pure _

theorem structName_rule : Q _ structName := by
  refine B.bind (B.match_ _) fun m => ?_
  split
  · exact B.bind (consume_rule B.toLooking _) fun name => B.modifyStruct _
  · exact B.modifyStruct _

theorem structBody_rule : Q _ (structBody r) := by
  have H := B.toLooking
  refine H.bind (consume_rule H _) fun _ =>
    H.bind (structName_rule B) fun _ => H.bind (consume_rule H _) fun _ =>
      H.bind (H.cycle (fun d => ?_) _ _) fun d => H.bind (consume_rule H _) fun _ =>
        B.modifyStruct _
  refine H.bind (H.match_ _) fun m => ?_
  split
  · exact H.pure _
  · exact H.bind (structMember_rule B d.1 d.2) fun curroff => H.pure _

theorem parse_struct_def_rule : Q _ (parse_struct_def r) :=
  B.bind (newStruct_rule B) fun _ => structBody_rule B

theorem parse_typedef_rule : Q _ (parse_typedef r) := by
  have H := B.toLooking
  refine H.bind (consume_rule H _) fun _ => H.bind H.peek fun t => ?_
  split
  · refine H.bind (parse_struct_def_rule B) fun _ => H.bind (consume_rule H _) fun a_tok =>
      H.bind (consume_rule H _) fun _ => H.bind (H.leaning _) fun e => H.bind ?_ fun _ =>
        B.modifyStruct _
    split
    · exact H.pure _
    · exact newStruct_rule B
  · exact H.exit 1

end

/-! ### Expressions -/

variable (hr : CallsHave Q r)

include hr

theorem callArgs_rule : Q _ (callArgs r) := by
  refine H.cycle (fun args => ?_) _ _
  refine H.bind (H.match_ _) fun b => ?_
  split
  · exact H.pure _
  · exact H.bind (hr.expression 0) fun a => H.bind (skip_rule H _) fun _ => H.pure _

omit hr in
theorem structOf_rule (left : Node) : Q _ (structOf left) := by
  have hsym : Q _ (do
      let varname ← tokenName left.token_id
      let symidx ← find_symbol varname
      if symidx = -1 then pure (-1) else oldSymbol Record.ownStruct Record.struct_id symidx) := by
    refine H.bind (H.tokenName _) fun varname => H.bind (H.find_symbol _) fun id => ?_
    split
    · exact H.pure _
    · exact H.struct_id id
  unfold structOf
  split
  · exact hsym
  · exact hsym
  · exact H.pure _
  · exact H.pure _

theorem led_rule (left : Node) : Q _ (led r left) := by
  refine H.bind (advance_rule H) fun op => ?_
  split
  · exact H.bind (H.tokenName _) fun name => H.bind (callArgs_rule H hr) fun args =>
      H.bind (consume_rule H _) fun _ => H.pure _
  split
  · refine H.bind (consume_rule H _) fun memtok => H.bind (structOf_rule H left) fun id => ?_
    split
    · exact H.exit 1
    refine H.bind (structEntry_rule H id) fun e => ?_
    split
    · exact H.undefined
    split
    · exact H.bind (find_struct_rule H _) fun _ => H.pure _
    · exact H.pure _
  split
  · exact H.pure _
  split
  · exact H.pure _
  · exact H.bind (hr.expression _) fun right => H.pure _

theorem indexes_rule : Q _ (indexes r) := by
  refine H.cycle (fun es => ?_) _ _
  refine H.bind (H.match_ _) fun b => ?_
  split
  · exact H.bind (consume_rule H _) fun _ => H.bind (hr.expression 0) fun e =>
      H.bind (consume_rule H _) fun _ => H.pure _
  · exact H.pure _

theorem identifier_rule (t : Token) : Q _ (identifier r t) := by
  refine H.bind (H.find_symbol _) fun id => H.bind ?_ fun kind =>
    H.bind H.thisToken fun i => H.bind (advance_rule H) fun _ =>
      H.bind (indexes_rule H hr) fun es => H.pure _
  split
  · exact H.pure _
  · exact H.kind id

theorem nud_rule : Q _ (nud r) := by
  have hunary : ∀ (p : Int) (f : Int → Node → Node), Q _ (do
      let _ ← advance
      let token_id ← lastToken
      let e ← r.parse_expression p
      pure (f token_id e)) := fun p f =>
    H.bind (advance_rule H) fun _ => H.bind H.lastToken fun i =>
      H.bind (hr.expression p) fun e => H.pure _
  have hleaf : ∀ f : Int → Node, Q _ (do
      let token_id ← thisToken
      let _ ← advance
      pure (f token_id)) := fun f =>
    H.bind H.thisToken fun i => H.bind (advance_rule H) fun _ => H.pure _
  refine H.bind H.peek fun t => ?_
  refine rule_ite (hunary 90 _) ?_
  refine rule_ite (H.bind (advance_rule H) fun _ => H.bind (hr.expression 90) fun e => H.pure _) ?_
  refine rule_ite (hunary 70 _) ?_
  refine rule_ite (hunary 90 _) ?_
  refine rule_ite (hleaf _) ?_
  refine rule_ite (H.bind (advance_rule H) fun _ => H.bind (hr.expression 0) fun e =>
    H.bind (consume_rule H _) fun _ => H.pure _) ?_
  refine rule_ite (hleaf _) ?_
  refine rule_ite (identifier_rule H hr t) ?_
  exact rule_ite (hleaf _) (H.exit 1)

theorem parse_expression_rule (p : Int) : Q _ (parse_expression r p) := by
  refine H.bind (nud_rule H hr) fun left => H.cycle (fun left => ?_) _ _
  refine H.bind H.peek fun t => ?_
  split
  · exact H.bind (led_rule H hr left) fun _ => H.pure _
  · exact H.pure _

theorem elements_rule : Q _ (elements r) := by
  refine H.cycle (fun es => ?_) _ _
  refine H.bind (H.match_ _) fun b => ?_
  split
  · exact H.pure _
  · exact H.bind (hr.expression 0) fun e => H.bind (skip_rule H _) fun _ => H.pure _

/-! ### Bounds and initializers -/

omit hr in
theorem localBounds_rule {id : Int} (hdim : ∀ dc v, Q _ (setDim id dc v)) : Q _ (localBounds r id) := by
  refine H.cycle (fun b => ?_) _ _
  refine H.bind (H.match_ _) fun m => ?_
  split
  · refine H.bind (consume_rule H _) fun _ => H.bind (H.match_ _) fun m => ?_
    split
    · split
      · exact H.exit 0
      · exact H.bind (consume_rule H _) fun _ => H.bind (hdim _ _) fun _ => H.pure _
    · exact H.bind (consume_rule H _) fun t => H.bind (consume_rule H _) fun _ =>
        H.bind (hdim _ _) fun _ => H.pure _
  · exact H.pure _

omit hr in
theorem globalBounds_rule {id : Int} (hdim : ∀ dc v, Q _ (setDim id dc v)) :
    Q _ (globalBounds r id) := by
  refine H.cycle (fun b => ?_) _ _
  refine H.bind (H.match_ _) fun m => ?_
  split
  · refine H.bind (consume_rule H _) fun _ => H.bind (H.match_ _) fun bound =>
      H.bind ?_ fun te' => H.bind (consume_rule H _) fun _ => H.pure _
    split
    · exact H.bind (consume_rule H _) fun t => H.bind (hdim _ _) fun _ => H.pure _
    · exact H.bind (hdim _ _) fun _ => H.pure _
  · exact H.pure _

theorem initializer_rule {id : Int} (te : Int) (hdim : ∀ dc v, Q _ (setDim id dc v))
    (hold : Q _ (oldSymbol Record.ownDims (fun e => e.dim_size 0) id)) :
    Q _ (initializer r id te) := by
  refine H.bind H.peek fun t => ?_
  split
  · refine H.bind (advance_rule H) fun _ => H.bind (H.match_ _) fun b => ?_
    split
    · refine H.bind (consume_rule H _) fun _ => H.bind (elements_rule H hr) fun es =>
        H.bind hold fun dim => H.bind ?_ fun te => H.bind (consume_rule H _) fun _ => H.pure _
      split
      · exact H.bind (hdim _ _) fun _ => H.pure _
      · exact H.pure _
    · exact H.bind (hr.expression 0) fun e => H.pure _
  · exact H.pure _

/-! ### Statements -/

theorem parse_block_rule : Q _ (parse_block r) := by
  refine H.bind (consume_rule H _) fun _ => H.bind (H.cycle (fun head => ?_) _ _) fun head =>
    H.bind (consume_rule H _) fun _ => H.pure _
  refine H.bind (H.match_ _) fun m => ?_
  split
  · exact H.pure _
  · exact H.bind hr.statement fun s => H.pure _

theorem parse_return_rule : Q _ (parse_return r) := by
  refine H.bind (consume_rule H _) fun _ => H.bind (H.match_ _) fun void => H.bind ?_
    fun value => H.bind (consume_rule H _) fun _ => H.pure _
  split
  · exact H.pure _
  · exact hr.expression 0

theorem parse_if_stmt_rule : Q _ (parse_if_stmt r) := by
  refine H.bind (consume_rule H _) fun _ => H.bind H.lastToken fun i =>
    H.bind (consume_rule H _) fun _ => H.bind (hr.expression 0) fun cond =>
      H.bind (consume_rule H _) fun _ => H.bind hr.statement fun then_stmt =>
        H.bind (H.match_ _) fun more => H.bind ?_ fun else_stmt => H.pure _
  split
  · exact H.bind (consume_rule H _) fun _ => hr.statement
  · exact H.pure _

theorem parse_while_rule : Q _ (parse_while r) :=
  H.bind (consume_rule H _) fun _ => H.bind H.lastToken fun _ =>
    H.bind (consume_rule H _) fun _ => H.bind (hr.expression 0) fun _ =>
      H.bind (consume_rule H _) fun _ => H.bind hr.statement fun _ => H.pure _

theorem assignment_rule (left : Node) (token_id : Int) : Q _ (assignment r left token_id) := by
  refine H.bind (consume_rule H _) fun _ => H.bind (H.tokenName _) fun name =>
    H.bind (H.find_symbol _) fun id => H.bind ?_ fun offset =>
      H.bind (hr.expression 0) fun right => H.pure _
  split
  · exact H.pure _
  · exact H.offset id

theorem parse_for_rule : Q _ (parse_for r) := by
  refine H.bind (consume_rule H _) fun _ => H.bind H.lastToken fun i =>
    H.bind (consume_rule H _) fun _ => H.bind hr.statement fun init =>
      H.bind (hr.expression 0) fun cond => H.bind (consume_rule H _) fun _ =>
        H.bind (hr.expression 0) fun left => H.bind H.peek fun t => H.bind ?_ fun post =>
          H.bind (consume_rule H _) fun _ => H.bind hr.statement fun body => H.pure _
  split
  · exact assignment_rule H hr left _
  · exact H.pure _

theorem parse_statement_rule (hdecl : Q _ (parse_declaration r)) : Q _ (parse_statement r) := by
  have hword : ∀ (t : Int) (n : Node), Q _ (do
      let _ ← consume t
      let _ ← consume ';'.toNat
      pure n) := fun t n =>
    H.bind (consume_rule H t) fun _ => H.bind (consume_rule H _) fun _ => H.pure n
  refine H.bind H.peek fun tok => H.bind (is_type_rule H _) fun b => ?_
  refine rule_ite hdecl ?_
  refine rule_ite (parse_block_rule H hr) ?_
  refine rule_ite (parse_if_stmt_rule H hr) ?_
  refine rule_ite (parse_while_rule H hr) ?_
  refine rule_ite (hword _ _) ?_
  refine rule_ite (hword _ _) ?_
  refine rule_ite (parse_for_rule H hr) ?_
  refine rule_ite (parse_return_rule H hr) ?_
  refine H.bind (hr.expression 0) fun left => H.bind H.peek fun t => ?_
  split
  · exact H.bind (assignment_rule H hr left _) fun n => H.bind (consume_rule H _) fun _ => H.pure n
  split
  · exact H.bind (advance_rule H) fun _ => H.pure left
  · exact H.exit 1

omit hr in
theorem params_rule {gt_index : Int} (hparam : Q _ (param r gt_index)) : Q _ (params r gt_index) := by
  refine H.cycle (fun d => ?_) _ _
  refine H.bind (H.match_ _) fun m => ?_
  split
  · exact H.pure _
  · refine H.bind H.peek fun t => H.bind (is_type_rule H _) fun typed => H.bind ?_ fun args =>
      H.bind (skip_rule H _) fun _ => H.pure _
    split
    · exact H.bind hparam fun a => H.pure _
    · exact H.pure _

omit hr in
theorem calls_rule (hdecl : ∀ r, CallsHave Q r → Q _ (parse_declaration r)) : ∀ n, CallsHave Q (calls n) := by
  intro n
  induction n with
  | zero => exact ⟨fun _ => H.more, H.more⟩
  | succ n ih =>
      exact ⟨fun p => parse_expression_rule H ih p, parse_statement_rule H ih (hdecl _ ih)⟩

/-! ### Declarations and functions -/

omit H hr

theorem append_node_rule (H : Rules Q) (hcount : Q _ gt_count)
    (hadd : ∀ e, Q _ (update fun s : Parser => { s with global_table := s.global_table ++ [e] }))
    (node : Node) : Q _ (append_node node) := by
  have hname : ∀ name : Name, Q _ (do
      let n ← gt_count
      if n < 256 ∧ name.length < 60 then
        update fun s => { s with global_table := s.global_table ++ [⟨n, name, node⟩] }
      else undefined) := by
    intro name
    refine H.bind hcount fun n => ?_
    split
    · exact hadd _
    · exact H.undefined
  unfold append_node
  split
  · exact hname _
  · exact hname _
  · exact H.pure _

/-- A property of the steps that read and of those that enter symbols. -/
structure Entering (Q : (α : Type) → P α → Prop) : Prop extends Looking Q where
  bp : Q _ (gets fun s => s.bp)
  gt_count : Q _ gt_count
  setBp : ∀ f : Int → Int, Q _ (update fun s => { s with bp := f s.bp })
  setGbr : ∀ f : Int → Int, Q _ (update fun s => { s with gbr := f s.gbr })
  add_to_symtab : ∀ t bp isg gt data_type lvl, Q _ (add_to_symtab t bp isg gt data_type lvl)
  dims : ∀ id, Q _ (oldSymbol Record.ownDims (fun e => e.dim_size 0) id)
  setDim : ∀ id dc v, Q _ (setDim id dc v)
  variable_ : ∀ id dc te struct_id offset,
    Q _ (modifySymbol id fun e => { Record.complete e dc te struct_id with offset := offset })
  global : ∀ id dc te struct_id, Q _ (modifySymbol id fun e => Record.complete e dc te struct_id)
  parameter : ∀ id struct_id,
    Q _ (modifySymbol id fun e => { e with struct_id := struct_id, ownStruct := true })

/-- A property of all these steps. -/
structure Declaring (Q : (α : Type) → P α → Prop) : Prop extends Reading Q, Entering Q

variable (D : Entering Q)

include D

theorem declarator_rule (hr : CallsHave Q r) (base_type struct_id base_size curroffset : Int) :
    Q _ (declarator r base_type struct_id base_size curroffset) :=
  have H := D.toLooking
  H.bind (stars_rule H) fun _ => H.bind (consume_rule H _) fun _ => H.bind H.lastToken fun _ =>
    H.bind D.bp fun _ => H.bind D.gt_count fun _ => H.bind (D.add_to_symtab _ _ _ _ _ _) fun _ =>
      H.bind (H.find_symbol _) fun id => H.bind (localBounds_rule H (D.setDim id)) fun b =>
        H.bind (initializer_rule H hr b.2 (D.setDim id) (D.dims id)) fun v =>
          H.bind (D.variable_ id b.1 v.2 struct_id _) fun _ => H.pure _

theorem parse_declaration_rule (hr : CallsHave Q r) : Q _ (parse_declaration r) := by
  have H := D.toLooking
  refine H.bind H.peek fun t => H.bind (is_type_rule H _) fun b => ?_
  split
  · refine H.bind (advance_rule H) fun rt => H.bind (typeStruct_rule H rt) fun ty =>
      H.bind (H.cycle (fun d => ?_) _ _) fun d => H.bind (D.setBp fun z => int32 (z + d.2)) fun _ =>
        H.bind (consume_rule H _) fun _ => H.pure _
    refine H.bind (declarator_rule D hr _ _ _ _) fun n => H.bind (more_declarators_rule H) fun m => ?_
    split
    · exact H.pure _
    · exact H.pure _
  · exact H.exit 1

theorem globalDeclarator_rule (hr : CallsHave Q r) (base_type dt struct_id base_size : Int) :
    Q _ (globalDeclarator r base_type dt struct_id base_size) :=
  have H := D.toLooking
  H.bind (stars_rule H) fun count => H.bind (consume_rule H _) fun _ => H.bind H.lastToken fun _ =>
    H.bind (H.leaning _) fun _ => H.bind D.gt_count fun _ => H.bind (D.add_to_symtab _ _ _ _ _ _) fun _ =>
      H.bind (H.find_symbol _) fun id => H.bind (globalBounds_rule H (D.setDim id)) fun b =>
        H.bind (initializer_rule H hr b.2 (D.setDim id) (D.dims id)) fun v =>
          H.bind (D.global id b.1 v.2 struct_id) fun _ =>
            H.bind (D.setGbr fun z => int32 (z + int32 ((if 0 < count then 4 else base_size) * v.2))) fun _ =>
              H.pure _

theorem parse_global_declaration_rule (hr : CallsHave Q r) : Q _ (parse_global_declaration r) := by
  have H := D.toLooking
  refine H.bind H.peek fun t => H.bind (is_type_rule H _) fun b => ?_
  split
  · refine H.bind (advance_rule H) fun t => H.bind (typeStruct_rule H t) fun ty =>
      H.bind (H.cycle (fun d => ?_) _ _) fun ns => H.bind (consume_rule H _) fun _ => H.pure _
    refine H.bind (globalDeclarator_rule D hr _ _ _ _) fun n => H.bind (more_declarators_rule H) fun m => ?_
    split
    · exact H.pure _
    · exact H.pure _
  · exact H.exit 1

theorem param_rule (gt_index : Int) : Q _ (param r gt_index) :=
  have H := D.toLooking
  H.bind (advance_rule H) fun t => H.bind (paramStruct_rule H t) fun ty => H.bind (stars_rule H) fun _ =>
    H.bind (consume_rule H _) fun _ => H.bind D.bp fun _ => H.bind (D.add_to_symtab _ _ _ _ _ _) fun _ =>
      H.bind (H.find_symbol _) fun id => H.bind (D.parameter id ty.2) fun _ =>
        H.bind (D.setBp fun z => int32 (z - 4)) fun _ => H.bind H.lastToken fun _ => H.pure _

theorem parse_function_rule (hr : CallsHave Q r) : Q _ (parse_function r) := by
  have H := D.toLooking
  refine H.bind H.peek fun t => H.bind (is_type_rule H _) fun b => ?_
  split
  · refine H.bind (advance_rule H) fun rt => H.bind (consume_rule H _) fun f_tok =>
      H.bind D.gt_count fun gt => H.bind (D.add_to_symtab _ _ _ _ _ _) fun _ =>
        H.bind (D.setBp fun _ => -12) fun _ => H.bind (consume_rule H _) fun _ =>
          H.bind (params_rule H (param_rule D _)) fun d => H.bind (consume_rule H _) fun _ =>
            H.bind (H.match_ _) fun m => ?_
    split
    · exact H.bind (consume_rule H _) fun _ => H.pure _
    · exact H.bind (D.setBp fun _ => 0) fun _ => H.bind (parse_block_rule H hr) fun body =>
        H.bind D.bp fun z => H.pure _
  · exact H.exit 1

theorem calls_have (n : Nat) : CallsHave Q (calls n) :=
  calls_rule D.toLooking (fun _ hr => parse_declaration_rule D hr) n

end Parser

end Eke
