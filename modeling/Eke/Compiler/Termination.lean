/-
The parser comes to an end.

Nearly everything the parser repeats reads a token: each round of a loop and each call of one
of its functions by another leaves fewer tokens than it found, so that fuel for as many rounds
as there are tokens is enough.  The one exception is the loop over the parameters of a
function.  At a token that neither closes the list nor starts a type nor is a comma a round
of it does nothing but count a parameter, and so does every round behind it.
-/
import Eke.Compiler.MoreFuel
import Eke.Compiler.Reparsing

namespace Eke

namespace Parser

open Prog

/-- The tokens that are left. -/
def remaining (s : Parser) : Nat := s.tokens.length - s.tp1

theorem tokenType_end {s : Parser} {i : Nat} (h : s.tokens.length ≤ i) : tokenType s i = T_EOF := by
  unfold tokenType tokenAt
  rw [List.getElem?_eq_none h]
  rfl

/-- Behind a token that is not the end of the text fewer are left. -/
theorem remaining_forward {s : Parser} (h : tokenType s s.tp1 ≠ T_EOF) :
    remaining { s with tp1 := s.tp1 + 1 } < remaining s := by
  have hlt : s.tp1 < s.tokens.length := by
    by_contra hge
    exact h (tokenType_end (Nat.le_of_not_lt hge))
  show s.tokens.length - (s.tp1 + 1) < s.tokens.length - s.tp1
  omega

variable {k : Nat}

/-! ### Tokens -/

theorem advance_eq (s : Parser) : advance s =
    if tokenType s s.tp1 ≠ T_EOF then .ok (tokenAt s s.tp1) { s with tp1 := s.tp1 + 1 } else .wild s := by
  show (if tokenType s s.tp1 ≠ T_EOF then
    update (fun s => { s with tp1 := s.tp1 + 1 }) >>= fun _ => pure (tokenAt s s.tp1) else _ : P Token) s = _
  split
  · rfl
  · rfl

theorem consume_eq (t : Int) (s : Parser) : consume t s =
    if t = tokenType s s.tp1 then .ok (tokenAt s s.tp1) { s with tp1 := s.tp1 + 1 } else .exit 1 s := by
  show (if decide (t = tokenType s s.tp1) = true then
    peek >>= fun tok => update (fun s => { s with tp1 := s.tp1 + 1 }) >>= fun _ => pure tok else _ : P Token) s = _
  simp only [decide_eq_true_eq]
  split
  · rfl
  · rfl

theorem advance_eats : Eats remaining k advance := by
  intro s _
  rw [advance_eq]
  by_cases h : tokenType s s.tp1 ≠ T_EOF
  · rw [if_pos h]
    exact remaining_forward h
  · rw [if_neg h]
    trivial

theorem consume_eats {t : Int} (ht : t ≠ T_EOF) : Eats remaining k (consume t) := by
  intro s _
  rw [consume_eq]
  by_cases h : t = tokenType s s.tp1
  · rw [if_pos h]
    exact remaining_forward fun hend => ht (h.trans hend)
  · rw [if_neg h]
    trivial

theorem consume_halts (t : Int) : Halts remaining k (consume t) := by
  refine (halts_gets _).bind fun b => ?_
  split
  · refine (halts_gets _).bind fun tok => (halts_update fun s => ?_).bind fun _ => halts_pure _
    exact Nat.sub_le_sub_left (Nat.le_succ s.tp1) s.tokens.length
  · exact (eats_exit 1).halts

theorem skip_halts (t : Int) : Halts remaining k (skip t) := by
  refine (halts_gets _).bind fun b => ?_
  split
  · exact (consume_halts t).bind fun _ => halts_pure _
  · exact halts_pure _

theorem exit_halts {α : Type} (code : Int) : Halts remaining k (exit code : P α) := (eats_exit code).halts

theorem undefined_halts {α : Type} : Halts remaining k (undefined : P α) := eats_undefined.halts

theorem tokenName_halts (token_id : Int) : Halts remaining k (tokenName token_id) := by
  refine (halts_gets _).bind fun n => ?_
  split
  · exact halts_gets _
  · exact undefined_halts

/-! ### Tables -/

theorem leaning_halts {α : Type} (f : Parser → α) : Halts remaining k (leaning f) :=
  fun s _ => Nat.le_refl (remaining s)

theorem add_to_symtab_halts (t : Token) (bp isg gt data_type lvl : Int) :
    Halts remaining k (add_to_symtab t bp isg gt data_type lvl) := by
  refine (halts_gets _).bind fun sp => ?_
  split
  · exact halts_update fun s => Nat.le_refl (remaining s)
  · exact undefined_halts

theorem symbol_halts {α : Type} (f : Record → α) (id : Int) : Halts remaining k (symbol f id) := by
  intro s _
  unfold symbol
  split
  · exact Nat.le_refl (remaining s)
  · trivial

theorem oldSymbol_halts {α : Type} (own : Record → Bool) (f : Record → α) (id : Int) :
    Halts remaining k (oldSymbol own f id) := by
  intro s _
  unfold oldSymbol
  split
  · split
    · exact Nat.le_refl (remaining s)
    · exact Nat.le_refl (remaining s)
  · trivial

theorem modifySymbol_halts (id : Int) (f : Record → Record) : Halts remaining k (modifySymbol id f) := by
  unfold modifySymbol
  split
  · exact halts_update fun s => Nat.le_refl (remaining s)
  · exact undefined_halts

theorem setDim_halts (id : Int) (dc : Nat) (v : Int) : Halts remaining k (setDim id dc v) := by
  unfold setDim
  split
  · exact modifySymbol_halts id _
  · exact undefined_halts

theorem setBp_halts (f : Int → Int) : Halts remaining k (update fun s => { s with bp := f s.bp }) :=
  halts_update fun s => Nat.le_refl (remaining s)

theorem setGbr_halts (f : Int → Int) : Halts remaining k (update fun s => { s with gbr := f s.gbr }) :=
  halts_update fun s => Nat.le_refl (remaining s)

theorem find_struct_halts (name : Name) : Halts remaining k (find_struct name) := by
  refine (leaning_halts _).bind fun found => ?_
  cases found with
  | none => exact undefined_halts
  | some id => exact halts_pure id

theorem structEntry_halts (id : Int) : Halts remaining k (structEntry id) := by
  refine (leaning_halts _).bind fun e => ?_
  cases e with
  | none => exact undefined_halts
  | some e => exact halts_pure e

theorem modifyStruct_halts (f : Structentry → Structentry) : Halts remaining k (modifyStruct f) :=
  halts_update fun s => Nat.le_refl (remaining s)

theorem newStruct_halts : Halts remaining k newStruct := by
  refine (leaning_halts _).bind fun n => ?_
  split
  · exact halts_update fun s => Nat.le_refl (remaining s)
  · exact undefined_halts

theorem is_type_halts (t : Int) : Halts remaining k (is_type t) := by
  unfold is_type
  split
  · exact halts_pure _
  split
  · exact (halts_gets _).bind fun p => (find_struct_halts _).bind fun id => halts_pure _
  · exact halts_pure _

theorem append_node_halts (node : Node) : Halts remaining k (append_node node) := by
  have hadd : ∀ name : Name, Halts remaining k (do
      let n ← gt_count
      if n < 256 ∧ name.length < 60 then
        update fun s => { s with global_table := s.global_table ++ [⟨n, name, node⟩] }
      else undefined) := by
    intro name
    refine (halts_gets _).bind fun n => ?_
    split
    · exact halts_update fun s => Nat.le_refl (remaining s)
    · exact undefined_halts
  unfold append_node
  split
  · exact hadd _
  · exact hadd _
  · exact halts_pure _

/-! ### Expressions -/

/-- With at most `k` tokens left an expression ends, and so does a loop that reads one. -/
structure ExpressionsEat (k : Nat) (r : Calls) : Prop where
  fuel : k < r.fuel
  expression : ∀ p, Eats remaining k (r.parse_expression p)

theorem ExpressionsEat.at_most {r : Calls} {j : Nat} (hr : ExpressionsEat k r) (hj : j ≤ k) :
    ExpressionsEat j r :=
  ⟨Nat.lt_of_le_of_lt hj hr.fuel, fun p => (hr.expression p).at_most hj⟩

variable {r : Calls}

theorem callArgs_halts (hr : ExpressionsEat k r) : Halts remaining k (callArgs r) := by
  refine Turns.cycle (fun args => (halts_gets _).bind_turns fun b => ?_) hr.fuel _
  split
  · exact turns_end _
  · exact ((hr.expression 0).bind fun j _ a => (skip_halts _).bind fun _ => halts_pure _).turns

theorem structOf_halts (left : Node) : Halts remaining k (structOf left) := by
  have hsym : Halts remaining k (do
      let varname ← tokenName left.token_id
      let symidx ← find_symbol varname
      if symidx = -1 then pure (-1) else oldSymbol Record.ownStruct Record.struct_id symidx) := by
    refine (tokenName_halts _).bind fun varname => (halts_gets _).bind fun symidx => ?_
    split
    · exact halts_pure _
    · exact oldSymbol_halts _ _ _
  unfold structOf
  split
  · exact hsym
  · exact hsym
  · exact halts_pure _
  · exact halts_pure _

theorem led_eats (hr : ∀ j < k, ExpressionsEat j r) (left : Node) : Eats remaining k (led r left) := by
  refine advance_eats.bind fun j hj op => ?_
  have hr := hr j hj
  split
  · exact (tokenName_halts _).bind fun name => (callArgs_halts hr).bind fun args =>
      (consume_halts _).bind fun _ => halts_pure _
  split
  · refine (consume_halts _).bind fun memtok => (structOf_halts left).bind fun structid => ?_
    split
    · exact exit_halts 1
    refine (structEntry_halts _).bind fun e => ?_
    split
    · exact undefined_halts
    split
    · exact (find_struct_halts _).bind fun _ => halts_pure _
    · exact halts_pure _
  split
  · exact halts_pure _
  split
  · exact halts_pure _
  · exact (hr.expression _).halts.bind fun right => halts_pure _

theorem indexes_halts (hr : ExpressionsEat k r) : Halts remaining k (indexes r) := by
  refine Turns.cycle (fun es => (halts_gets _).bind_turns fun b => ?_) hr.fuel _
  split
  · exact ((consume_eats (by decide)).bind fun j hj _ =>
      ((hr.at_most (Nat.le_of_lt hj)).expression 0).halts.bind fun e =>
        (consume_halts _).bind fun _ => halts_pure _).turns
  · exact turns_end _

theorem identifier_eats (hr : ∀ j < k, ExpressionsEat j r) (t : Token) :
    Eats remaining k (identifier r t) := by
  refine (halts_gets _).bind_eats fun id => Halts.bind_eats ?_ fun kind =>
    (halts_gets _).bind_eats fun i => ?_
  · split
    · exact halts_pure _
    · exact symbol_halts _ _
  · exact advance_eats.bind fun j hj _ => (indexes_halts (hr j hj)).bind fun es => halts_pure _

theorem nud_eats (hr : ∀ j < k, ExpressionsEat j r) : Eats remaining k (nud r) := by
  have hunary : ∀ (p : Int) (f : Int → Node → Node), Eats remaining k (do
      let _ ← advance
      let token_id ← lastToken
      let e ← r.parse_expression p
      pure (f token_id e)) := by
    intro p f
    exact advance_eats.bind fun j hj _ => (halts_gets _).bind fun i =>
      ((hr j hj).expression p).halts.bind fun e => halts_pure _
  have hleaf : ∀ f : Int → Node, Eats remaining k (do
      let token_id ← thisToken
      let _ ← advance
      pure (f token_id)) := by
    intro f
    exact (halts_gets _).bind_eats fun i => advance_eats.bind fun j _ _ => halts_pure _
  refine (halts_gets _).bind_eats fun t => ?_
  refine eats_ite (hunary 90 _) ?_
  refine eats_ite
    (advance_eats.bind fun j hj _ => ((hr j hj).expression 90).halts.bind fun e => halts_pure _) ?_
  refine eats_ite (hunary 70 _) ?_
  refine eats_ite (hunary 90 _) ?_
  refine eats_ite (hleaf _) ?_
  refine eats_ite
    (advance_eats.bind fun j hj _ => ((hr j hj).expression 0).halts.bind fun e =>
      (consume_halts _).bind fun _ => halts_pure _) ?_
  refine eats_ite (hleaf _) ?_
  refine eats_ite (identifier_eats hr t) ?_
  exact eats_ite (hleaf _) (eats_exit 1)

theorem parse_expression_eats (hr : ∀ j < k, ExpressionsEat j r) (p : Int) :
    Eats remaining k (parse_expression r p) := by
  refine (nud_eats hr).bind fun j hj left => ?_
  refine Turns.cycle (fun left => (halts_gets _).bind_turns fun t => ?_) (hr j hj).fuel _
  split
  · have hled := led_eats (fun i hi => hr i (Nat.lt_trans hi hj)) left
    exact (hled.bind fun i _ left' => halts_pure _).turns
  · exact turns_end _

/-! ### Declarations -/

theorem elements_halts (hr : ExpressionsEat k r) : Halts remaining k (elements r) := by
  refine Turns.cycle (fun es => (halts_gets _).bind_turns fun b => ?_) hr.fuel _
  split
  · exact turns_end _
  · exact ((hr.expression 0).bind fun j _ e => (skip_halts _).bind fun _ => halts_pure _).turns

theorem initializer_halts (hr : ExpressionsEat k r) (id te : Int) :
    Halts remaining k (initializer r id te) := by
  refine (halts_gets _).bind fun t => ?_
  split
  · refine advance_eats.halts.bind fun _ => (halts_gets _).bind fun b => ?_
    split
    · refine (consume_halts _).bind fun _ => (elements_halts hr).bind fun es =>
        (oldSymbol_halts _ _ _).bind fun dim => Halts.bind ?_ fun te =>
          (consume_halts _).bind fun _ => halts_pure _
      split
      · exact (setDim_halts _ _ _).bind fun _ => halts_pure _
      · exact halts_pure _
    · exact (hr.expression 0).halts.bind fun e => halts_pure _
  · exact halts_pure _

theorem localBounds_halts (hfuel : k < r.fuel) (id : Int) : Halts remaining k (localBounds r id) := by
  refine Turns.cycle (fun b => (halts_gets _).bind_turns fun m => ?_) hfuel _
  split
  · refine ((consume_eats (by decide)).bind fun j _ _ => (halts_gets _).bind fun m => ?_).turns
    split
    · split
      · exact exit_halts 0
      · exact (consume_halts _).bind fun _ => (setDim_halts _ _ _).bind fun _ => halts_pure _
    · exact (consume_halts _).bind fun t => (consume_halts _).bind fun _ =>
        (setDim_halts _ _ _).bind fun _ => halts_pure _
  · exact turns_end _

theorem globalBounds_halts (hfuel : k < r.fuel) (id : Int) : Halts remaining k (globalBounds r id) := by
  refine Turns.cycle (fun b => (halts_gets _).bind_turns fun m => ?_) hfuel _
  split
  · refine ((consume_eats (by decide)).bind fun j _ _ => (halts_gets _).bind fun bound => Halts.bind ?_
      fun te' => (consume_halts _).bind fun _ => halts_pure _).turns
    split
    · exact (consume_halts _).bind fun t => (setDim_halts _ _ _).bind fun _ => halts_pure _
    · exact (setDim_halts _ _ _).bind fun _ => halts_pure _
  · exact turns_end _

theorem stars_halts (hfuel : k < r.fuel) : Halts remaining k (stars r) := by
  refine Turns.cycle (fun count => (halts_gets _).bind_turns fun b => ?_) hfuel _
  split
  · exact ((consume_eats (by decide)).bind fun j _ _ => halts_pure _).turns
  · exact turns_end _

theorem typeStruct_halts (t : Token) : Halts remaining k (typeStruct t) := by
  unfold typeStruct
  split
  · refine Halts.bind ?_ fun rt => (find_struct_halts _).bind fun id => ?_
    · split
      · exact consume_halts _
      · exact halts_pure t
    split
    · exact exit_halts 1
    · exact (structEntry_halts id).bind fun e => halts_pure _
  · exact halts_pure _

theorem more_declarators_halts : Halts remaining k more_declarators := by
  refine (halts_gets _).bind fun b => ?_
  split
  · exact (consume_halts _).bind fun _ => halts_pure _
  · refine (halts_gets _).bind fun t => ?_
    split
    · exact halts_pure _
    · exact exit_halts 1

theorem declarator_eats (hr : ExpressionsEat k r) (base_type struct_id base_size curroffset : Int) :
    Eats remaining k (declarator r base_type struct_id base_size curroffset) := by
  refine (stars_halts hr.fuel).bind_eats fun count => (consume_eats (by decide)).bind fun j hj d_tok => ?_
  have hr := hr.at_most (Nat.le_of_lt hj)
  refine (halts_gets _).bind fun tid => (halts_gets _).bind fun bp => (halts_gets _).bind fun n =>
    (add_to_symtab_halts _ _ _ _ _ _).bind fun _ => (halts_gets _).bind fun id => ?_
  refine (localBounds_halts hr.fuel id).bind fun b => (initializer_halts hr id b.2).bind fun v => ?_
  exact (modifySymbol_halts _ _).bind fun _ => halts_pure _

theorem parse_declaration_eats (hr : ∀ j < k, ExpressionsEat j r) :
    Eats remaining k (parse_declaration r) := by
  refine (halts_gets _).bind_eats fun t => (is_type_halts _).bind_eats fun b => ?_
  split
  · refine advance_eats.bind fun j hj rt => (typeStruct_halts rt).bind fun ty => Halts.bind ?_ fun d =>
      (setBp_halts fun z => int32 (z + d.2)).bind fun _ =>
        (consume_halts _).bind fun _ => halts_pure _
    refine Turns.cycle (fun d => Eats.turns ?_) (hr j hj).fuel _
    refine (declarator_eats (hr j hj) _ _ _ _).bind fun i _ n => more_declarators_halts.bind fun m => ?_
    split
    · exact halts_pure _
    · exact halts_pure _
  · exact eats_exit 1

theorem globalDeclarator_eats (hr : ExpressionsEat k r) (base_type dt struct_id base_size : Int) :
    Eats remaining k (globalDeclarator r base_type dt struct_id base_size) := by
  refine (stars_halts hr.fuel).bind_eats fun count => (consume_eats (by decide)).bind fun j hj d_tok => ?_
  have hr := hr.at_most (Nat.le_of_lt hj)
  refine (halts_gets _).bind fun tid => (leaning_halts _).bind fun gbr => (halts_gets _).bind fun n =>
    (add_to_symtab_halts _ _ _ _ _ _).bind fun _ => (halts_gets _).bind fun id => ?_
  refine (globalBounds_halts hr.fuel id).bind fun b => (initializer_halts hr id b.2).bind fun v => ?_
  exact (modifySymbol_halts _ _).bind fun _ =>
    (setGbr_halts fun z => int32 (z + int32 ((if 0 < count then 4 else base_size) * v.2))).bind fun _ =>
      halts_pure _

theorem parse_global_declaration_eats (hr : ∀ j < k, ExpressionsEat j r) :
    Eats remaining k (parse_global_declaration r) := by
  refine (halts_gets _).bind_eats fun t => (is_type_halts _).bind_eats fun b => ?_
  split
  · refine advance_eats.bind fun j hj t => (typeStruct_halts t).bind fun ty => Halts.bind ?_ fun d =>
      (consume_halts _).bind fun _ => halts_pure _
    refine Turns.cycle (fun d => Eats.turns ?_) (hr j hj).fuel _
    refine (globalDeclarator_eats (hr j hj) _ _ _ _).bind fun i _ n =>
      more_declarators_halts.bind fun m => ?_
    split
    · exact halts_pure _
    · exact halts_pure _
  · exact eats_exit 1

/-! ### Statements -/

/-- With at most `k` tokens left a statement ends as well. -/
structure CallsEat (k : Nat) (r : Calls) : Prop extends ExpressionsEat k r where
  statement : Eats remaining k r.parse_statement

theorem parse_block_eats (hr : ∀ j < k, CallsEat j r) : Eats remaining k (parse_block r) := by
  refine (consume_eats (by decide)).bind fun j hj _ => Halts.bind ?_ fun head =>
    (consume_halts _).bind fun _ => halts_pure _
  refine Turns.cycle (fun head => (halts_gets _).bind_turns fun b => ?_) (hr j hj).fuel _
  split
  · exact turns_end _
  · exact ((hr j hj).statement.bind fun i _ s => halts_pure _).turns

theorem parse_return_eats (hr : ∀ j < k, CallsEat j r) : Eats remaining k (parse_return r) := by
  refine (consume_eats (by decide)).bind fun j hj _ => (halts_gets _).bind fun void => Halts.bind ?_
    fun value => (consume_halts _).bind fun _ => halts_pure _
  split
  · exact halts_pure _
  · exact ((hr j hj).expression 0).halts

theorem parse_if_stmt_eats (hr : ∀ j < k, CallsEat j r) : Eats remaining k (parse_if_stmt r) := by
  refine (consume_eats (by decide)).bind fun j hj _ => (halts_gets _).bind fun i =>
    (consume_halts _).bind fun _ => ((hr j hj).expression 0).halts.bind fun cond =>
      (consume_halts _).bind fun _ => (hr j hj).statement.halts.bind fun then_stmt =>
        (halts_gets _).bind fun more => Halts.bind ?_ fun else_stmt => halts_pure _
  split
  · exact (consume_halts _).bind fun _ => (hr j hj).statement.halts
  · exact halts_pure _

theorem parse_while_eats (hr : ∀ j < k, CallsEat j r) : Eats remaining k (parse_while r) :=
  (consume_eats (by decide)).bind fun j hj _ => (halts_gets _).bind fun _ =>
    (consume_halts _).bind fun _ => ((hr j hj).expression 0).halts.bind fun _ =>
      (consume_halts _).bind fun _ => (hr j hj).statement.halts.bind fun _ => halts_pure _

theorem assignment_halts (hr : ExpressionsEat k r) (left : Node) (token_id : Int) :
    Halts remaining k (assignment r left token_id) := by
  refine (consume_halts _).bind fun _ => (tokenName_halts _).bind fun name =>
    (halts_gets _).bind fun id => Halts.bind ?_ fun offset =>
      (hr.expression 0).halts.bind fun right => halts_pure _
  split
  · exact halts_pure _
  · exact symbol_halts _ _

theorem parse_for_eats (hr : ∀ j < k, CallsEat j r) : Eats remaining k (parse_for r) := by
  refine (consume_eats (by decide)).bind fun j hj _ => (halts_gets _).bind fun i =>
    (consume_halts _).bind fun _ => (hr j hj).statement.halts.bind fun init => ?_
  refine ((hr j hj).expression 0).halts.bind fun cond => (consume_halts _).bind fun _ =>
    ((hr j hj).expression 0).halts.bind fun left => (halts_gets _).bind fun t => Halts.bind ?_ fun post => ?_
  · split
    · exact assignment_halts (hr j hj).toExpressionsEat left _
    · exact halts_pure _
  · exact (consume_halts _).bind fun _ => (hr j hj).statement.halts.bind fun body => halts_pure _

/-- A statement may start with an expression: that one has all the tokens. -/
theorem parse_statement_eats (hr : ∀ j < k, CallsEat j r) (he : ExpressionsEat k r) :
    Eats remaining k (parse_statement r) := by
  have hword : ∀ (t : Int) (n : Node), t ≠ T_EOF → Eats remaining k (do
      let _ ← consume t
      let _ ← consume ';'.toNat
      pure n) := by
    intro t n ht
    exact (consume_eats ht).bind fun j _ _ => (consume_halts _).bind fun _ => halts_pure n
  refine (halts_gets _).bind_eats fun tok => (is_type_halts _).bind_eats fun b => ?_
  refine eats_ite (parse_declaration_eats fun j hj => (hr j hj).toExpressionsEat) ?_
  refine eats_ite (parse_block_eats hr) ?_
  refine eats_ite (parse_if_stmt_eats hr) ?_
  refine eats_ite (parse_while_eats hr) ?_
  refine eats_ite (hword _ _ (by decide)) ?_
  refine eats_ite (hword _ _ (by decide)) ?_
  refine eats_ite (parse_for_eats hr) ?_
  refine eats_ite (parse_return_eats hr) ?_
  refine (he.expression 0).bind fun j hj left => (halts_gets _).bind fun t => ?_
  have he := he.at_most (Nat.le_of_lt hj)
  split
  · exact (assignment_halts he left _).bind fun n => (consume_halts _).bind fun _ => halts_pure n
  split
  · exact advance_eats.halts.bind fun _ => halts_pure left
  · exact exit_halts 1

theorem CallsEat.at_most {j : Nat} (hr : CallsEat k r) (hj : j ≤ k) : CallsEat j r :=
  ⟨hr.toExpressionsEat.at_most hj, hr.statement.at_most hj⟩

/-- Fuel for as many calls as there are tokens is enough. -/
theorem expressions_eat : ∀ {n k : Nat}, k < n → ExpressionsEat k (calls n) := by
  intro n
  induction n with
  | zero =>
      intro k hk
      exact absurd hk (Nat.not_lt_zero k)
  | succ n ih =>
      intro k hk
      exact ⟨hk, parse_expression_eats fun j hj => ih (by omega)⟩

theorem calls_eat : ∀ {n k : Nat}, k + 1 < n → CallsEat k (calls n) := by
  intro n
  induction n with
  | zero =>
      intro k hk
      exact absurd hk (Nat.not_lt_zero _)
  | succ n ih =>
      intro k hk
      have he : ExpressionsEat k (calls n) := expressions_eat (by omega)
      exact ⟨expressions_eat (by omega), parse_statement_eats (fun j hj => ih (by omega)) he⟩

/-! ### Structs -/

theorem memberBounds_halts (hfuel : k < r.fuel) (e_size : Int) :
    Halts remaining k (memberBounds r e_size) := by
  refine Turns.cycle (fun e_size => (halts_gets _).bind_turns fun b => ?_) hfuel _
  split
  · refine ((consume_eats (by decide)).bind fun j hj _ => Halts.bind ?_ fun arr_size =>
      (consume_halts _).bind fun _ => halts_pure _).turns
    refine Turns.cycle (fun z => (halts_gets _).bind_turns fun b => ?_) (Nat.lt_trans hj hfuel) _
    split
    · exact turns_end _
    · exact ((consume_eats (by decide)).bind fun i _ t => halts_pure _).turns
  · exact turns_end _

theorem memberSize_halts (t : Token) (isptr : Int) (name : Name) :
    Halts remaining k (memberSize t isptr name) := by
  unfold memberSize
  split
  · exact halts_pure _
  split
  · refine (find_struct_halts _).bind fun id => ?_
    split
    · exact exit_halts 1
    · exact (structEntry_halts id).bind fun e => halts_pure _
  · exact halts_pure _

theorem memberType_eats (memcount : Nat) : Eats remaining k (memberType memcount) := by
  refine advance_eats.bind fun j _ t => ?_
  split
  · exact (modifyStruct_halts _).bind fun _ => halts_pure t
  · exact undefined_halts

theorem structMember_eats (hfuel : k < r.fuel) (memcount : Nat) (curroff : Int) :
    Eats remaining k (structMember r memcount curroff) := by
  refine (memberType_eats memcount).bind fun j hj t => Halts.bind ?_ fun name => ?_
  · split
    · exact (consume_halts _).bind fun tname => (modifyStruct_halts _).bind fun _ => halts_pure _
    · exact halts_pure _
  · have hfuel := Nat.lt_trans hj hfuel
    exact (stars_halts hfuel).bind fun isptr => (modifyStruct_halts _).bind fun _ =>
      (memberSize_halts t isptr name).bind fun e_size => (consume_halts _).bind fun e_name =>
        (modifyStruct_halts _).bind fun _ => (memberBounds_halts hfuel e_size).bind fun e_size =>
          (consume_halts _).bind fun _ => halts_pure _

theorem structName_halts : Halts remaining k structName := by
  refine (halts_gets _).bind fun b => ?_
  split
  · exact (consume_halts _).bind fun name => modifyStruct_halts _
  · exact modifyStruct_halts _

theorem parse_struct_def_eats (hfuel : k < r.fuel) : Eats remaining k (parse_struct_def r) := by
  refine newStruct_halts.bind_eats fun _ => (consume_eats (by decide)).bind fun j hj _ =>
    structName_halts.bind fun _ => (consume_halts _).bind fun _ => Halts.bind ?_ fun d =>
      (consume_halts _).bind fun _ => modifyStruct_halts _
  have hfuel := Nat.lt_trans hj hfuel
  refine Turns.cycle (fun d => (halts_gets _).bind_turns fun b => ?_) hfuel _
  split
  · exact turns_end _
  · exact ((structMember_eats hfuel d.1 d.2).bind fun i _ curroff => halts_pure _).turns

theorem parse_typedef_eats (hfuel : k < r.fuel) : Eats remaining k (parse_typedef r) := by
  refine (consume_eats (by decide)).bind fun j hj _ => (halts_gets _).bind fun t => ?_
  have hfuel := Nat.lt_trans hj hfuel
  split
  · refine (parse_struct_def_eats hfuel).halts.bind fun _ => (consume_halts _).bind fun a_tok =>
      (consume_halts _).bind fun _ => (leaning_halts _).bind fun e => Halts.bind ?_ fun _ =>
        modifyStruct_halts _
    split
    · exact halts_pure _
    · exact newStruct_halts
  · exact exit_halts 1

end Parser

end Eke
