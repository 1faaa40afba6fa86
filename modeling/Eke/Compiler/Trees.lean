/-
The trees the parser builds.

An expression is built from literals, names in use, calls and operators; a use of a name may
have index expressions, linked through `indnxt`.  A statement is one node, or the chain of
declarations one line makes.  No statement stands inside an expression and no function
inside a statement.

One pass over the parser serves every property of trees: a `Grammar` says that the productions
keep it, and then it holds of what the parser returns.
-/
import Eke.Compiler.ParameterList

namespace Eke

open Prog

mutual

def ExpressionKind : Kind → Prop
  | .int _ => True
  | .str _ => True
  | .var _ _ value => value = .null
  | .gvar _ _ _ value => value = .null
  | .bin _ left right => IsExpression left ∧ IsExpression right
  | .call _ args _ => IsArguments args
  | .mem_access par_expr _ _ _ _ => IsExpression par_expr
  | .addr expr => IsExpression expr
  | .pointer expr value => IsExpression expr ∧ value = .null
  | .preinc expr => IsExpression expr
  | .predec expr => IsExpression expr
  | .postinc expr => IsExpression expr
  | .postdec expr => IsExpression expr
  | _ => False

/-- A single expression. -/
def IsExpression : Node → Prop
  | .null => False
  | .mk _ k ix next => ExpressionKind k ∧ AreIndexes ix ∧ next = .null

/-- Expressions linked through `next`. -/
def IsArguments : Node → Prop
  | .null => True
  | .mk _ k ix next => ExpressionKind k ∧ AreIndexes ix ∧ IsArguments next

/-- The index expressions of a name. -/
def AreIndexes : Node → Prop
  | .null => True
  | .mk _ (.arr_access e) ix next => IsExpression e ∧ AreIndexes ix ∧ next = .null
  | _ => False

end

/-- The elements of an initializer list. -/
def AreElements : Node → Prop
  | .null => True
  | .mk _ (.elem e) ix next => IsExpression e ∧ ix = .null ∧ AreElements next
  | _ => False

/-- What a variable is initialized with. -/
def IsInitializer (value : Node) : Prop := AreElements value ∨ IsExpression value

mutual

def StatementKind : Kind → Prop
  | .block body => AreStatements body
  | .if_ cond then_stmt else_stmt => IsExpression cond ∧ AreStatements then_stmt ∧ AreStatements else_stmt
  | .while_ cond then_stmt _ => IsExpression cond ∧ AreStatements then_stmt
  | .return_ value => value = .null ∨ IsExpression value
  | .assign _ _ left right => IsExpression left ∧ IsExpression right
  | .var _ _ value => IsInitializer value
  | .break_ => True
  | .continue_ => True
  | k => ExpressionKind k

/-- Statements linked through `next`. -/
def AreStatements : Node → Prop
  | .null => True
  | .mk _ k ix next => StatementKind k ∧ AreIndexes ix ∧ AreStatements next

end

/-- The parameters of a function. -/
def AreParams : Node → Prop
  | .null => True
  | .mk _ (.var _ _ value) ix next => value = .null ∧ ix = .null ∧ AreParams next
  | _ => False

/-- An entry of the global table. -/
def IsEntry : Node → Prop
  | .mk _ (.func _ args body _ _ _) ix next =>
      AreParams args ∧ AreStatements body ∧ ix = .null ∧ next = .null
  | .mk _ (.gvar _ _ _ value) _ _ => IsInitializer value
  | _ => False

/-- A name in use. -/
def NamesSymbol (k : Kind) : Prop :=
  (∃ dt offset, k = .var dt offset .null) ∨ ∃ name dt offset, k = .gvar name dt offset .null

/-- What has members: a name, or a member. -/
def IsObject : Node → Prop
  | .mk _ (.var _ _ _) _ _ => True
  | .mk _ (.gvar _ _ _ _) _ _ => True
  | .mk _ (.mem_access _ _ _ _ _) _ _ => True
  | _ => False

/-- A parameter, on its own. -/
def IsParam (n : Node) : Prop := ∃ t dt offset, n = .mk t (.var dt offset .null) .null .null

/-- An element of an initializer list, on its own. -/
def element (e : Node) : Node := .mk 0 (.elem e) .null .null

/-- A variable of the program, on its own. -/
def IsGlobal (I : Node → Prop) (n : Node) : Prop :=
  ∃ t name dt offset value, n = .mk t (.gvar name dt offset value) .null .null ∧ I value

/-- Properties of expressions, initializers, statements and entries of the global table that the
productions of the parser keep. -/
structure Grammar (E I A T : Node → Prop) : Prop where
  int : ∀ t v, E (.mk t (.int v) .null .null)
  str : ∀ t s, E (.mk t (.str s) .null .null)
  name : ∀ {t k} {es : List Node}, NamesSymbol k → (∀ e ∈ es, E e) → E (.mk t k (indexChain es) .null)
  pointer : ∀ {t e}, E e → E (.mk t (.pointer e .null) .null .null)
  addr : ∀ {t e}, E e → E (.mk t (.addr e) .null .null)
  preinc : ∀ {t e}, E e → E (.mk t (.preinc e) .null .null)
  predec : ∀ {t e}, E e → E (.mk t (.predec e) .null .null)
  postinc : ∀ {t e}, E e → E (.mk t (.postinc e) .null .null)
  postdec : ∀ {t e}, E e → E (.mk t (.postdec e) .null .null)
  bin : ∀ {t op left right}, E left → E right → E (.mk t (.bin op (left.setNext .null) right) .null .null)
  call : ∀ {t name c} {args : List Node}, (∀ a ∈ args, E a) → E (.mk t (.call name (argChain args) c) .null .null)
  access : ∀ {t left op offset dt id}, E left → IsObject left →
    E (.mk t (.mem_access left op offset dt id) .null .null)
  nothing : I .null
  list : ∀ {es : List Node}, (∀ e ∈ es, E e) → I (chain (es.map element))
  value : ∀ {e}, E e → I e
  declared : ∀ {t dt offset v}, I v → A (.mk t (.var dt offset v) .null .null)
  line : ∀ {ns : List Node}, (∀ n ∈ ns, A n) → A (chain ns)
  expression : ∀ {e}, E e → A e
  empty : A .null
  append : ∀ {n m}, A n → A m → A (n.append m)
  block : ∀ {t head}, A head → A (.mk t (.block head) .null .null)
  return_ : ∀ {t v}, v = .null ∨ E v → A (.mk t (.return_ v) .null .null)
  if_ : ∀ {t cond n m}, E cond → A n → A m → A (.mk t (.if_ cond n m) .null .null)
  while_ : ∀ {t cond n isfor}, E cond → A n → A (.mk t (.while_ cond n isfor) .null .null)
  setNext : ∀ {n m}, A n → A m → A (n.setNext m)
  forBody : ∀ {n m}, A n → A m → A (Parser.forBody n m)
  assign : ∀ {t offset op left right}, E left → E right → A (.mk t (.assign offset op left right) .null .null)
  break_ : ∀ t, A (.mk t .break_ .null .null)
  continue_ : ∀ t, A (.mk t .continue_ .null .null)
  globals : ∀ {ns : List Node}, (∀ n ∈ ns, IsGlobal I n) → T (chain ns)
  func : ∀ {t name} {ps : List Node} {body returntype bytes c}, Parser.Starts returntype → (∀ n ∈ ps, IsParam n) →
    body = .null ∨ A body → T (.mk t (.func name (chain ps) body returntype bytes c) .null .null)

/-! ### Chains -/

section

variable {n m : Node} {ns : List Node} {k : Kind}

theorem ExpressionKind.statement (h : ExpressionKind k) : StatementKind k := by
  cases k with
  | var dt offset value =>
      rw [ExpressionKind] at h
      subst h
      exact Or.inl trivial
  | _ => first | exact h | exact h.elim

theorem IsExpression.statement (h : IsExpression n) : AreStatements n := by
  cases n with
  | null => trivial
  | mk t k ix next =>
      obtain ⟨hk, hix, rfl⟩ := h
      exact ⟨hk.statement, hix, trivial⟩

/-- An expression behind others. -/
theorem IsExpression.link (h : IsExpression n) (hm : IsArguments m) : IsArguments (n.setNext m) := by
  cases n with
  | null => trivial
  | mk t k ix next => exact ⟨h.1, h.2.1, hm⟩

theorem IsExpression.arguments (h : IsExpression n) : IsArguments n := by
  cases n with
  | null => trivial
  | mk t k ix next =>
      obtain ⟨hk, hix, rfl⟩ := h
      exact ⟨hk, hix, trivial⟩

theorem IsExpression.setNext (h : IsExpression n) : IsExpression (n.setNext .null) := by
  cases n with
  | null => exact h
  | mk t k ix next => exact ⟨h.1, h.2.1, rfl⟩

theorem argChain_arguments : ∀ ns : List Node, (∀ n ∈ ns, IsExpression n) → IsArguments (argChain ns)
  | [], _ => trivial
  | [n], h => (h n (List.mem_singleton_self n)).arguments
  | n :: m :: ns, h =>
      (h n (List.mem_cons_self ..)).link
        (argChain_arguments (m :: ns) fun a ha => h a (List.mem_cons_of_mem _ ha))

theorem indexChain_indexes : ∀ ns : List Node, (∀ n ∈ ns, IsExpression n) → AreIndexes (indexChain ns)
  | [], _ => trivial
  | n :: ns, h =>
      ⟨h n (List.mem_cons_self ..), indexChain_indexes ns fun a ha => h a (List.mem_cons_of_mem _ ha), rfl⟩

theorem chain_elements : ∀ es : List Node, (∀ e ∈ es, IsExpression e) → AreElements (chain (es.map element))
  | [], _ => trivial
  | e :: es, h =>
      ⟨h e (List.mem_cons_self ..), rfl, chain_elements es fun a ha => h a (List.mem_cons_of_mem _ ha)⟩

theorem AreStatements.setNext (h : AreStatements n) (hm : AreStatements m) : AreStatements (n.setNext m) := by
  cases n with
  | null => trivial
  | mk t k ix next => exact ⟨h.1, h.2.1, hm⟩

theorem AreStatements.append : ∀ {n m : Node}, AreStatements n → AreStatements m → AreStatements (n.append m)
  | .null, _, _, hm => hm
  | .mk _ _ _ _, _, h, hm => ⟨h.1, h.2.1, AreStatements.append h.2.2 hm⟩

theorem chain_statements : ∀ ns : List Node, (∀ n ∈ ns, AreStatements n) → AreStatements (chain ns)
  | [], _ => trivial
  | n :: ns, h =>
      (h n (List.mem_cons_self ..)).setNext
        (chain_statements ns fun a ha => h a (List.mem_cons_of_mem _ ha))

theorem chain_params : ∀ ns : List Node, (∀ n ∈ ns, IsParam n) → AreParams (chain ns)
  | [], _ => trivial
  | n :: ns, h => by
      obtain ⟨t, dt, offset, rfl⟩ := h n (List.mem_cons_self ..)
      exact ⟨rfl, rfl, chain_params ns fun a ha => h a (List.mem_cons_of_mem _ ha)⟩

/-- The statement a loop repeats. -/
theorem forBody_statements (h : AreStatements n) (hm : AreStatements m) :
    AreStatements (Parser.forBody n m) := by
  unfold Parser.forBody
  split
  · exact ⟨AreStatements.append h.1 hm, h.2.1, h.2.2⟩
  · exact ⟨h.append hm, trivial, trivial⟩

end

theorem grammar : Grammar IsExpression IsInitializer AreStatements fun n => n = .null ∨ IsEntry n where
  int _ _ := ⟨trivial, trivial, rfl⟩
  str _ _ := ⟨trivial, trivial, rfl⟩
  name hk hes := by
    refine ⟨?_, indexChain_indexes _ hes, rfl⟩
    obtain ⟨dt, offset, rfl⟩ | ⟨name, dt, offset, rfl⟩ := hk
    · rfl
    · rfl
  pointer h := ⟨⟨h, rfl⟩, trivial, rfl⟩
  addr h := ⟨h, trivial, rfl⟩
  preinc h := ⟨h, trivial, rfl⟩
  predec h := ⟨h, trivial, rfl⟩
  postinc h := ⟨h, trivial, rfl⟩
  postdec h := ⟨h, trivial, rfl⟩
  bin h h' := ⟨⟨h.setNext, h'⟩, trivial, rfl⟩
  call h := ⟨argChain_arguments _ h, trivial, rfl⟩
  access h _ := ⟨h, trivial, rfl⟩
  nothing := Or.inl trivial
  list h := Or.inl (chain_elements _ h)
  value h := Or.inr h
  declared h := ⟨h, trivial, trivial⟩
  line h := chain_statements _ h
  expression h := h.statement
  empty := trivial
  append h h' := h.append h'
  block h := ⟨h, trivial, trivial⟩
  return_ h := ⟨h, trivial, trivial⟩
  if_ hcond h h' := ⟨⟨hcond, h, h'⟩, trivial, trivial⟩
  while_ hcond h := ⟨⟨hcond, h⟩, trivial, trivial⟩
  setNext h h' := h.setNext h'
  forBody h h' := forBody_statements h h'
  assign h h' := ⟨⟨h, h'⟩, trivial, trivial⟩
  break_ _ := ⟨trivial, trivial, trivial⟩
  continue_ _ := ⟨trivial, trivial, trivial⟩
  globals {ns} h := by
    cases ns with
    | nil => exact Or.inl rfl
    | cons n ns =>
        obtain ⟨t, name, dt, offset, value, rfl, hv⟩ := h n (List.mem_cons_self ..)
        exact Or.inr hv
  func _ hps hbody := by
    refine Or.inr ⟨chain_params _ hps, ?_, rfl, rfl⟩
    rcases hbody with rfl | hbody
    · trivial
    · exact hbody

namespace Parser

variable {E I A T : Node → Prop}

/-- The functions the parser calls itself by return expressions and statements. -/
structure Makes (E A : Node → Prop) (r : Calls) : Prop where
  expression : ∀ p, Yields E (r.parse_expression p)
  statement : Yields A r.parse_statement

variable {r : Calls} (G : Grammar E I A T) (hr : Makes E A r)

/-! ### Expressions -/

theorem useKind_names (id : Int) : Yields NamesSymbol (symbol useKind id) := by
  intro s k s' h
  unfold symbol at h
  split at h
  · cases h
    unfold useKind
    split
    · exact Or.inr ⟨_, _, _, rfl⟩
    · exact Or.inl ⟨_, _, rfl⟩
  · cases h

/-- The left side of a member access that has a struct. -/
theorem structOf_object {left : Node} (h : ¬ IsObject left) : Yields (fun id => id = -1) (structOf left) := by
  unfold structOf
  split
  · rename_i hk
    cases left with
    | null => cases hk
    | mk t k ix next =>
        cases Option.some.inj hk
        exact (h trivial).elim
  · rename_i hk
    cases left with
    | null => cases hk
    | mk t k ix next =>
        cases Option.some.inj hk
        exact (h trivial).elim
  · rename_i hk
    cases left with
    | null => cases hk
    | mk t k ix next =>
        cases Option.some.inj hk
        exact (h trivial).elim
  · exact yields_pure rfl

include hr

theorem callArgs_yields : Yields (fun ns => ∀ n ∈ ns, E n) (callArgs r) := by
  refine yields_cycle (I := fun ns => ∀ n ∈ ns, E n) (fun ns hns => ?_) _ _ (by simp)
  refine yields_then fun m => ?_
  split
  · exact yields_pure hns
  · refine yields_bind (hr.expression 0) fun a ha => yields_then fun _ => yields_pure ?_
    simpa [or_imp, forall_and] using ⟨hns, ha⟩

theorem indexes_yields : Yields (fun ns => ∀ n ∈ ns, E n) (indexes r) := by
  refine yields_cycle (I := fun ns => ∀ n ∈ ns, E n) (fun ns hns => ?_) _ _ (by simp)
  refine yields_then fun m => ?_
  split
  · refine yields_then fun _ => yields_bind (hr.expression 0) fun e he => yields_then fun _ => yields_pure ?_
    simpa [or_imp, forall_and] using ⟨hns, he⟩
  · exact yields_pure hns

/-- The elements of an initializer list, and the expressions they hold. -/
theorem elements_yields : Yields (fun ns => ∃ es : List Node, ns = es.map element ∧ ∀ e ∈ es, E e) (elements r) := by
  refine yields_cycle (I := fun ns => ∃ es : List Node, ns = es.map element ∧ ∀ e ∈ es, E e) (fun ns hns => ?_) _ _
    ⟨[], rfl, by simp⟩
  obtain ⟨es, rfl, hes⟩ := hns
  refine yields_then fun m => ?_
  split
  · exact yields_pure ⟨es, rfl, hes⟩
  · refine yields_bind (hr.expression 0) fun e he => yields_then fun _ => yields_pure ⟨es ++ [e], ?_, ?_⟩
    · rw [List.map_append]
      rfl
    · simpa [or_imp, forall_and] using ⟨hes, he⟩

include G

theorem identifier_yields (t : Token) : Yields E (identifier r t) := by
  refine yields_then fun id => yields_bind (Q := NamesSymbol) ?_ fun kind hk => yields_then fun i =>
    yields_then fun _ => yields_bind (indexes_yields hr) fun es hes => yields_pure (G.name hk hes)
  split
  · exact yields_pure (Or.inl ⟨0, 0, rfl⟩)
  · exact useKind_names id

theorem nud_yields : Yields E (nud r) := by
  have hleaf : ∀ k, (∀ t, E (.mk t k .null .null)) → Yields E (do
      let token_id ← thisToken
      let _ ← advance
      pure (.mk token_id k .null .null)) := fun k hk =>
    yields_then fun i => yields_then fun _ => yields_pure (hk i)
  have hunary : ∀ (p : Int) (f : Node → Kind), (∀ t e, E e → E (.mk t (f e) .null .null)) →
      Yields E (do
        let _ ← advance
        let token_id ← lastToken
        let e ← r.parse_expression p
        pure (.mk token_id (f e) .null .null)) := fun p f hf =>
    yields_then fun _ => yields_then fun i => yields_bind (hr.expression p) fun e he =>
      yields_pure (hf i e he)
  refine yields_then fun t => ?_
  refine yields_ite (hunary 90 (fun e => .pointer e .null) fun _ _ he => G.pointer he) ?_
  refine yields_ite (yields_then fun _ => yields_bind (hr.expression 90) fun e he =>
    yields_pure (G.bin (G.int 0 0) he)) ?_
  refine yields_ite
    (hunary 70 (fun e => if t.type = T_INC then .preinc e else .predec e) fun i e he => ?_) ?_
  · split
    · exact G.preinc he
    · exact G.predec he
  refine yields_ite (hunary 90 .addr fun _ _ he => G.addr he) ?_
  refine yields_ite (hleaf _ fun i => G.int i _) ?_
  refine yields_ite (yields_then fun _ => yields_bind (hr.expression 0) fun e he =>
    yields_then fun _ => yields_pure he) ?_
  refine yields_ite (hleaf _ fun i => G.int i _) ?_
  refine yields_ite (identifier_yields G hr t) ?_
  exact yields_ite (hleaf _ fun i => G.str i _) (yields_exit 1)

theorem led_yields {left : Node} (hleft : E left) : Yields E (led r left) := by
  refine yields_then fun op => ?_
  split
  · exact yields_then fun name => yields_bind (callArgs_yields hr) fun args hargs =>
      yields_then fun _ => yields_pure (G.call hargs)
  split
  · refine yields_then fun memtok => ?_
    by_cases hobject : IsObject left
    · refine yields_then fun id => ?_
      split
      · exact yields_exit 1
      refine yields_then fun e => ?_
      split
      · exact yields_undefined
      split
      · exact yields_then fun _ => yields_pure (G.access hleft hobject)
      · exact yields_pure (G.access hleft hobject)
    · refine yields_bind (structOf_object hobject) fun id hid => ?_
      rw [if_pos hid]
      exact yields_exit 1
  split
  · exact yields_pure (G.postinc hleft)
  split
  · exact yields_pure (G.postdec hleft)
  · exact yields_bind (hr.expression _) fun right hright => yields_pure (G.bin hleft hright)

theorem parse_expression_yields (p : Int) : Yields E (parse_expression r p) := by
  refine yields_bind (nud_yields G hr) fun left hleft =>
    yields_cycle (I := E) (fun left hleft => ?_) _ _ hleft
  refine yields_then fun t => ?_
  split
  · exact yields_bind (led_yields G hr hleft) fun left' h => yields_pure h
  · exact yields_pure hleft

/-! ### Declarations -/

theorem initializer_yields (id te : Int) : Yields (fun v => I v.1) (initializer r id te) := by
  refine yields_then fun t => ?_
  split
  · refine yields_then fun _ => yields_then fun b => ?_
    split
    · refine yields_then fun _ => yields_bind (elements_yields hr) fun ns hns => yields_then fun dim =>
        yields_then fun te => yields_then fun _ => yields_pure ?_
      obtain ⟨es, rfl, hes⟩ := hns
      exact G.list hes
    · exact yields_bind (hr.expression 0) fun e he => yields_pure (G.value he)
  · exact yields_pure G.nothing

theorem declarator_yields (base_type struct_id base_size curroffset : Int) :
    Yields (fun d => A d.1) (declarator r base_type struct_id base_size curroffset) :=
  yields_then fun _ => yields_then fun _ => yields_then fun _ => yields_then fun _ =>
    yields_then fun _ => yields_then fun _ => yields_then fun id => yields_then fun b =>
      yields_bind (initializer_yields G hr id b.2) fun _ hv => yields_then fun _ =>
        yields_pure (G.declared hv)

theorem parse_declaration_yields : Yields A (parse_declaration r) := by
  refine yields_then fun t => yields_then fun b => ?_
  split
  · refine yields_then fun rt => yields_then fun ty => yields_bind (Q := fun d => A (chain d.1))
      ?_ fun d hd => yields_then fun _ => yields_then fun _ => yields_pure hd
    refine yields_cycle (I := fun d => ∀ n ∈ d.1, A n) (fun d hd => ?_) _ _ (by simp)
    refine yields_bind (declarator_yields G hr _ _ _ _) fun n hn => yields_then fun m => ?_
    have hall : ∀ a ∈ d.1 ++ [n.1], A a := by simpa [or_imp, forall_and] using ⟨hd, hn⟩
    split
    · exact yields_pure hall
    · exact yields_pure (G.line hall)
  · exact yields_exit 1

/-! ### Statements -/

theorem parse_block_yields : Yields A (parse_block r) := by
  refine yields_then fun _ => yields_bind (Q := A) ?_ fun head hhead => yields_then fun _ =>
    yields_pure (G.block hhead)
  refine yields_cycle (I := A) (fun head hhead => ?_) _ _ G.empty
  refine yields_then fun m => ?_
  split
  · exact yields_pure hhead
  · exact yields_bind hr.statement fun s hs => yields_pure (G.append hhead hs)

theorem parse_return_yields : Yields A (parse_return r) := by
  refine yields_then fun _ => yields_then fun void =>
    yields_bind (Q := fun v : Node => v = .null ∨ E v) ?_ fun v hv => yields_then fun _ =>
      yields_pure (G.return_ hv)
  split
  · exact yields_pure (Or.inl rfl)
  · exact fun s a s' h => Or.inr (hr.expression 0 s a s' h)

theorem parse_if_stmt_yields : Yields A (parse_if_stmt r) := by
  refine yields_then fun _ => yields_then fun i => yields_then fun _ =>
    yields_bind (hr.expression 0) fun cond hcond => yields_then fun _ =>
      yields_bind hr.statement fun t ht => yields_then fun more =>
        yields_bind (Q := A) ?_ fun e he => yields_pure (G.if_ hcond ht he)
  split
  · exact yields_then fun _ => hr.statement
  · exact yields_pure G.empty

theorem parse_while_yields : Yields A (parse_while r) :=
  yields_then fun _ => yields_then fun _ => yields_then fun _ =>
    yields_bind (hr.expression 0) fun _ hcond => yields_then fun _ =>
      yields_bind hr.statement fun _ ht => yields_pure (G.while_ hcond ht)

theorem assignment_yields {left : Node} (hleft : E left) (token_id : Int) :
    Yields A (assignment r left token_id) :=
  yields_then fun _ => yields_then fun _ => yields_then fun _ => yields_then fun _ =>
    yields_bind (hr.expression 0) fun _ hright => yields_pure (G.assign hleft hright)

theorem parse_for_yields : Yields A (parse_for r) := by
  refine yields_then fun _ => yields_then fun i => yields_then fun _ =>
    yields_bind hr.statement fun init hinit => yields_bind (hr.expression 0) fun cond hcond =>
      yields_then fun _ => yields_bind (hr.expression 0) fun left hleft => yields_then fun t =>
        yields_bind (Q := A) ?_ fun post hpost => yields_then fun _ =>
          yields_bind hr.statement fun body hbody => yields_pure ?_
  · split
    · exact assignment_yields G hr hleft _
    · exact yields_pure (G.expression hleft)
  · exact G.block (G.setNext hinit (G.while_ hcond (G.forBody hbody hpost)))

theorem parse_statement_yields : Yields A (parse_statement r) := by
  have hword : ∀ (t : Int) (k : Kind), (∀ i, A (.mk i k .null .null)) → Yields A (do
      let _ ← consume t
      let _ ← consume ';'.toNat
      pure (.mk 0 k .null .null)) := fun t k hk =>
    yields_then fun _ => yields_then fun _ => yields_pure (hk 0)
  refine yields_then fun tok => yields_then fun b => ?_
  refine yields_ite (parse_declaration_yields G hr) ?_
  refine yields_ite (parse_block_yields G hr) ?_
  refine yields_ite (parse_if_stmt_yields G hr) ?_
  refine yields_ite (parse_while_yields G hr) ?_
  refine yields_ite (hword _ _ G.break_) ?_
  refine yields_ite (hword _ _ G.continue_) ?_
  refine yields_ite (parse_for_yields G hr) ?_
  refine yields_ite (parse_return_yields G hr) ?_
  refine yields_bind (hr.expression 0) fun left hleft => yields_then fun t => ?_
  refine yields_ite ?_ (yields_ite ?_ (yields_exit 1))
  · exact yields_bind (assignment_yields G hr hleft _) fun n hn => yields_then fun _ => yields_pure hn
  · exact yields_then fun _ => yields_pure (G.expression hleft)

omit hr in
theorem calls_make : ∀ n, Makes E A (calls n) := by
  intro n
  induction n with
  | zero => exact ⟨fun _ => yields_more, yields_more⟩
  | succ n ih => exact ⟨parse_expression_yields G ih, parse_statement_yields G ih⟩

/-- The functions the parser calls itself by return such trees. -/
structure Builds (r : Calls) : Prop where
  expression : ∀ p, Yields IsExpression (r.parse_expression p)
  statement : Yields AreStatements r.parse_statement

omit G hr in
theorem calls_build (n : Nat) : Builds (calls n) :=
  ⟨(calls_make grammar n).expression, (calls_make grammar n).statement⟩

/-! ### Entries of the global table -/

theorem globalDeclarator_yields (base_type dt struct_id base_size : Int) :
    Yields (fun d => IsGlobal I d.1) (globalDeclarator r base_type dt struct_id base_size) :=
  yields_then fun _ => yields_then fun d_tok => yields_then fun tid => yields_then fun gbr =>
    yields_then fun _ => yields_then fun _ => yields_then fun id => yields_then fun b =>
      yields_bind (initializer_yields G hr id b.2) fun v hv => yields_then fun _ => yields_then fun _ =>
        yields_pure ⟨tid, d_tok.name, dt, gbr, v.1, rfl, hv⟩

theorem parse_global_declaration_yields : Yields T (parse_global_declaration r) := by
  refine yields_then fun t => yields_then fun b => ?_
  split
  · refine yields_then fun t => yields_then fun ty => yields_bind (Q := fun ns => ∀ n ∈ ns, IsGlobal I n)
      ?_ fun ns hns => yields_then fun _ => yields_pure (G.globals hns)
    refine yields_cycle (I := fun d => ∀ n ∈ d.1, IsGlobal I n) (fun d hd => ?_) _ _ (by simp)
    refine yields_bind (globalDeclarator_yields G hr _ _ _ _) fun n hn => yields_then fun m => ?_
    have hall : ∀ a ∈ d.1 ++ [n.1], IsGlobal I a := by simpa [or_imp, forall_and] using ⟨hd, hn⟩
    split
    · exact yields_pure hall
    · exact yields_pure hall
  · exact yields_exit 1

omit G hr in
theorem param_yields (gt_index : Int) : Yields IsParam (param r gt_index) :=
  yields_then fun _ => yields_then fun _ => yields_then fun _ => yields_then fun _ =>
    yields_then fun _ => yields_then fun _ => yields_then fun _ => yields_then fun _ =>
      yields_then fun _ => yields_then fun token_id => yields_pure ⟨token_id, _, _, rfl⟩

omit G hr in
theorem params_yields (gt_index : Int) : Yields (fun d => ∀ n ∈ d.1, IsParam n) (params r gt_index) := by
  refine yields_cycle (I := fun d => ∀ n ∈ d.1, IsParam n) (fun d hd => ?_) _ _ (by simp)
  refine yields_then fun m => ?_
  split
  · exact yields_pure hd
  refine yields_then fun t => yields_then fun typed => yields_bind (Q := fun ns => ∀ n ∈ ns, IsParam n)
    ?_ fun args hargs => yields_then fun _ => yields_pure hargs
  split
  · refine yields_bind (param_yields gt_index) fun a ha => yields_pure ?_
    simpa [or_imp, forall_and] using ⟨hd, ha⟩
  · exact yields_pure hd

omit G hr in
/-- A type's first token. -/
theorem advance_type {s t u : Parser} {rt : Token} (h : is_type (tokenType s s.tp1) s = .ok true t)
    (hrt : advance t = .ok rt u) : Starts rt.type := by
  obtain ⟨tok, v, htok, hrt⟩ := bind_ok_iff.mp hrt
  obtain ⟨rfl, rfl⟩ := Out.ok.inj htok
  split at hrt
  · obtain ⟨_, w, -, hrt⟩ := bind_ok_iff.mp hrt
    obtain ⟨rfl, rfl⟩ := Out.ok.inj hrt
    have hfront : tokenType t t.tp1 = tokenType s s.tp1 := (is_type_same h).2
    show Starts (tokenType t t.tp1)
    rw [hfront]
    exact (is_type_true h).1
  · cases hrt

theorem parse_function_yields : Yields T (parse_function r) := by
  intro s n s' h
  obtain ⟨tok, t, htok, h⟩ := bind_ok_iff.mp h
  obtain ⟨rfl, rfl⟩ := Out.ok.inj htok
  obtain ⟨b, t, hb, h⟩ := bind_ok_iff.mp h
  cases b with
  | false => cases h
  | true =>
      obtain ⟨rt, u, hrt, h⟩ := bind_ok_iff.mp h
      have hstarts := advance_type hb hrt
      refine (?_ : Yields T _) u n s' h
      refine yields_then fun f_tok => yields_then fun gt => yields_then fun _ =>
        yields_then fun _ => yields_then fun _ => yields_bind (params_yields gt) fun d hd =>
          yields_then fun _ => yields_then fun m => ?_
      split
      · exact yields_then fun _ => yields_pure (G.func hstarts hd (Or.inl rfl))
      · exact yields_then fun _ => yields_bind (parse_block_yields G hr) fun body hbody =>
          yields_then fun _ => yields_pure (G.func hstarts hd (Or.inr hbody))

/-! ### The global table -/

/-- The global table is as it was. -/
def SameEntries (s t : Parser) : Prop := t.global_table = s.global_table

omit G hr

theorem SameEntries.refl (s : Parser) : SameEntries s s := rfl

theorem entries_reading : Reading fun α (x : P α) => Keeps SameEntries x :=
  reading_keeps SameEntries.refl (fun _ _ _ h h' => Eq.trans h' h) fun _ _ h => h.global_table

theorem modifySymbol_entries (id : Int) (f : Record → Record) : Keeps SameEntries (modifySymbol id f) := by
  unfold modifySymbol
  split
  · exact keeps_update fun _ => rfl
  · exact entries_reading.undefined

theorem entries_declaring : Declaring fun α (x : P α) => Keeps SameEntries x where
  toReading := entries_reading
  bp := keeps_gets SameEntries.refl _
  gt_count := keeps_gets SameEntries.refl _
  setBp _ := keeps_update fun _ => rfl
  setGbr _ := keeps_update fun _ => rfl
  add_to_symtab t bp isg gt data_type lvl := by
    refine entries_reading.bind (keeps_gets SameEntries.refl _) fun sp => ?_
    split
    · exact keeps_update fun _ => rfl
    · exact entries_reading.undefined
  dims id := (oldSymbol_still _ _ id).mono fun _ _ h => h.global_table
  setDim id dc v := by
    unfold setDim
    split
    · exact modifySymbol_entries _ _
    · exact entries_reading.undefined
  variable_ _ _ _ _ _ := modifySymbol_entries _ _
  global _ _ _ _ := modifySymbol_entries _ _
  parameter _ _ := modifySymbol_entries _ _

/-- All entries of the global table have the property. -/
def Entries (T : Node → Prop) (s : Parser) : Prop := ∀ e ∈ s.global_table, e.p ≠ .null ∧ T e.p

/-- They stay so. -/
def KeepsEntries (T : Node → Prop) (s t : Parser) : Prop := Entries T s → Entries T t

theorem KeepsEntries.rules : Rules fun α (x : P α) => Keeps (KeepsEntries T) x :=
  keeps_rules (fun _ h => h) fun _ _ _ h h' hs => h' (h hs)

theorem SameEntries.keeps {s t : Parser} (h : SameEntries s t) : KeepsEntries T s t := by
  intro hs e he
  rw [h] at he
  exact hs e he

theorem append_node_entries {n : Node} (hn : T n) : Keeps (KeepsEntries T) (append_node n) := by
  have H : Rules fun α (x : P α) => Keeps (KeepsEntries T) x := KeepsEntries.rules
  have hadd : ∀ name : Name, n ≠ .null → Keeps (KeepsEntries T) (do
      let c ← gt_count
      if c < 256 ∧ name.length < 60 then
        update fun s => { s with global_table := s.global_table ++ [⟨c, name, n⟩] }
      else undefined) := by
    intro name hnull
    refine H.bind (keeps_gets (fun _ h => h) _) fun c => ?_
    split
    · refine keeps_update fun s hs e he => ?_
      rcases List.mem_append.mp he with he | he
      · exact hs e he
      · cases List.mem_singleton.mp he
        exact ⟨hnull, hn⟩
    · exact H.undefined
  cases n with
  | null => exact H.pure _
  | mk t k ix next =>
      unfold append_node
      split
      · exact hadd _ nofun
      · exact hadd _ nofun
      · exact H.pure _

include G

theorem topLevel_entries (hr : Makes E A r) (hc : CallsHave (fun _ x => Keeps SameEntries x) r) :
    Keeps (KeepsEntries T) (topLevel r) := by
  have H : Rules fun α (x : P α) => Keeps (KeepsEntries T) x := KeepsEntries.rules
  have hsame : ∀ {α : Type} {x : P α}, Keeps SameEntries x → Keeps (KeepsEntries T) x :=
    fun h => h.mono fun _ _ => SameEntries.keeps
  refine H.bind (hsame entries_reading.peek) fun tok =>
    H.bind (hsame (keeps_gets SameEntries.refl _)) fun ahead => ?_
  split
  · exact H.pure _
  split
  · exact H.bind (hsame (parse_struct_def_rule entries_reading)) fun _ => H.pure _
  split
  · exact H.bind (hsame (parse_typedef_rule entries_reading)) fun _ => H.pure _
  refine H.bind (hsame (is_type_rule entries_reading.toLooking _)) fun b => ?_
  split
  · intro s b s' h
    obtain ⟨n, t, hn, h⟩ := bind_ok_iff.mp h
    obtain ⟨_, u, hu, h⟩ := bind_ok_iff.mp h
    cases h
    have hst : SameEntries s t ∧ T n := by
      split at hn
      · exact ⟨parse_function_rule entries_declaring.toEntering hc _ _ _ hn, parse_function_yields G hr _ _ _ hn⟩
      · exact ⟨parse_global_declaration_rule entries_declaring.toEntering hc _ _ _ hn,
          parse_global_declaration_yields G hr _ _ _ hn⟩
    exact fun hs => append_node_entries hst.2 _ _ _ hu (hst.1.keeps hs)
  · exact H.bind (hsame entries_reading.forward) fun _ => H.pure _

/-- The global table of a text. -/
theorem parse_entries {n : Nat} {tokens : List Token} {s t : Parser} (h : parse n tokens s = .ok () t) :
    Entries T t := by
  have H : Rules fun α (x : P α) => Keeps (KeepsEntries T) x := KeepsEntries.rules
  have hbody : ∀ u : Unit, Keeps (KeepsEntries T) (do
      if ← topLevel (calls n) then pure (.inl ()) else pure (.inr ()) : P (Unit ⊕ Unit)) := by
    intro _
    refine H.bind (topLevel_entries G (calls_make G n) (calls_have entries_declaring.toEntering n)) fun b => ?_
    split
    · exact H.pure _
    · exact H.pure _
  exact H.cycle hbody _ () _ _ _ h nofun

end Parser

end Eke
