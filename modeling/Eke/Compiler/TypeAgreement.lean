/-
The two computations of an expression's type.

`get_node_type` is asked for the two sides of an assignment, `sema_analyze` wherever else a value
goes.  Both look a variable up by its name, so they agree there, and they add and take the same
levels of pointers.  A call has a type in one of them only.  The node of a global variable keeps
the type it was declared with, without its pointer level, and that is what one of them returns; the
other one looks the name up.  A member has its own type in one of them and the type of the whole
object in the other.  `types_agree` says that there is nothing else in which they differ.
-/
import Eke.Compiler.Sema
import Eke.Compiler.Trees

namespace Eke

open Prog

/-! ### Nodes of a tree -/

/-- The trees a kind of node holds. -/
def Kind.parts : Kind → List Node
  | .func _ args body _ _ _ => [args, body]
  | .block body => [body]
  | .var _ _ value => [value]
  | .int _ => []
  | .elem expr => [expr]
  | .bin _ left right => [left, right]
  | .if_ cond then_stmt else_stmt => [cond, then_stmt, else_stmt]
  | .while_ cond then_stmt _ => [cond, then_stmt]
  | .return_ value => [value]
  | .call _ args _ => [args]
  | .assign _ _ left right => [left, right]
  | .str _ => []
  | .gvar _ _ _ value => [value]
  | .pointer expr value => [expr, value]
  | .addr expr => [expr]
  | .break_ => []
  | .continue_ => []
  | .arr_access expr => [expr]
  | .mem_access par_expr _ _ _ _ => [par_expr]
  | .preinc expr => [expr]
  | .predec expr => [expr]
  | .postinc expr => [expr]
  | .postdec expr => [expr]

/-- A node is a tree's root or stands below it. -/
inductive Occurs (n : Node) : Node → Prop
  | root : Occurs n n
  | part {t : Int} {k : Kind} {ix next p : Node} (hp : p ∈ k.parts) (h : Occurs n p) :
      Occurs n (.mk t k ix next)
  | index {t : Int} {k : Kind} {ix next : Node} (h : Occurs n ix) : Occurs n (.mk t k ix next)
  | behind {t : Int} {k : Kind} {ix next : Node} (h : Occurs n next) : Occurs n (.mk t k ix next)

/-- A member is a member of something, and a function returns what its text says. -/
def Kind.Regular : Kind → Prop
  | .mem_access par_expr _ _ _ _ => IsObject par_expr
  | .func _ _ _ returntype _ _ => Parser.Starts returntype
  | _ => True

/-- All nodes of a tree are so. -/
def Regular (n : Node) : Prop := ∀ t k ix next, Occurs (.mk t k ix next) n → k.Regular

section

variable {n m : Node} {ns : List Node} {t : Int} {k : Kind} {ix next : Node}

theorem Occurs.trans {a b c : Node} (h : Occurs a b) (h' : Occurs b c) : Occurs a c := by
  induction h' with
  | root => exact h
  | part hp _ ih => exact .part hp ih
  | index _ ih => exact .index ih
  | behind _ ih => exact .behind ih

theorem Regular.null : Regular .null := by
  intro t k ix next h
  cases h

theorem Regular.node (hk : k.Regular) (hparts : ∀ p ∈ k.parts, Regular p) (hix : Regular ix)
    (hnext : Regular next) : Regular (.mk t k ix next) := by
  intro t' k' ix' next' h
  cases h with
  | root => exact hk
  | part hp h => exact hparts _ hp _ _ _ _ h
  | index h => exact hix _ _ _ _ h
  | behind h => exact hnext _ _ _ _ h

theorem Regular.kind (h : Regular (.mk t k ix next)) : k.Regular := h t k ix next .root

theorem Regular.below (h : Regular n) (hm : Occurs m n) : Regular m :=
  fun t k ix next hocc => h t k ix next (hocc.trans hm)

theorem Regular.part (h : Regular (.mk t k ix next)) {p : Node} (hp : p ∈ k.parts) : Regular p :=
  h.below (.part hp .root)

/-- A single node, with nothing linked to it. -/
theorem Regular.single (hk : k.Regular) (hparts : ∀ p ∈ k.parts, Regular p) :
    Regular (.mk t k .null .null) :=
  .node hk hparts .null .null

theorem Regular.setNext (h : Regular n) (hm : Regular m) : Regular (n.setNext m) := by
  cases n with
  | null => exact .null
  | mk t k ix next => exact .node h.kind (fun p hp => h.part hp) (h.below (.index .root)) hm

theorem Regular.append : ∀ {n m : Node}, Regular n → Regular m → Regular (n.append m)
  | .null, _, _, hm => hm
  | .mk _ _ _ _, _, h, hm =>
      .node h.kind (fun _ hp => h.part hp) (h.below (.index .root))
        (Regular.append (h.below (.behind .root)) hm)

theorem chain_regular : ∀ {ns : List Node}, (∀ n ∈ ns, Regular n) → Regular (chain ns)
  | [], _ => .null
  | n :: _, h =>
      (h n (List.mem_cons_self ..)).setNext (chain_regular fun a ha => h a (List.mem_cons_of_mem _ ha))

theorem argChain_regular : ∀ {ns : List Node}, (∀ n ∈ ns, Regular n) → Regular (argChain ns)
  | [], _ => .null
  | [n], h => h n (List.mem_singleton_self n)
  | n :: _ :: _, h =>
      (h n (List.mem_cons_self ..)).setNext
        (argChain_regular fun a ha => h a (List.mem_cons_of_mem _ ha))

theorem indexChain_regular : ∀ {ns : List Node}, (∀ n ∈ ns, Regular n) → Regular (indexChain ns)
  | [], _ => .null
  | n :: _, h =>
      .node trivial (by simpa [Kind.parts] using h n (List.mem_cons_self ..))
        (indexChain_regular fun a ha => h a (List.mem_cons_of_mem _ ha)) .null

theorem forBody_regular (h : Regular n) (hm : Regular m) : Regular (Parser.forBody n m) := by
  unfold Parser.forBody
  split
  · refine .node trivial ?_ (h.below (.index .root)) (h.below (.behind .root))
    simpa [Kind.parts] using (h.part (List.mem_singleton_self _)).append hm
  · exact .single trivial (by simpa [Kind.parts] using h.append hm)

/-- The node of a kind that asks nothing, with one tree below it. -/
theorem Regular.over {e : Node} (hk : k.Regular) (hparts : k.parts = [e]) (he : Regular e) :
    Regular (.mk t k .null .null) :=
  .single hk (by simpa [hparts] using he)

theorem grammar_regular : Grammar Regular Regular Regular Regular where
  int _ _ := .single trivial nofun
  str _ _ := .single trivial nofun
  name hk hes := by
    obtain ⟨dt, offset, rfl⟩ | ⟨name, dt, offset, rfl⟩ := hk
    · exact .node trivial (by simpa [Kind.parts] using Regular.null) (indexChain_regular hes) .null
    · exact .node trivial (by simpa [Kind.parts] using Regular.null) (indexChain_regular hes) .null
  pointer h := .single trivial (by simpa [Kind.parts] using ⟨h, Regular.null⟩)
  addr h := .over trivial rfl h
  preinc h := .over trivial rfl h
  predec h := .over trivial rfl h
  postinc h := .over trivial rfl h
  postdec h := .over trivial rfl h
  bin h h' := .single trivial (by simpa [Kind.parts] using ⟨h.setNext .null, h'⟩)
  call h := .over trivial rfl (argChain_regular h)
  access h hobject := .over hobject rfl h
  nothing := .null
  list h := by
    refine chain_regular fun n hn => ?_
    obtain ⟨e, he, rfl⟩ := List.mem_map.mp hn
    exact .over trivial rfl (h e he)
  value h := h
  declared h := .over trivial rfl h
  line h := chain_regular h
  expression h := h
  empty := .null
  append h h' := h.append h'
  block h := .over trivial rfl h
  return_ h := by
    rcases h with rfl | h
    · exact .over trivial rfl .null
    · exact .over trivial rfl h
  if_ hcond h h' := .single trivial (by simpa [Kind.parts] using ⟨hcond, h, h'⟩)
  while_ hcond h := .single trivial (by simpa [Kind.parts] using ⟨hcond, h⟩)
  setNext h h' := h.setNext h'
  forBody h h' := forBody_regular h h'
  assign h h' := .single trivial (by simpa [Kind.parts] using ⟨h, h'⟩)
  break_ _ := .single trivial nofun
  continue_ _ := .single trivial nofun
  globals h := by
    refine chain_regular fun n hn => ?_
    obtain ⟨t, name, dt, offset, value, rfl, hv⟩ := h n hn
    exact .over trivial rfl hv
  func hstarts hps hbody := by
    have hargs : Regular (chain _) := chain_regular fun n hn => by
      obtain ⟨t, dt, offset, rfl⟩ := hps n hn
      exact .over trivial rfl .null
    refine .single hstarts ?_
    rcases hbody with rfl | hbody
    · simpa [Kind.parts] using ⟨hargs, Regular.null⟩
    · simpa [Kind.parts] using ⟨hargs, hbody⟩

end

namespace Sema

variable (S : Parser)

/-! ### Where the two agree -/

/-- The type an object of members has: that of the name it starts with. -/
def objectType : Node → Int
  | .mk t k _ _ => match k with
    | .var _ _ _ => (S.symtab (find_symbol S (S.tokenAt t.toNat).name).toNat).typeCode
    | .gvar _ dt _ _ => dt
    | .mem_access par_expr _ _ _ _ => objectType par_expr
    | _ => T_VOID
  | .null => T_VOID

/-- An expression has one type only: the node of a global variable holds the type with its pointer
level, a call is one of `printf`, and a member is of the type of the object it belongs to. -/
def JudgedAlike : Node → Prop
  | .mk _ k _ _ => match k with
    | .addr expr => JudgedAlike expr
    | .pointer expr _ => JudgedAlike expr
    | .gvar name dt _ _ => (S.symtab (find_symbol S name).toNat).typeCode = dt
    | .call name _ _ => name = ['p', 'r', 'i', 'n', 't', 'f']
    | .mem_access par_expr _ _ dt _ => dt = objectType S par_expr
    | _ => True
  | .null => True

variable {S} {c d c' d' : Node} {T U : Int} {t : Int} {k : Kind} {ix next : Node}

theorem symbolOf_ok {e : Record} (h : symbolOf S t c = .ok e d) :
    e = S.symtab (find_symbol S (S.tokenAt t.toNat).name).toNat := by
  obtain ⟨name, u, hname, h⟩ := bind_ok_iff.mp h
  unfold tokenText at hname
  split at hname
  · obtain ⟨rfl, rfl⟩ := Out.ok.inj hname
    split at h
    · cases h
    · exact (Out.ok.inj h).1.symm
  · cases hname

/-- A variable in use or declared, whatever it is initialized with. -/
theorem analyze_var {dt offset : Int} {value : Node}
    (h : sema_analyze S (.mk t (.var dt offset value) ix next) c = .ok U d) :
    U = (S.symtab (find_symbol S (S.tokenAt t.toNat).name).toNat).typeCode := by
  rw [sema_analyze, sema_kind] at h
  obtain ⟨e, u, he, h⟩ := bind_ok_iff.mp h
  rw [← symbolOf_ok (t := t) he]
  refine (?_ : Yields (fun U => U = e.typeCode) _) u U d h
  split
  · split
    · exact yields_then fun _ => yields_then fun _ => yields_pure rfl
    · exact yields_then fun _ => yields_then fun _ => yields_pure rfl
  split
  · exact yields_then fun _ => yields_then fun _ => yields_pure rfl
  · exact yields_pure rfl

/-- An object has the type of the name it starts with. -/
theorem analyze_object : ∀ {n : Node}, Regular n → IsObject n → sema_analyze S n c = .ok U d →
    U = objectType S n
  | .mk t (.var dt offset value) ix next, _, _, h => analyze_var h
  | .mk t (.gvar name dt offset value) ix next, _, _, h => by
      rw [sema_analyze, sema_kind] at h
      exact (Out.ok.inj h).1.symm
  | .mk t (.mem_access par_expr op offset dt id) ix next, hreg, _, h => by
      rw [sema_analyze, sema_kind] at h
      have hobject : IsObject par_expr := Regular.kind hreg
      exact analyze_object (n := par_expr) (hreg.part (p := par_expr) (List.mem_singleton_self _)) hobject h

theorem signature_ok {p args def_arg : Node} {returntype : Int}
    (h : signature p args c = .ok (def_arg, returntype) d) :
    ∃ t name body bytes argcount ix next,
      p = .mk t (.func name def_arg body returntype bytes argcount) ix next := by
  have hno : ∀ {x : Sema (Node × Int)}, x = (if args.isSome then undefined else sema_error) →
      x c ≠ .ok (def_arg, returntype) d := by
    rintro x rfl hx
    split at hx
    · cases hx
    · cases hx
  cases p with
  | null => exact (hno rfl h).elim
  | mk t k ix next =>
      cases k with
      | func name ps body rt bytes argcount =>
          cases h
          exact ⟨t, name, body, bytes, argcount, ix, next, rfl⟩
      | _ => exact (hno rfl h).elim

/-- What a called function returns. -/
theorem target_returns (hS : Parser.Entries Regular S) {name : Name} {p args def_arg : Node} {returntype : Int}
    (hp : target S name = some p) (h : signature p args c = .ok (def_arg, returntype) d) :
    Parser.Starts returntype := by
  obtain ⟨e, he, rfl⟩ := Option.map_eq_some_iff.mp hp
  have hreg : Regular e.p := (hS e (List.mem_of_find?_eq_some he)).2
  obtain ⟨id, name, p⟩ := e
  rcases signature_ok h with ⟨t, name, body, bytes, argcount, ix, next, rfl⟩
  exact hreg.kind

/-- A call, by its two cases. -/
theorem analyze_call (hS : Parser.Entries Regular S) {name : Name} {args : Node} {argcount : Int}
    (h : sema_analyze S (.mk t (.call name args argcount) ix next) c = .ok U d) :
    (name = ['p', 'r', 'i', 'n', 't', 'f'] ∧ U = T_VOID) ∨
      (name ≠ ['p', 'r', 'i', 'n', 't', 'f'] ∧ Parser.Starts U) := by
  rw [sema_analyze, sema_kind] at h
  split at h
  · rename_i hname
    obtain ⟨_, u, -, h⟩ := bind_ok_iff.mp h
    obtain ⟨_, v, -, h⟩ := bind_ok_iff.mp h
    exact .inl ⟨hname, (Out.ok.inj h).1.symm⟩
  · rename_i hname
    cases hp : target S name with
    | none =>
        rw [hp] at h
        cases h
    | some p =>
        rw [hp] at h
        obtain ⟨⟨def_arg, returntype⟩, u, hsig, h⟩ := bind_ok_iff.mp h
        obtain ⟨_, v, -, h⟩ := bind_ok_iff.mp h
        obtain ⟨rfl, -⟩ := Out.ok.inj h
        exact .inr ⟨hname, target_returns hS hp hsig⟩

theorem starts_ne_void (h : Parser.Starts T) : T_VOID ≠ T := by
  unfold Parser.Starts at h
  rintro rfl
  revert h
  decide

/-- Both give a fixed type. -/
theorem agrees_of {n : Node} {v : Int} (hget : Yields (fun T => T = v) (get_node_type S n))
    (hsema : Yields (fun U => U = v) (sema_analyze S n)) (hn : JudgedAlike S n)
    (h : get_node_type S n c = .ok T d) (h' : sema_analyze S n c' = .ok U d') : T = U ↔ JudgedAlike S n :=
  ⟨fun _ => hn, fun _ => (hget c T d h).trans (hsema c' U d' h').symm⟩

/-- A node of a kind that neither of them has a case for. -/
theorem default_agrees {n : Node} (hget : get_node_type S n = pure T_VOID)
    (hsema : sema_analyze S n = (do
      let _ ← sema_analyze S n.next
      let _ ← sema_analyze S n.next
      pure T_VOID))
    (hn : JudgedAlike S n) (h : get_node_type S n c = .ok T d) (h' : sema_analyze S n c' = .ok U d') :
    T = U ↔ JudgedAlike S n := by
  refine agrees_of (v := T_VOID) ?_ ?_ hn h h'
  · rw [hget]
    exact yields_pure rfl
  · rw [hsema]
    exact yields_then fun _ => yields_then fun _ => yields_pure rfl

/-- A node of an expression, wherever it is linked. -/
def IsOperand : Node → Prop
  | .null => False
  | .mk _ k _ _ => ExpressionKind k

theorem operand_of {n : Node} (h : IsExpression n) : IsOperand n := by
  cases n with
  | null => exact h
  | mk t k ix next => exact h.1

/-- A step up or down a level keeps the two types apart or together. -/
theorem expression_agrees (hS : Parser.Entries Regular S) : ∀ {n : Node} {T U : Int} {c d c' d' : Node},
    IsOperand n → Regular n → get_node_type S n c = .ok T d → sema_analyze S n c' = .ok U d' →
      (T = U ↔ JudgedAlike S n)
  | .null, _, _, _, _, _, _, hn, _, _, _ => hn.elim
  | .mk t (.addr e) ix next, _, _, _, _, _, _, hn, hreg, h, h' => by
      rw [get_node_type] at h
      rw [sema_analyze, sema_kind] at h'
      obtain ⟨T, u, h, hT⟩ := bind_ok_iff.mp h
      obtain ⟨U, v, h', hU⟩ := bind_ok_iff.mp h'
      cases hT
      cases hU
      have hbelow := expression_agrees hS (operand_of hn)
        (hreg.part (p := e) (List.mem_singleton_self _)) h h'
      exact Iff.trans (by omega) hbelow
  | .mk t (.pointer e v) ix next, _, _, _, _, _, _, hn, hreg, h, h' => by
      rw [get_node_type] at h
      rw [sema_analyze, sema_kind] at h'
      obtain ⟨T, u, h, hT⟩ := bind_ok_iff.mp h
      obtain ⟨U, v, h', hU⟩ := bind_ok_iff.mp h'
      have hbelow := expression_agrees hS (operand_of hn.1)
        (hreg.part (p := e) (List.mem_cons_self ..)) h h'
      split at hT
      · cases hT
      split at hU
      · cases hU
      cases hT
      cases hU
      exact Iff.trans (by omega) hbelow
  | .mk t (.var dt offset v) ix next, _, _, _, _, _, _, _, _, h, h' => by
      rw [get_node_type] at h
      obtain ⟨e, u, he, h⟩ := bind_ok_iff.mp h
      obtain ⟨rfl, -⟩ := Out.ok.inj h
      rw [symbolOf_ok he, analyze_var h']
      exact ⟨fun _ => trivial, fun _ => rfl⟩
  | .mk t (.gvar name dt offset v) ix next, _, _, _, _, _, _, _, _, h, h' => by
      rw [get_node_type] at h
      rw [sema_analyze, sema_kind] at h'
      obtain ⟨rfl, -⟩ := Out.ok.inj h'
      split at h
      · cases h
      · obtain ⟨rfl, -⟩ := Out.ok.inj h
        exact Iff.rfl
  | .mk t (.call name args argcount) ix next, _, _, _, _, _, _, _, _, h, h' => by
      simp only [get_node_type] at h
      obtain ⟨rfl, -⟩ := Out.ok.inj h
      obtain ⟨hname, rfl⟩ | ⟨hname, hstarts⟩ := analyze_call hS h'
      · exact ⟨fun _ => hname, fun _ => rfl⟩
      · exact ⟨fun hvoid => (starts_ne_void hstarts hvoid).elim, fun hprintf => (hname hprintf).elim⟩
  | .mk t (.mem_access par_expr op offset dt id) ix next, _, _, _, _, _, _, _, hreg, h, h' => by
      rw [get_node_type] at h
      rw [sema_analyze, sema_kind] at h'
      obtain ⟨rfl, -⟩ := Out.ok.inj h
      have hobject : IsObject par_expr := Regular.kind hreg
      rw [analyze_object (hreg.part (p := par_expr) (List.mem_singleton_self _)) hobject h']
      exact Iff.rfl
  | .mk t (.int v) ix next, _, _, _, _, _, _, _, _, h, h' =>
      agrees_of (v := T_INT) (by rw [get_node_type]; exact yields_pure rfl)
        (by rw [sema_analyze, sema_kind]; exact yields_pure rfl) trivial h h'
  | .mk t (.str v) ix next, _, _, _, _, _, _, _, _, h, h' =>
      agrees_of (v := T_STRING) (by rw [get_node_type]; exact yields_pure rfl)
        (by rw [sema_analyze, sema_kind]; exact yields_pure rfl) trivial h h'
  | .mk t (.bin op left right) ix next, _, _, _, _, _, _, _, _, h, h' => by
      refine agrees_of (v := T_INT) (by rw [get_node_type]; exact yields_pure rfl) ?_ trivial h h'
      rw [sema_analyze, sema_kind]
      exact yields_then fun _ => yields_then fun _ => yields_then fun _ => yields_pure rfl
  | .mk t (.preinc e) ix next, _, _, _, _, _, _, _, _, h, h' => default_agrees rfl rfl trivial h h'
  | .mk t (.predec e) ix next, _, _, _, _, _, _, _, _, h, h' => default_agrees rfl rfl trivial h h'
  | .mk t (.postinc e) ix next, _, _, _, _, _, _, _, _, h, h' => default_agrees rfl rfl trivial h h'
  | .mk t (.postdec e) ix next, _, _, _, _, _, _, _, _, h, h' => default_agrees rfl rfl trivial h h'

/-- In a program that was parsed, an expression wherever it occurs. -/
theorem types_agree {fuel : Nat} {tokens : List Token} {s : Parser} (hp : Parser.parse fuel tokens s = .ok () S)
    {e : Globalentry} (he : e ∈ S.global_table) {n : Node} (hocc : Occurs n e.p) (hn : IsOperand n)
    (hget : get_node_type S n c = .ok T d) (hsema : sema_analyze S n c' = .ok U d') :
    T = U ↔ JudgedAlike S n := by
  have hS : Parser.Entries Regular S := Parser.parse_entries grammar_regular hp
  exact expression_agrees hS hn ((hS e he).2.below hocc) hget hsema

/-! ### Two programs -/

/-- The value the first variable of a function starts with: a call without arguments, or the
address of a global variable. -/
def firstValue : Node → Option Node
  | .mk _ (.func _ _ (.mk _ (.block (.mk _ (.var _ _ (.mk t (.call name .null c) ix nx)) _ _)) _ _) _ _ _) _ _ =>
      some (.mk t (.call name .null c) ix nx)
  | .mk _ (.func _ _ (.mk _ (.block (.mk _ (.var _ _ (.mk t (.addr (.mk t' (.gvar name dt o .null) .null .null)) ix nx))
      _ _)) _ _) _ _ _) _ _ => some (.mk t (.addr (.mk t' (.gvar name dt o .null) .null .null)) ix nx)
  | _ => none

theorem firstValue_occurs {f n : Node} (h : firstValue f = some n) : Occurs n f ∧ IsOperand n := by
  unfold firstValue at h
  split at h
  · cases h
    refine ⟨.part (p := .mk _ _ _ _) (.tail _ (.head _)) (.part (p := .mk _ _ _ _) (.head _)
      (.part (p := .mk _ _ _ _) (.head _) .root)), trivial⟩
  · cases h
    refine ⟨.part (p := .mk _ _ _ _) (.tail _ (.head _)) (.part (p := .mk _ _ _ _) (.head _)
      (.part (p := .mk _ _ _ _) (.head _) .root)), rfl, trivial, rfl⟩
  · cases h

/-- The two types of that value, in the last function of an accepted program. -/
def judged (tokens : List Token) : Option (Int × Int) :=
  match Parser.parse 9 tokens Parser.start with
  | .ok () S =>
      match sema_run_global_analysis S .null, S.global_table.getLast? with
      | .ok () _, some e =>
          match firstValue e.p with
          | some n =>
              match get_node_type S n .null, sema_analyze S n .null with
              | .ok T _, .ok U _ => some (T, U)
              | _, _ => none
          | none => none
      | _, _ => none
  | _ => none

theorem of_judged (tokens : List Token) (h : judged tokens = some (T, U)) :
    ∃ S e n c d d', Parser.parse 9 tokens Parser.start = .ok () S ∧ sema_run_global_analysis S .null = .ok () c ∧
      e ∈ S.global_table ∧ Occurs n e.p ∧ IsOperand n ∧ get_node_type S n .null = .ok T d ∧
        sema_analyze S n .null = .ok U d' := by
  unfold judged at h
  split at h
  case h_2 => cases h
  rename_i S hS
  split at h
  case h_2 => cases h
  rename_i c e hc he
  split at h
  case h_2 => cases h
  rename_i n hn
  split at h
  case h_2 => cases h
  rename_i T' d U' d' hT hU
  cases h
  obtain ⟨hocc, hop⟩ := firstValue_occurs hn
  exact ⟨S, e, n, c, d, d', hS, hc, List.mem_of_getLast? he, hocc, hop, hT, hU⟩

/-- `int g; void f() { int *p = &g; }` -/
def addressText : List Token :=
  [⟨K_INT, "int".toList⟩, ⟨T_IDENTIFIER, ['g']⟩, ⟨';'.toNat, [';']⟩, ⟨K_VOID, "void".toList⟩,
    ⟨T_IDENTIFIER, ['f']⟩, ⟨'('.toNat, ['(']⟩, ⟨')'.toNat, [')']⟩, ⟨'{'.toNat, ['{']⟩,
    ⟨K_INT, "int".toList⟩, ⟨'*'.toNat, ['*']⟩, ⟨T_IDENTIFIER, ['p']⟩, ⟨'='.toNat, ['=']⟩,
    ⟨'&'.toNat, ['&']⟩, ⟨T_IDENTIFIER, ['g']⟩, ⟨';'.toNat, [';']⟩, ⟨'}'.toNat, ['}']⟩, ⟨T_EOF, []⟩]

/-- `int f() { return 1; } void g() { int y = f(); }` -/
def callText : List Token :=
  [⟨K_INT, "int".toList⟩, ⟨T_IDENTIFIER, ['f']⟩, ⟨'('.toNat, ['(']⟩, ⟨')'.toNat, [')']⟩,
    ⟨'{'.toNat, ['{']⟩, ⟨K_RETURN, "return".toList⟩, ⟨T_INT, ['1']⟩, ⟨';'.toNat, [';']⟩,
    ⟨'}'.toNat, ['}']⟩, ⟨K_VOID, "void".toList⟩, ⟨T_IDENTIFIER, ['g']⟩, ⟨'('.toNat, ['(']⟩,
    ⟨')'.toNat, [')']⟩, ⟨'{'.toNat, ['{']⟩, ⟨K_INT, "int".toList⟩, ⟨T_IDENTIFIER, ['y']⟩,
    ⟨'='.toNat, ['=']⟩, ⟨T_IDENTIFIER, ['f']⟩, ⟨'('.toNat, ['(']⟩, ⟨')'.toNat, [')']⟩, ⟨';'.toNat, [';']⟩,
    ⟨'}'.toNat, ['}']⟩, ⟨T_EOF, []⟩]

theorem types_agree_address : ∃ S e n, Parser.parse 9 addressText Parser.start = .ok () S ∧
    e ∈ S.global_table ∧ Occurs n e.p ∧ IsOperand n ∧ JudgedAlike S n := by
  obtain ⟨S, e, n, c, d, d', hp, -, he, hocc, hn, hget, hsema⟩ :=
    of_judged addressText (T := K_INT + 1000) (U := K_INT + 1000) (by decide +kernel)
  exact ⟨S, e, n, hp, he, hocc, hn, (types_agree hp he hocc hn hget hsema).mp rfl⟩

/-- The program is accepted, and the call in it is of two types. -/
theorem call_disagrees : ∃ S e n c d d', Parser.parse 9 callText Parser.start = .ok () S ∧
    sema_run_global_analysis S .null = .ok () c ∧ e ∈ S.global_table ∧ Occurs n e.p ∧ IsOperand n ∧
      get_node_type S n .null = .ok T_VOID d ∧ sema_analyze S n .null = .ok K_INT d' ∧ T_VOID ≠ K_INT := by
  obtain ⟨S, e, n, c, d, d', hp, hc, he, hocc, hn, hget, hsema⟩ :=
    of_judged callText (T := T_VOID) (U := K_INT) (by decide +kernel)
  exact ⟨S, e, n, c, d, d', hp, hc, he, hocc, hn, hget, hsema, by decide⟩

end Sema

end Eke
