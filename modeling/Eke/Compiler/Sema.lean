/-
Semantic analysis.

It runs over the global table when the whole text has been parsed, and reads the tables as
they are then: they are the parser's last state, `S`.  What it changes is `current_function`.
The type of a pointer is the type it points to plus 1000 for each level.  The cases of the
`switch` for characters are left out, since no node has such a kind, and so are messages.
-/
import Eke.Compiler.Parser

namespace Eke

/-- The type of a symbol, with its pointer level. -/
def Record.typeCode (e : Record) : Int := e.type + e.ptrlvl * 1000

/-- The type of a struct's member, with its pointer level. -/
def Structentry.memberCode (e : Structentry) (i : Nat) : Int := e.mem_type i + e.isptr i * 1000

/-- `entry` without the pointers around it. -/
def Node.entry : Node → Node
  | .mk _ (.pointer expr _) _ _ => expr.entry
  | n => n

/-- Pointer levels match, and so do the types below them. -/
def baseMatches (expected actual : Int) : Bool :=
  let exp_base := expected % 1000
  let act_base := actual % 1000
  expected / 1000 = actual / 1000 ∧
    (exp_base = act_base ∨ exp_base = K_INT ∧ act_base = T_INT ∨ exp_base = T_INT ∧ act_base = K_INT ∨
      exp_base = K_CHAR ∧ act_base = T_INT)

/-- A string goes to a pointer to characters. -/
def isStringPtr (expected actual : Int) : Bool := expected = K_CHAR + 1000 ∧ actual = T_STRING

def types_are_compatible (expected actual : Int) : Bool :=
  expected = actual ∨ isStringPtr expected actual ∨ baseMatches expected actual

/-- The types of the two sides of an assignment. -/
def assignMatches (left_type right_type : Int) : Bool :=
  isStringPtr left_type right_type ∨ left_type = right_type ∨ left_type = K_INT ∧ right_type = T_INT ∨
    left_type = T_INT ∧ right_type = K_INT ∨ left_type = K_CHAR ∧ right_type = T_INT

/-- The types of two operands, of a parameter and its argument, of a function and what it
returns. -/
def valueMatches (expected actual : Int) : Bool :=
  expected = actual ∨ expected = K_INT ∧ actual = T_INT ∨ expected = T_INT ∧ actual = K_INT

abbrev Sema (α : Type) : Type := Prog Node α

namespace Sema

open Prog

def sema_error {α : Type} : Sema α := exit 1

/-- An error, unless the check holds. -/
def check (b : Bool) : Sema Unit := if b then pure () else sema_error

section

variable (S : Parser)

/-- The text of the token a node points at. -/
def tokenText (token_id : Int) : Sema Name :=
  if token_id ≤ S.tokens.length then pure (S.tokenAt token_id.toNat).name else undefined

def find_symbol (name : Name) : Int := Parser.symbolBelow S.symtab name S.sp

/-- The symbol a variable's node means, by its name. -/
def symbolOf (token_id : Int) : Sema Record := do
  let name ← tokenText S token_id
  let id := find_symbol S name
  if id = -1 then sema_error else pure (S.symtab id.toNat)

def get_node_type : Node → Sema Int
  | .null => pure T_VOID
  | .mk t k _ _ => match k with
    | .int _ => pure T_INT
    | .elem _ => pure T_INT
    | .str _ => pure T_STRING
    | .var _ _ _ => do
        let e ← symbolOf S t
        pure e.typeCode
    | .gvar name _ _ _ =>
        let id := find_symbol S name
        if id = -1 then undefined else pure (S.symtab id.toNat).typeCode
    | .pointer expr _ => do
        let child_t ← get_node_type expr
        if child_t < 1000 then sema_error else pure (child_t - 1000)
    | .addr expr => do
        let child_t ← get_node_type expr
        pure (child_t + 1000)
    | .bin _ _ _ => pure T_INT
    | .mem_access _ _ _ dt _ => pure dt
    | _ => pure T_VOID

/-- The entry of the struct a symbol belongs to. -/
def structTable (struct_id : Int) : Sema Structentry :=
  if 0 ≤ struct_id ∧ struct_id < 256 then pure (S.struct_table struct_id.toNat) else undefined

/-- The function that is called by a name: the first entry of the global table. -/
def target (name : Name) : Option Node :=
  (S.global_table.find? fun e => e.name = name).map Globalentry.p

/-- A function's parameters and the type it returns.  In a variable's node its type stands where
a function has its parameters: that is no null pointer, and there is no node behind it. -/
def signature (p : Node) (call_arg : Node) : Sema (Node × Int) :=
  match p.kind? with
  | some (.func _ args _ returntype _ _) => pure (args, returntype)
  | _ => if call_arg.isSome then undefined else sema_error

/-- The type of a parameter. -/
def paramType (def_arg : Node) : Sema Int :=
  match def_arg.kind? with
  | some (.var dt _ _) => pure dt
  | _ => undefined

/-- The type of the value of `return` in the current function. -/
def expectedReturn : Sema Int := do
  let current_function ← gets id
  match current_function.kind? with
  | some (.func _ _ _ returntype _ _) => pure returntype
  | some _ => undefined
  | none => sema_error

mutual

def sema_analyze : Node → Sema Int
  | .null => pure T_VOID
  | .mk t k ix next => sema_kind (.mk t k ix next) (sema_analyze next) k

/-- The cases of the `switch`, for the node `n`; `rest` is the analysis of what is linked behind it. -/
def sema_kind (n : Node) (rest : Sema Int) : Kind → Sema Int
  | .int _ => pure T_INT
  | .elem _ => pure T_INT
  | .str _ => pure T_STRING
  | .assign _ _ left right => do
      let left_type ← get_node_type S left
      let right_type ← get_node_type S right
      check (assignMatches left_type right_type)
      pure right_type
  | .block body => do
      let _ ← sema_analyze body
      let _ ← rest
      pure T_VOID
  | .func _ _ body _ _ _ => do
      update fun _ => n
      let _ ← sema_analyze body
      update fun _ => .null
      let _ ← rest
      pure T_VOID
  | .gvar _ dt _ _ => pure dt
  | .var _ _ value => do
      let e ← symbolOf S n.token_id
      if value.next.isSome then
        if e.struct_id ≠ -1 then do
          let se ← structTable S e.struct_id
          struct_elements se value 0
        else do
          let val ← array_elements e.typeCode value 0
          let limit := e.dim_size 0
          check (¬ (limit > 0 ∧ (val : Int) > limit))
      else if value.isSome then do
        let t ← sema_analyze value
        check (isStringPtr e.typeCode t ∨ baseMatches e.typeCode t)
      else pure ()
      pure e.typeCode
  | .addr expr => do
      let t ← sema_analyze expr
      pure (t + 1000)
  | .pointer expr _ => do
      let t ← sema_analyze expr
      if t < 1000 then sema_error else pure (t - 1000)
  | .bin _ left right => do
      let left_t ← sema_analyze left
      let right_t ← sema_analyze right
      check (left_t ≠ T_STRING ∧ valueMatches left_t right_t)
      pure T_INT
  | .mem_access par_expr _ _ _ _ => sema_analyze par_expr
  | .if_ cond then_stmt else_stmt => do
      let cond_t ← sema_analyze cond
      check (cond_t ≠ T_STRING)
      let _ ← sema_analyze then_stmt
      let _ ← sema_analyze else_stmt
      pure T_VOID
  | .while_ cond then_stmt _ => do
      let cond_t ← sema_analyze cond
      check (cond_t ≠ T_STRING)
      let _ ← sema_analyze then_stmt
      pure T_VOID
  | .call name args _ =>
      if name = ['p', 'r', 'i', 'n', 't', 'f'] then do
        let first_arg_t ← sema_analyze args
        check (args.isSome → first_arg_t = T_STRING)
        pure T_VOID
      else match target S name with
        | none => sema_error
        | some p => do
            let (def_arg, returntype) ← signature p args
            call_args def_arg args
            pure returntype
  | .return_ value => do
      let expected_rt ← expectedReturn
      if value.isSome then do
        let actual_rt ← sema_analyze value
        check (valueMatches expected_rt actual_rt)
      else check (expected_rt = T_VOID)
      pure T_VOID
  -- the default case goes on by itself and leaves the switch, which goes on again
  | _ => do
      let _ ← rest
      let _ ← rest
      pure T_VOID

/-- The elements of a struct's initializer list, the first one for the member `val`. -/
def struct_elements (e : Structentry) : Node → Nat → Sema Unit
  | .null, _ => pure ()
  | .mk _ (.elem expr) _ next, val =>
      if (val : Int) ≥ e.count then sema_error else do
        let ct ← sema_analyze expr
        check (types_are_compatible (e.memberCode val) ct)
        struct_elements e next (val + 1)
  | .mk _ _ _ _, _ => undefined

/-- The elements of an array's initializer list, and their number. -/
def array_elements (my_type : Int) : Node → Nat → Sema Nat
  | .null, val => pure val
  | .mk _ (.elem expr) _ next, val => do
      let ct ← sema_analyze expr
      check (types_are_compatible my_type ct)
      array_elements my_type next (val + 1)
  | .mk _ _ _ _, _ => undefined

/-- The arguments of a call beside the parameters. -/
def call_args : Node → Node → Sema Unit
  | def_arg, .null => check (!def_arg.isSome)
  | def_arg, .mk t k ix next =>
      if def_arg.isSome then do
        let expected_t ← paramType def_arg
        let passed_t ← sema_kind (.mk t k ix next) (sema_analyze next) k
        check (valueMatches expected_t passed_t)
        call_args def_arg.next next
      else sema_error

end

/-- The entries of the global table from one on. -/
def analyze_entries : List Globalentry → Sema Unit
  | [] => pure ()
  | e :: es => do
      let _ ← sema_analyze S e.p.entry
      analyze_entries es

def sema_run_global_analysis : Sema Unit := analyze_entries S S.global_table

end

end Sema

end Eke
