/-
Tokens and syntax trees of the compiler.

Token types are the numbers the lexer gives them: a character stands for itself, the
words and the longer operators are numbered from 256 on.  A node of the syntax tree
is a token index, a kind with the members of the union that kind uses, and the two
links every node has.  `null` is the null pointer.  An operator, an offset and a
number keep the C value, so that an `int` is an `Int` wherever no arithmetic is done
on it.
-/
import Eke.Lib.Bits

namespace Eke

abbrev T_EOF : Int := 0
abbrev T_IDENTIFIER : Int := 256
abbrev T_INT : Int := 257
abbrev T_CHAR : Int := 260
abbrev T_STRING : Int := 261
abbrev T_VOID : Int := 262
abbrev T_LEQ : Int := 263
abbrev T_NEQ : Int := 264
abbrev T_GEQ : Int := 265
abbrev T_EQ : Int := 266
abbrev T_ARROW : Int := 267
abbrev T_INC : Int := 268
abbrev T_DEC : Int := 269
abbrev K_IF : Int := 270
abbrev K_DO : Int := 271
abbrev K_INT : Int := 272
abbrev K_FOR : Int := 273
abbrev K_VOID : Int := 274
abbrev K_CHAR : Int := 275
abbrev K_ELSE : Int := 276
abbrev K_CASE : Int := 277
abbrev K_GOTO : Int := 278
abbrev K_LONG : Int := 279
abbrev K_AUTO : Int := 280
abbrev K_WHILE : Int := 281
abbrev K_BREAK : Int := 282
abbrev K_CONTINUE : Int := 283
abbrev K_SHORT : Int := 284
abbrev K_CONST : Int := 285
abbrev K_RETURN : Int := 286
abbrev K_EXTERN : Int := 287
abbrev K_STATIC : Int := 288
abbrev K_STRUCT : Int := 289
abbrev K_SWITCH : Int := 290
abbrev K_SIGNED : Int := 291
abbrev K_DEFAULT : Int := 292
abbrev K_TYPEDEF : Int := 293
abbrev K_UNSIGNED : Int := 294
abbrev K_VOLATILE : Int := 295
abbrev K_REGISTER : Int := 296

/-- The type of a token that is a single character, a C `char`. -/
def charType (c : Char) : Int := if c.toNat < 128 then c.toNat else c.toNat - 256

/-- A C string without its terminator. -/
abbrev Name := List Char

mutual

/-- A pointer to a node. -/
inductive Node
  | null
  | mk (token_id : Int) (kind : Kind) (indnxt next : Node)

/-- The type of a node with the members of the union it uses. -/
inductive Kind
  | func (name : Name) (args body : Node) (returntype localvarbyte argcount : Int)
  | block (body : Node)
  | var (dt offset : Int) (value : Node)
  | int (int_val : BitVec 64)
  /-- An element of an initializer list: a number node whose value is a pointer. -/
  | elem (expr : Node)
  | bin (op : Int) (left right : Node)
  | if_ (cond then_stmt else_stmt : Node)
  | while_ (cond then_stmt : Node) (isfor : Int)
  | return_ (value : Node)
  | call (name : Name) (args : Node) (argcount : Int)
  /-- The offset lies in the padding of the operator's struct. -/
  | assign (offset op : Int) (left right : Node)
  | str (string : Name)
  | gvar (name : Name) (dt offset : Int) (value : Node)
  /-- `expr` is the union's `unary` member, `value` its `pointer` one. -/
  | pointer (expr value : Node)
  | addr (expr : Node)
  | break_
  | continue_
  | arr_access (expr : Node)
  | mem_access (par_expr : Node) (op offset dt struct_id : Int)
  | preinc (expr : Node)
  | predec (expr : Node)
  | postinc (expr : Node)
  | postdec (expr : Node)

end

namespace Node

/-- The members of the union; a null pointer has none. -/
def kind? : Node → Option Kind
  | null => none
  | mk _ k _ _ => some k

def token_id : Node → Int
  | null => 0
  | mk t _ _ _ => t

def next : Node → Node
  | null => null
  | mk _ _ _ nx => nx

def indnxt : Node → Node
  | null => null
  | mk _ _ ix _ => ix

/-- The pointer is not null. -/
def isSome : Node → Bool
  | null => false
  | mk _ _ _ _ => true

end Node

end Eke
