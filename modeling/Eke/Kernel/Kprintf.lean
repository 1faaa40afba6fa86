/-
Formatted output.

`kprintf` goes over the format and sends characters to `terminal_putchar`; what it sends is a list of
bytes here.  It knows `%s`, `%d`, `%u`, `%x`, `%p`, `%c` and `%%`, each of one character and, where it
takes a number, with one of 32 bits.  Behind a `%` any other character is passed over and takes no
argument, and a `%` at the end is printed.

A number is negated in 32 bits when it is negative and printed without its sign, so that the lowest
`int` comes out right as well.
-/
import Eke.Lib.Printing
import Eke.Kernel.Shell

namespace Eke

namespace Kprintf

def print_dec (n : BitVec 32) : Option (List Byte) :=
  if n = 0 then some [0x30]
  else (digitLoop (fun d => 0x30 + BitVec.ofNat 8 d) 10 32 n.toNat []).map List.reverse

def hex_chars : List Byte :=
  [0x30, 0x31, 0x32, 0x33, 0x34, 0x35, 0x36, 0x37, 0x38, 0x39, 0x41, 0x42, 0x43, 0x44, 0x45, 0x46]

def print_hex (n : BitVec 32) : Option (List Byte) := do
  let digits ←
    if n = 0 then some [0x30]
    else (digitLoop (fun d => hex_chars.getD d 0) 16 32 n.toNat []).map List.reverse
  return 0x30 :: 0x78 :: digits

/-- What is sent for the character behind a `%`, and the arguments that are left. -/
def directive (d : Byte) (args : List (VArg Byte)) : Option (List Byte × List (VArg Byte)) :=
  if d = 0x73 then do
    let (str, args) ← va_str args
    return (str.getD [0x28, 0x6E, 0x75, 0x6C, 0x6C, 0x29], args)
  else if d = 0x64 then do
    let (val, args) ← va_int args
    let digits ← print_dec (if val.toInt < 0 then -val else val)
    return (if val.toInt < 0 then 0x2D :: digits else digits, args)
  else if d = 0x75 then do
    let (val, args) ← va_int args
    return (← print_dec val, args)
  else if d = 0x78 ∨ d = 0x70 then do
    let (val, args) ← va_int args
    return (← print_hex val, args)
  else if d = 0x63 then do
    let (c, args) ← va_int args
    return ([c.setWidth 8], args)
  else if d = 0x25 then return ([0x25], args)
  else return ([], args)

/-- The bytes that are sent to `terminal_putchar`. -/
def kprintf : List Byte → List (VArg Byte) → Option (List Byte)
  | [], _ => some []
  | c :: f, args =>
      match f with
      | [] => some [c]
      | d :: f =>
          if c = 0x25 then do
            let (text, args) ← directive d args
            let rest ← kprintf f args
            return text ++ rest
          else do
            let rest ← kprintf (d :: f) args
            return c :: rest

/-! ### Texts -/

/-- A text without a `%` is sent as it is. -/
theorem kprintf_text (args : List (VArg Byte)) : ∀ {text : List Byte}, (∀ c ∈ text, c ≠ 0x25) →
    kprintf text args = some text := by
  intro text
  induction text with
  | nil => exact fun _ => rfl
  | cons c text ih =>
      intro h
      have hrest := ih fun d hd => h d (List.mem_cons_of_mem _ hd)
      cases text with
      | nil => rfl
      | cons d text =>
          rw [kprintf]
          simp only []
          rw [if_neg (h c (List.mem_cons_self ..)), hrest]
          rfl

/-- That is how the command line prints. -/
theorem shell_kprintf {text : List Byte} (h : ∀ c ∈ text, c ≠ 0x25) (s : Shell) :
    ∃ sent, kprintf text [] = some sent ∧ Shell.kprintf text s = .ok () { s with tty := s.tty.puts sent } :=
  ⟨text, kprintf_text [] h, Shell.kprintf_ok text s⟩

/-- One directive and nothing else. -/
theorem kprintf_one (d : Byte) (args : List (VArg Byte)) :
    kprintf [0x25, d] args = (directive d args).map Prod.fst := by
  rw [kprintf]
  simp only []
  rw [if_pos trivial]
  cases directive d args with
  | none => rfl
  | some r => exact congrArg some (List.append_nil r.1)

/-! ### Numbers -/

theorem print_dec_eq (n : BitVec 32) : print_dec n = some ((Nat.toDigits 10 n.toNat).map toByte) := by
  have hdigit : ∀ d < 10, 0x30 + BitVec.ofNat 8 d = toByte (Nat.digitChar d) := by decide
  have hlt := n.isLt
  unfold print_dec
  by_cases hzero : n = 0
  · rw [if_pos hzero, hzero]
    rfl
  · have hpos : 0 < n.toNat := Nat.pos_of_ne_zero fun h => hzero (BitVec.eq_of_toNat_eq h)
    rw [if_neg hzero]
    exact digitLoop_decimal hdigit hpos (by omega)

/-- The magnitude of a negative `int` is a number without sign. -/
theorem neg_toNat {v : BitVec 32} (h : v.toInt < 0) : (-v).toNat = v.toInt.natAbs := by
  have hlt := v.isLt
  rw [BitVec.toInt_eq_toNat_cond] at h ⊢
  rw [BitVec.toNat_neg]
  split at h
  · omega
  · rename_i hbig
    rw [if_neg hbig]
    omega

/-- A `%d` prints the numeral of every `int`. -/
theorem kprintf_int (v : BitVec 32) :
    kprintf [0x25, 0x64] [.int v] = some ((numeral v.toInt).map toByte) := by
  have hrun : (directive 0x64 [.int v]).map Prod.fst =
      (print_dec (if v.toInt < 0 then -v else v)).map fun digits =>
        if v.toInt < 0 then 0x2D :: digits else digits := by
    unfold directive
    rw [if_neg (by decide), if_pos rfl]
    cases hdec : print_dec (if v.toInt < 0 then -v else v) with
    | none => simp [va_int, hdec]
    | some digits => simp [va_int, hdec]
  rw [kprintf_one, hrun, print_dec_eq, Option.map_some]
  unfold numeral
  by_cases hneg : v.toInt < 0
  · rw [if_pos hneg, if_pos hneg, if_pos hneg, neg_toNat hneg]
    rfl
  · have habs : v.toNat = v.toInt.natAbs := by
      rw [BitVec.toInt_eq_toNat_cond] at hneg ⊢
      split at hneg
      · rename_i hsmall
        rw [if_pos hsmall]
        rfl
      · omega
    rw [if_neg hneg, if_neg hneg, if_neg hneg, habs]

end Kprintf

end Eke
