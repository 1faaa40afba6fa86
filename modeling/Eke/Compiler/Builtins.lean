/-
The builtins that print.

A compiled program calls these for `print`, `putc` and a `kprintf` of one argument, with a value of 64
bits.  `comp_builtin_print` asks for the directive `%ld`, which `comp_sprintf` knows and `kprintf` does
not: the `l` is passed over, the `d` is printed, and the number is not looked at.
-/
import Eke.Compiler.Strings
import Eke.Kernel.Kprintf

namespace Eke

namespace Kprintf

def comp_builtin_print (val : BitVec 64) : Option (List Byte) :=
  kprintf [0x25, 0x6C, 0x64, 0x0A] [.long val]

def comp_builtin_putc (c : BitVec 64) : Option (List Byte) := some [c.setWidth 8]

def comp_builtin_print_str (s : Option (List Byte)) : Option (List Byte) := kprintf [0x25, 0x73] [.str s]

/-- A text is sent as it is, whatever is in it. -/
theorem print_str_sends (s : List Byte) : comp_builtin_print_str (some s) = some s := by
  unfold comp_builtin_print_str
  rw [kprintf_one]
  rfl

/-- What is sent does not depend on the number. -/
theorem print_sends (v : BitVec 64) : comp_builtin_print v = some [0x64, 0x0A] := rfl

/-- No character of a numeral is a `d`. -/
theorem numeral_byte {z : Int} {c : Char} (h : c ∈ numeral z) : toByte c ≠ 0x64 := by
  rcases mem_numeral h with rfl | hdigit
  · decide
  · intro heq
    simp only [Char.isDigit, Bool.and_eq_true, decide_eq_true_eq] at hdigit
    have hlow : 48 ≤ c.toNat := hdigit.1
    have hhigh : c.toNat ≤ 57 := hdigit.2
    have hbyte := congrArg BitVec.toNat heq
    rw [toByte, BitVec.toNat_ofNat] at hbyte
    have hd : (0x64 : BitVec 8).toNat = 100 := rfl
    omega

/-- No number is printed. -/
theorem print_never (v : BitVec 64) :
    comp_builtin_print v ≠ some (byteString (numeral v.toInt) ++ [0x0A]) := by
  intro h
  rw [print_sends] at h
  have hsplit : [0x64] ++ [0x0A] = byteString (numeral v.toInt) ++ [0x0A] := Option.some.inj h
  have hbytes := List.append_cancel_right hsplit
  have hmem : 0x64 ∈ byteString (numeral v.toInt) := by
    rw [← hbytes]
    exact List.mem_singleton_self _
  obtain ⟨c, hc, hbyte⟩ := List.mem_map.mp hmem
  exact numeral_byte hc hbyte

/-- The number 7 is printed as a `d`. -/
theorem seven_not_printed : comp_builtin_print 7 = some [0x64, 0x0A] ∧
    ¬ ∀ v : BitVec 64, comp_builtin_print v = some (byteString (numeral v.toInt) ++ [0x0A]) := by
  refine ⟨rfl, fun h => ?_⟩
  have hseven : some [0x64, 0x0A] = some (byteString (numeral (7 : BitVec 64).toInt) ++ [0x0A]) := h 7
  exact absurd hseven (by decide)

end Kprintf

end Eke
