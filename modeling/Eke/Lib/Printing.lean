/-
Printing numbers.

`digitLoop` is the loop that takes a number apart into a buffer, from the last digit on; the buffer is
printed backwards.  `digitLoop_eq` says that it finds the digits of the number when there is room for
them, and `toDigits_eq` that these are the numeral.  A print function takes its arguments one after
the other, each with the width that its directive has.
-/
import Mathlib.Data.Nat.Digits.Defs

namespace Eke

/-- The rest of the loop, where the buffer has room for `room` more digits. -/
def digitLoop {α : Type} (digit : Nat → α) (base : Nat) : Nat → Nat → List α → Option (List α)
  | 0, n, buf => if 0 < n then none else some buf
  | room + 1, n, buf =>
      if 0 < n then digitLoop digit base room (n / base) (buf ++ [digit (n % base)]) else some buf

/-- The decimal numeral of a number. -/
def numeral (z : Int) : List Char :=
  if z < 0 then '-' :: Nat.toDigits 10 z.natAbs else Nat.toDigits 10 z.natAbs

/-- The byte of a character. -/
def toByte (c : Char) : BitVec 8 := BitVec.ofNat 8 c.toNat

/-- An argument of a print function; no text is the null pointer. -/
inductive VArg (α : Type) where
  | int (v : BitVec 32)
  | long (v : BitVec 64)
  | str (s : Option (List α))

/-! ### The arguments

There is no value when the argument is missing or of another kind.
-/

variable {α : Type}

def va_int : List (VArg α) → Option (BitVec 32 × List (VArg α))
  | .int v :: args => some (v, args)
  | _ => none

def va_long : List (VArg α) → Option (BitVec 64 × List (VArg α))
  | .long v :: args => some (v, args)
  | _ => none

def va_str : List (VArg α) → Option (Option (List α) × List (VArg α))
  | .str s :: args => some (s, args)
  | _ => none

/-! ### Digits -/

variable {digit : Nat → α} {base : Nat}

theorem digitLoop_eq (hbase : 1 < base) : ∀ {room n : Nat} {buf : List α}, n < base ^ room →
    digitLoop digit base room n buf = some (buf ++ (Nat.digits base n).map digit) := by
  intro room
  induction room with
  | zero =>
      intro n buf hn
      obtain rfl := Nat.lt_one_iff.mp hn
      simp [digitLoop]
  | succ room ih =>
      intro n buf hn
      rcases Nat.eq_zero_or_pos n with rfl | hpos
      · simp [digitLoop]
      · have hrest : n / base < base ^ room := by
          rw [Nat.pow_succ, Nat.mul_comm] at hn
          exact Nat.div_lt_of_lt_mul hn
        rw [digitLoop, if_pos hpos, ih hrest, Nat.digits_def' hbase hpos, List.map_cons,
          List.append_assoc, List.singleton_append]

theorem toDigits_eq {n : Nat} (hn : 0 < n) :
    Nat.toDigits 10 n = ((Nat.digits 10 n).map Nat.digitChar).reverse := by
  induction n using Nat.strongRecOn with
  | ind n ih =>
      rw [Nat.digits_def' (by decide) hn, List.map_cons, List.reverse_cons]
      rcases Nat.lt_or_ge n 10 with hlt | hge
      · rw [Nat.toDigits_of_lt_base hlt, Nat.div_eq_of_lt hlt, Nat.mod_eq_of_lt hlt, Nat.digits_zero]
        rfl
      · rw [Nat.toDigits_of_base_le (by decide) hge, ih (n / 10) (by omega) (by omega)]

theorem mem_numeral {z : Int} {c : Char} (h : c ∈ numeral z) : c = '-' ∨ c.isDigit = true := by
  unfold numeral at h
  split at h
  · rcases List.mem_cons.mp h with rfl | h
    · exact .inl rfl
    · exact .inr (Nat.isDigit_of_mem_toDigits (by decide) (by decide) h)
  · exact .inr (Nat.isDigit_of_mem_toDigits (by decide) (by decide) h)

/-- The buffer backwards is the numeral, in the characters that `f` makes of its own. -/
theorem digitLoop_decimal {f : Char → α} {room n : Nat} (hdigit : ∀ d < 10, digit d = f (Nat.digitChar d))
    (hpos : 0 < n) (hroom : n < 10 ^ room) :
    (digitLoop digit 10 room n []).map List.reverse = some ((Nat.toDigits 10 n).map f) := by
  have hmap : (Nat.digits 10 n).map digit = ((Nat.digits 10 n).map Nat.digitChar).map f := by
    rw [List.map_map]
    exact List.map_congr_left fun d hd => hdigit d (Nat.digits_lt_base (by decide) hd)
  rw [digitLoop_eq (by decide) hroom, List.nil_append, hmap, toDigits_eq hpos, List.map_reverse]
  rfl

end Eke
