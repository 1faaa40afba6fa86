/-
Numbers as text, and back.

`comp_sprintf` writes the minus sign of a negative number, negates it and takes it apart while it is
positive.  The lowest `int` and the lowest `long` are their own negations, so that nothing but the
sign is written for them; every other number comes out as its numeral.  `atoi` reads back the
numeral of every `int`, the lowest one among them.
-/
import Eke.Lib.Printing
import Eke.Compiler.Precedence

namespace Eke

namespace Sprintf

/-- The branches of `%d` and `%ld`, for numbers of `w` bits. -/
def putNumber (w : Nat) (val : Int) : Option Name := do
  let sign := if val < 0 then ['-'] else []
  let val := if val < 0 then (-val).bmod (2 ^ w) else val
  let buf := if val = 0 then ['0'] else []
  -- a negative number does not enter the loop
  let buf ← digitLoop (fun d => Char.ofNat ('0'.toNat + d)) 10 (32 - buf.length) val.toNat buf
  return sign ++ buf.reverse

/-- What is written for a directive of one character, and the arguments behind its own. -/
def directive (d : Char) (args : List (VArg Char)) : Option (Name × List (VArg Char)) :=
  if d = 's' then do
    let (s, args) ← va_str args
    return (s.getD ['(', 'n', 'u', 'l', 'l', ')'], args)
  else if d = 'd' then do
    let (val, args) ← va_int args
    return (← putNumber 32 val.toInt, args)
  else if d = 'c' then do
    let (c, args) ← va_int args
    return ([Char.ofNat (c.toNat % 256)], args)
  else if d = '%' then return (['%'], args)
  else return ([], args)

/-- The text that is written in front of the terminator.  A format that ends in `%` is read behind
its own terminator. -/
def comp_sprintf : Name → List (VArg Char) → Option Name
  | [], _ => some []
  | c :: f, args =>
      if c ≠ '%' then do
        let rest ← comp_sprintf f args
        return c :: rest
      else
        match f with
        | [] => none
        | 'l' :: 'd' :: f => do
            let (val, args) ← va_long args
            let text ← putNumber 64 val.toInt
            let rest ← comp_sprintf f args
            return text ++ rest
        | d :: f => do
            let (text, args) ← directive d args
            let rest ← comp_sprintf f args
            return text ++ rest

/-! ### Printing a number -/

/-- The digits of a positive number, backwards in the buffer. -/
theorem digits_buffer {z : Int} (hpos : 0 < z) (hz : z < 10 ^ 32) :
    ∃ buf, digitLoop (fun d => Char.ofNat ('0'.toNat + d)) 10 32 z.toNat [] = some buf ∧
      buf.reverse = Nat.toDigits 10 z.toNat := by
  have hdigit : ∀ d < 10, Char.ofNat ('0'.toNat + d) = id (Nat.digitChar d) := by decide
  have hloop := digitLoop_decimal hdigit (show 0 < z.toNat by omega) (show z.toNat < 10 ^ 32 by omega)
  rw [List.map_id] at hloop
  exact Option.map_eq_some_iff.mp hloop

theorem putNumber_pos {w : Nat} {z : Int} (hpos : 0 < z) (hz : z < 10 ^ 32) :
    putNumber w z = some (numeral z) := by
  obtain ⟨buf, hloop, hbuf⟩ := digits_buffer hpos hz
  have habs : z.natAbs = z.toNat := by omega
  unfold putNumber numeral
  rw [if_neg (by omega), if_neg (by omega), if_neg (by omega), habs, ← hbuf]
  simp only []
  rw [if_neg (by omega), List.length_nil, Nat.sub_zero, hloop]
  rfl

theorem putNumber_neg {w : Nat} {z : Int} (hneg : z < 0) (hz : -z < 10 ^ 32)
    (hwrap : (-z).bmod (2 ^ w) = -z) : putNumber w z = some (numeral z) := by
  obtain ⟨buf, hloop, hbuf⟩ := digits_buffer (show 0 < -z by omega) hz
  have habs : z.natAbs = (-z).toNat := by omega
  unfold putNumber numeral
  rw [if_pos hneg, if_pos hneg, if_pos hneg, hwrap, habs, ← hbuf]
  simp only []
  rw [if_neg (by omega), List.length_nil, Nat.sub_zero, hloop]
  rfl

/-- Every number that is not the lowest one comes out as its numeral. -/
theorem putNumber_eq {k : Nat} {z : Int} (hk : (2 : Int) ^ k ≤ 10 ^ 32) (hlow : -2 ^ k < z)
    (hhigh : z < 2 ^ k) : putNumber (k + 1) z = some (numeral z) := by
  rcases Int.lt_trichotomy z 0 with hneg | rfl | hpos
  · have hmod : ((2 ^ (k + 1) : Nat) : Int) = 2 * 2 ^ k := by
      rw [Nat.cast_pow, pow_succ']
      rfl
    refine putNumber_neg hneg (by omega) (Int.bmod_eq_of_le ?_ ?_)
    · rw [hmod]
      omega
    · rw [hmod]
      omega
  · rfl
  · exact putNumber_pos hpos (by omega)

theorem sprintf_int (v : BitVec 32) : comp_sprintf ['%', 'd'] [.int v] = putNumber 32 v.toInt := by
  show ((((putNumber 32 v.toInt).bind fun t => some (t, [])).bind fun r =>
    (some []).bind fun rest => some (r.1 ++ rest))) = _
  cases putNumber 32 v.toInt with
  | none => rfl
  | some t => exact congrArg some (List.append_nil t)

theorem sprintf_long (v : BitVec 64) : comp_sprintf ['%', 'l', 'd'] [.long v] = putNumber 64 v.toInt := by
  simp [comp_sprintf, va_long]

/-! ### Reading it back -/

theorem atoi_minus (n : Nat) : atoi ('-' :: Nat.toDigits 10 n) = int32 (-n) := by
  have hminus : atoi ('-' :: Nat.toDigits 10 n) = int32 (digits 0 (Nat.toDigits 10 n) * -1) := rfl
  have hneg : -(n : Int) = n * -1 := (Int.mul_neg_one _).symm
  rw [hminus, BinExpr.digits_toDigits, hneg]
  exact int32_mul_congr (int32_int32 n) (-1)

/-- The numeral of any `int` is read back. -/
theorem atoi_numeral (v : BitVec 32) : atoi (numeral v.toInt) = v.toInt := by
  have hlow := v.le_toInt
  have hhigh := v.toInt_lt
  have hsame : int32 v.toInt = v.toInt := int32_exact hlow hhigh
  unfold numeral
  split
  · have habs : -(v.toInt.natAbs : Int) = v.toInt := by omega
    rw [atoi_minus, habs, hsame]
  · have habs : (v.toInt.natAbs : Int) = v.toInt := by omega
    rw [BinExpr.atoi_toDigits, habs, hsame]

/-! ### Both ways -/

theorem numeral_ne_minus (z : Int) : numeral z ≠ ['-'] := by
  intro h
  unfold numeral at h
  split at h
  · exact Nat.toDigits_ne_nil (List.cons.inj h).2
  · have hdigit := BinExpr.toDigits_digit (n := z.natAbs) (by
      rw [h]
      exact List.mem_singleton_self '-')
    exact absurd hdigit (by decide)

/-- What is written for an `int` is its numeral, and is read back. -/
def Inverse (v : BitVec 32) : Prop :=
  ∃ out, comp_sprintf ['%', 'd'] [.int v] = some out ∧ out = numeral v.toInt ∧ atoi out = v.toInt

/-- What is written for a `long` is its numeral. -/
def LongWritten (v : BitVec 64) : Prop := comp_sprintf ['%', 'l', 'd'] [.long v] = some (numeral v.toInt)

/-- The digits are lost of a number that is its own negation, and of no other one. -/
theorem sprintf_inverse (v : BitVec 32) (l : BitVec 64) :
    (Inverse v ↔ v.toInt ≠ -2 ^ 31) ∧ (LongWritten l ↔ l.toInt ≠ -2 ^ 63) := by
  constructor
  · have hlow := v.le_toInt
    have hhigh := v.toInt_lt
    unfold Inverse
    rw [sprintf_int]
    constructor
    · intro ⟨out, hout, heq, _⟩ hmin
      have hsign : putNumber 32 (-2 ^ 31) = some ['-'] := by decide
      rw [heq, hmin, hsign] at hout
      exact numeral_ne_minus _ (Option.some.inj hout).symm
    · intro hne
      exact ⟨_, putNumber_eq (k := 31) (by decide) (by omega) (by omega), rfl, atoi_numeral v⟩
  · have hlow := l.le_toInt
    have hhigh := l.toInt_lt
    unfold LongWritten
    rw [sprintf_long]
    constructor
    · intro hout hmin
      have hsign : putNumber 64 (-2 ^ 63) = some ['-'] := by decide
      rw [hmin, hsign] at hout
      exact numeral_ne_minus _ (Option.some.inj hout).symm
    · intro hne
      exact putNumber_eq (k := 63) (by decide) (by omega) (by omega)

/-- For the lowest `int` there is the sign alone, which is read as zero. -/
theorem lowest_int_lost : comp_sprintf ['%', 'd'] [.int 0x80000000] = some ['-'] ∧ atoi ['-'] = 0 ∧
    ¬ ((∀ v, Inverse v) ∧ ∀ v, LongWritten v) := by
  have hsign : comp_sprintf ['%', 'd'] [.int 0x80000000] = some ['-'] := by decide
  refine ⟨hsign, rfl, fun h => ?_⟩
  obtain ⟨out, hout, -, hback⟩ := h.1 0x80000000
  obtain rfl := Option.some.inj (hsign.symm.trans hout)
  exact absurd hback (by decide)

end Sprintf

end Eke
