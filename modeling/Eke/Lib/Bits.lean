/-
Bit maps over 64-bit words.

A bit map kept in a store is read and written a word at a time, but what it means
is one bit per index: bit `i` is bit `i % 8` of byte `i / 8`.  The lemmas here say
that setting or clearing through the word changes exactly the one bit, and that it
touches no byte outside the word.  `clearBits` counts the clear bits below a bound,
which is what every free counter over a bit map is meant to hold.
-/
import Eke.Lib.Bytes

namespace Eke

/-- The low `k` bits are cleared, as in rounding to a power of two. -/
theorem toNat_clear {w : Nat} (x : BitVec w) (k : Nat) :
    (x &&& BitVec.allOnes w <<< k).toNat = x.toNat / 2 ^ k * 2 ^ k := by
  rw [← BitVec.shiftLeft_ushiftRight, BitVec.toNat_shiftLeft, BitVec.toNat_ushiftRight,
    Nat.shiftRight_eq_div_pow, Nat.shiftLeft_eq]
  exact Nat.mod_eq_of_lt (Nat.lt_of_le_of_lt (Nat.div_mul_le_self _ _) x.isLt)

namespace Store

/-- The 64-bit word at `a`. -/
def word (m : Store) (a : Nat) : BitVec 64 := BitVec.ofNat 64 (m.le a 8)

/-- Write the 64-bit word at `a`. -/
def setWord (m : Store) (a : Nat) (w : BitVec 64) : Store := m.setLe a 8 w.toNat

/-- Bit `i` of the bit map based at `a`. -/
def bit (m : Store) (a i : Nat) : Bool := (m (a + i / 8)).getLsbD (i % 8)

variable {m m' : Store} {a b i j : Nat}

theorem word_getLsbD (hi : i < 64) : (m.word a).getLsbD i = m.bit a i := by
  unfold word bit
  rw [BitVec.getLsbD_ofNat, testBit_le 8 a i (by omega)]
  simp [hi]

theorem bit_word (m : Store) (a i : Nat) :
    m.bit a i = (m.word (a + 8 * (i / 64))).getLsbD (i % 64) := by
  rw [word_getLsbD (by omega)]
  unfold bit
  rw [show a + 8 * (i / 64) + i % 64 / 8 = a + i / 8 by omega, show i % 64 % 8 = i % 8 by omega]

theorem setWord_out {w : BitVec 64} {x : Nat} (h : x < a ∨ a + 8 ≤ x) : (m.setWord a w) x = m x :=
  setLe_out h

theorem word_setWord {w : BitVec 64} : (m.setWord a w).word a = w := by
  unfold word setWord
  rw [le_setLe_of_lt (by have := w.isLt; omega)]
  simp

theorem word_setWord_out {w : BitVec 64} (h : b + 8 ≤ a ∨ a + 8 ≤ b) :
    (m.setWord a w).word b = m.word b := by
  unfold word setWord
  rw [le_setLe_out h]

/-- Only the bytes of a word matter. -/
theorem word_congr {c : Nat} (h : ∀ k, k < 8 → m (a + k) = m' (c + k)) : m.word a = m'.word c := by
  unfold word
  rw [le_congr_at h]

/-- A word whose upper half is zero. -/
theorem word_of_half (h : m.le (a + 4) 4 = 0) : m.word a = BitVec.ofNat 64 (m.le a 4) := by
  unfold word
  rw [show (8 : Nat) = 4 + 4 from rfl, le_append, h]
  rfl

/-- A word written back with one bit changed changes that bit and no other. -/
theorem bit_setWord {w : BitVec 64} {v : Bool}
    (hw : ∀ k, k < 64 → w.getLsbD k =
      if k = i % 64 then v else (m.word (a + 8 * (i / 64))).getLsbD k) :
    (m.setWord (a + 8 * (i / 64)) w).bit a j = if j = i then v else m.bit a j := by
  rw [bit_word, bit_word m]
  by_cases hq : j / 64 = i / 64
  · rw [hq, word_setWord, hw _ (by omega)]
    by_cases hij : j = i
    · rw [if_pos (by rw [hij]), if_pos hij]
    · rw [if_neg (by omega), if_neg hij]
  · rw [word_setWord_out (by omega), if_neg (by rintro rfl; exact hq rfl)]

theorem bit_congr {c : Nat} (h : m (a + i / 8) = m' (c + i / 8)) : m.bit a i = m'.bit c i := by
  unfold bit
  rw [h]

/-! ### Counting the clear bits -/

/-- How many of the first `n` bits are clear. -/
def clearBits (m : Store) (a n : Nat) : Nat :=
  ((Finset.range n).filter fun i => m.bit a i = false).card

theorem clearBits_le (m : Store) (a n : Nat) : m.clearBits a n ≤ n := by
  simpa [clearBits] using Finset.card_filter_le (Finset.range n) fun i => m.bit a i = false

theorem clearBits_of_clear {n : Nat} (h : ∀ i, i < n → m.bit a i = false) :
    m.clearBits a n = n := by
  unfold clearBits
  rw [Finset.filter_true_of_mem fun i hi => h i (Finset.mem_range.mp hi), Finset.card_range]

theorem clearBits_succ (m : Store) (a n : Nat) :
    m.clearBits a (n + 1) = m.clearBits a n + if m.bit a n = false then 1 else 0 := by
  unfold clearBits
  rw [Finset.range_add_one, Finset.filter_insert]
  split
  · rw [Finset.card_insert_of_notMem (by simp)]
  · rfl

theorem clearBits_congr {c n : Nat} (h : ∀ i, i < n → m.bit a i = m'.bit c i) :
    m.clearBits a n = m'.clearBits c n := by
  unfold clearBits
  congr 1
  refine Finset.filter_congr fun i hi => ?_
  rw [h i (Finset.mem_range.mp hi)]

/-- Setting one clear bit below the bound takes one from the count. -/
theorem clearBits_set (m m' : Store) {n : Nat} (hi : i < n) (hclear : m.bit a i = false)
    (hset : ∀ j, m'.bit a j = if j = i then true else m.bit a j) :
    m'.clearBits a n + 1 = m.clearBits a n := by
  unfold clearBits
  have hmem : i ∈ (Finset.range n).filter fun j => m.bit a j = false := by
    simp [hi, hclear]
  have herase : ((Finset.range n).filter fun j => m'.bit a j = false)
      = ((Finset.range n).filter fun j => m.bit a j = false).erase i := by
    ext j
    simp only [Finset.mem_filter, Finset.mem_range, Finset.mem_erase, hset]
    by_cases hji : j = i <;> simp [hji]
  rw [herase, Finset.card_erase_of_mem hmem]
  have := Finset.card_pos.mpr ⟨i, hmem⟩
  omega

/-- Clearing one set bit below the bound adds one to the count. -/
theorem clearBits_clear {n : Nat} (hi : i < n) (hused : m.bit a i = true)
    (hset : ∀ j, m'.bit a j = if j = i then false else m.bit a j) :
    m'.clearBits a n = m.clearBits a n + 1 := by
  refine (clearBits_set m' m hi (by simp [hset]) fun j => ?_).symm
  by_cases hji : j = i
  · rw [if_pos hji, hji, hused]
  · rw [if_neg hji, hset, if_neg hji]

end Store

end Eke
