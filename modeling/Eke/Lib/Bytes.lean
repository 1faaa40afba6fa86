/-
Byte stores.

A store is a total function from byte addresses to bytes.  A physical memory, the
sectors of a disk laid end to end, a caller's buffer and a code buffer are all
stores, so that copying between them is one operation, `blit`, and the only thing
a proof has to know about a write is which addresses it leaves alone.

Integers sit in a store little-endian.  `le` reads one, `setLe` writes one, and
`testBit_le` is the bridge to the bit level that the bitmap modules stand on.
-/
import Mathlib.Data.Nat.Bitwise
import Mathlib.Data.Finset.Card
import Mathlib.Order.Interval.Finset.Nat
import Mathlib.Tactic.Ring

namespace Eke

abbrev Byte := BitVec 8

/-- A byte-addressed store. -/
abbrev Store := Nat → Byte

namespace Store

/-- Copy `n` bytes of `src` from `s` on to `d`. -/
def blit (m : Store) (d n : Nat) (src : Store) (s : Nat) : Store :=
  fun x => if d ≤ x ∧ x < d + n then src (s + (x - d)) else m x

/-- Set `n` bytes from `d` on to `v`. -/
def fill (m : Store) (d n : Nat) (v : Byte) : Store :=
  fun x => if d ≤ x ∧ x < d + n then v else m x

/-- Write one byte. -/
def set (m : Store) (a : Nat) (v : Byte) : Store :=
  fun x => if x = a then v else m x

/-- The little-endian integer in the `k` bytes from `a` on. -/
def le (m : Store) (a : Nat) : Nat → Nat
  | 0 => 0
  | k + 1 => (m a).toNat + 256 * le m (a + 1) k

/-- Write the low `k` bytes of `v` little-endian from `a` on. -/
def setLe (m : Store) (a k v : Nat) : Store :=
  fun x => if a ≤ x ∧ x < a + k then BitVec.ofNat 8 (v / 256 ^ (x - a)) else m x

variable {m m' src : Store} {a d n s k v x : Nat}

/-! ### What a write leaves alone -/

theorem blit_in (h : d ≤ x) (h' : x < d + n) : (m.blit d n src s) x = src (s + (x - d)) := by
  simp [blit, h, h']

theorem blit_out (h : x < d ∨ d + n ≤ x) : (m.blit d n src s) x = m x := by
  unfold blit
  rw [if_neg (by omega)]

theorem fill_out {w : Byte} (h : x < d ∨ d + n ≤ x) : (m.fill d n w) x = m x := by
  unfold fill
  rw [if_neg (by omega)]

theorem fill_in {w : Byte} (h : d ≤ x) (h' : x < d + n) : (m.fill d n w) x = w := by
  simp [fill, h, h']

theorem set_same {w : Byte} : (m.set a w) a = w := by simp [set]

theorem set_out {w : Byte} (h : x ≠ a) : (m.set a w) x = m x := by simp [set, h]

theorem setLe_out (h : x < a ∨ a + k ≤ x) : (m.setLe a k v) x = m x := by
  unfold setLe
  rw [if_neg (by omega)]

/-! ### Little-endian integers -/

theorem le_congr : ∀ {k a : Nat}, (∀ x, a ≤ x → x < a + k → m x = m' x) → m.le a k = m'.le a k := by
  intro k
  induction k with
  | zero => intro a _; rfl
  | succ k ih =>
      intro a h
      simp only [le]
      rw [h a (Nat.le_refl a) (by omega), ih fun x hx hx' => h x (by omega) (by omega)]

/-- Reading relative to another base: the bytes are what matters. -/
theorem le_congr_at : ∀ {k a b : Nat}, (∀ i, i < k → m (a + i) = m' (b + i)) →
    m.le a k = m'.le b k := by
  intro k
  induction k with
  | zero => intro a b _; rfl
  | succ k ih =>
      intro a b h
      simp only [le]
      have h0 := h 0 (by omega)
      simp only [Nat.add_zero] at h0
      rw [h0, ih fun i hi => by
        have := h (i + 1) (by omega)
        rwa [show a + (i + 1) = a + 1 + i by omega, show b + (i + 1) = b + 1 + i by omega] at this]

theorem le_zero : ∀ {k a : Nat}, (∀ x, a ≤ x → x < a + k → m x = 0) → m.le a k = 0 := by
  intro k
  induction k with
  | zero => intro a _; rfl
  | succ k ih =>
      intro a h
      rw [le, h a (Nat.le_refl a) (by omega), ih fun x hx hx' => h x (by omega) (by omega)]
      rfl

/-- An integer read in two parts. -/
theorem le_append : ∀ (j k a : Nat), m.le a (j + k) = m.le a j + 256 ^ j * m.le (a + j) k := by
  intro j k
  induction j with
  | zero => intro a; simp [le]
  | succ j ih =>
      intro a
      rw [show j + 1 + k = j + k + 1 by omega, le, le, ih, show a + 1 + j = a + (j + 1) by omega,
        Nat.pow_succ]
      ring

theorem le_lt : ∀ (k a : Nat), m.le a k < 256 ^ k := by
  intro k
  induction k with
  | zero => intro a; simp [le]
  | succ k ih =>
      intro a
      have := ih (a + 1)
      have hb := (m a).isLt
      simp only [le, Nat.pow_succ]
      omega

theorem le_setLe_aux (j : Nat) : ∀ (k : Nat),
    (m.setLe a (j + k) v).le (a + j) k = v / 256 ^ j % 256 ^ k := by
  intro k
  induction k generalizing j with
  | zero => simp [le, Nat.mod_one]
  | succ k ih =>
      simp only [le]
      have hhead : (m.setLe a (j + (k + 1)) v) (a + j) = BitVec.ofNat 8 (v / 256 ^ j) := by
        unfold setLe
        rw [if_pos (by omega), Nat.add_sub_cancel_left]
      have htail := ih (j + 1)
      rw [show j + 1 + k = j + (k + 1) by omega, show a + (j + 1) = a + j + 1 by omega] at htail
      rw [hhead, htail, BitVec.toNat_ofNat, Nat.pow_succ 256 j, ← Nat.div_div_eq_div_mul,
        Nat.pow_succ 256 k, Nat.mul_comm (256 ^ k) 256, Nat.mod_mul]

/-- Reading back what was written. -/
theorem le_setLe : (m.setLe a k v).le a k = v % 256 ^ k := by
  simpa using le_setLe_aux (m := m) (a := a) (v := v) 0 k

theorem le_setLe_of_lt (h : v < 256 ^ k) : (m.setLe a k v).le a k = v := by
  rw [le_setLe, Nat.mod_eq_of_lt h]

theorem le_setLe_out {b j : Nat} (h : b + j ≤ a ∨ a + k ≤ b) :
    (m.setLe a k v).le b j = m.le b j :=
  le_congr fun _ _ _ => setLe_out (by omega)

theorem le_set_out {b j : Nat} {w : Byte} (h : a < b ∨ b + j ≤ a) :
    (m.set a w).le b j = m.le b j :=
  le_congr fun _ _ _ => set_out (by omega)

/-- Bit `i` of the integer is bit `i % 8` of byte `i / 8`. -/
theorem testBit_le : ∀ (k a i : Nat), i < 8 * k →
    (m.le a k).testBit i = (m (a + i / 8)).getLsbD (i % 8) := by
  intro k
  induction k with
  | zero => intro a i hi; omega
  | succ k ih =>
      intro a i hi
      simp only [le]
      rw [show (256 : Nat) = 2 ^ 8 by rfl, Nat.add_comm,
        Nat.testBit_two_pow_mul_add _ (m a).isLt]
      by_cases h8 : i < 8
      · rw [if_pos h8, Nat.div_eq_of_lt h8, Nat.mod_eq_of_lt h8]
        rfl
      · rw [if_neg h8, ih (a + 1) (i - 8) (by omega)]
        congr 1
        · congr 1
          omega
        · omega

/-! ### Bytes as a list -/

/-- The low `k` bytes of `v`, little-endian. -/
def leBytes : Nat → Nat → List Byte
  | 0, _ => []
  | k + 1, v => BitVec.ofNat 8 v :: leBytes k (v / 256)

@[simp] theorem length_leBytes : ∀ (k v : Nat), (leBytes k v).length = k := by
  intro k
  induction k with
  | zero => intro v; rfl
  | succ k ih => intro v; simp [leBytes, ih]

/-- The integer in a run of bytes that are those of `v`. -/
theorem le_of_leBytes : ∀ {k v a : Nat},
    (∀ i (h : i < (leBytes k v).length), m (a + i) = (leBytes k v)[i]) → m.le a k = v % 256 ^ k := by
  intro k
  induction k with
  | zero => intro v a _; simp [le, Nat.mod_one]
  | succ k ih =>
      intro v a h
      have h0 := h 0 (by simp [leBytes])
      have htail : m.le (a + 1) k = v / 256 % 256 ^ k := ih fun i hi => by
        have := h (i + 1) (by simpa [leBytes] using hi)
        rw [show a + 1 + i = a + (i + 1) by omega, this]
        rfl
      simp only [Nat.add_zero, leBytes, List.getElem_cons_zero] at h0
      simp only [le]
      rw [h0, htail, BitVec.toNat_ofNat, Nat.pow_succ 256 k, Nat.mul_comm (256 ^ k) 256,
        Nat.mod_mul]

end Store

end Eke
