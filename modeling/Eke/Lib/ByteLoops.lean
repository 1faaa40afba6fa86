/-
Loops over bytes.

`fillLoop` is `memset` and `copyLoop` is `memcpy`, a byte at a time from the front.  Filling is
`fill`.  A copy to a higher address may overwrite bytes that it has not read yet; those in front of
the destination it never does, so that they arrive as they were.  Copying in pieces, or as integers of
a few bytes, is copying.
-/
import Eke.Lib.Bytes
import Eke.Lib.Loop

namespace Eke

/-- The last round. -/
theorem loop_succ {σ : Type} (f : Nat → σ → σ) (n : Nat) (s : σ) : loop f (n + 1) s = f n (loop f n s) := rfl

namespace Store

/-- Set `n` bytes from `d` on to `v`, one after the other. -/
def fillLoop (m : Store) (d n : Nat) (v : Byte) : Store := loop (fun i m => m.set (d + i) v) n m

/-- Copy `n` bytes from `s` on to `d`, one after the other. -/
def copyLoop (m : Store) (d s n : Nat) : Store := loop (fun i m => m.set (d + i) (m (s + i))) n m

variable {m : Store} {d s n i x : Nat} {v : Byte}

theorem fillLoop_eq : m.fillLoop d n v = m.fill d n v := by
  unfold fillLoop
  refine loop_induct (P := fun k t => t = m.fill d k v) ?_ ?_
  · funext x
    rw [fill_out (by omega)]
  · intro k t _ ht
    funext x
    rw [ht]
    by_cases hx : x = d + k
    · rw [hx, set_same, fill_in (by omega) (by omega)]
    · rw [set_out hx]
      by_cases hin : d ≤ x ∧ x < d + k
      · rw [fill_in hin.1 hin.2, fill_in hin.1 (by omega)]
      · rw [fill_out (by omega), fill_out (by omega)]

theorem copyLoop_out (h : x < d ∨ d + n ≤ x) : m.copyLoop d s n x = m x := by
  unfold copyLoop
  refine loop_induct (P := fun _ (t : Store) => t x = m x) rfl ?_
  intro k t hk ht
  rw [set_out (by omega), ht]

/-- A byte in front of the destination is copied as it is. -/
theorem copyLoop_in (hi : i < n) (h : s + i < d) : m.copyLoop d s n (d + i) = m (s + i) := by
  have hloop : m.copyLoop d s n (s + i) = m (s + i) ∧ (i < n → m.copyLoop d s n (d + i) = m (s + i)) := by
    unfold copyLoop
    refine loop_induct (P := fun k (t : Store) =>
      t (s + i) = m (s + i) ∧ (i < k → t (d + i) = m (s + i))) ?_ ?_
    · exact ⟨rfl, fun h0 => absurd h0 (Nat.not_lt_zero i)⟩
    · intro k t _ ⟨hfront, hcopied⟩
      refine ⟨by rw [set_out (by omega), hfront], fun hk => ?_⟩
      rcases Nat.lt_succ_iff_lt_or_eq.mp hk with hlt | rfl
      · rw [set_out (by omega), hcopied hlt]
      · rw [set_same, hfront]
  exact hloop.2 hi

/-- Between ranges that are apart, every byte arrives. -/
theorem copyLoop_eq (hapart : d + n ≤ s ∨ s + n ≤ d) : m.copyLoop d s n = m.blit d n m s := by
  unfold copyLoop
  refine loop_induct (P := fun k t => t = m.blit d k m s) ?_ ?_
  · funext x
    rw [blit_out (by omega)]
  · intro k t hk ht
    rw [ht, blit_out (by omega)]
    funext x
    by_cases hx : x = d + k
    · rw [hx, set_same, blit_in (by omega) (by omega), Nat.add_sub_cancel_left]
    · rw [set_out hx]
      by_cases hin : d ≤ x ∧ x < d + k
      · rw [blit_in hin.1 hin.2, blit_in hin.1 (by omega)]
      · rw [blit_out (by omega), blit_out (by omega)]

/-! ### In pieces -/

variable {src : Store} {k j : Nat}

/-- One copy behind the other. -/
theorem blit_append : (m.blit d k src s).blit (d + k) j src (s + k) = m.blit d (k + j) src s := by
  funext x
  by_cases hfront : d ≤ x ∧ x < d + k
  · rw [blit_out (by omega), blit_in hfront.1 hfront.2, blit_in hfront.1 (by omega)]
  by_cases hback : d + k ≤ x ∧ x < d + k + j
  · rw [blit_in hback.1 hback.2, blit_in (by omega) (by omega)]
    exact congrArg src (by omega)
  · rw [blit_out (by omega), blit_out (by omega), blit_out (by omega)]

theorem blit_nothing : m.blit d 0 src s = m := by
  funext x
  exact blit_out (by omega)

/-- A byte of an integer that is read. -/
theorem byte_le : ∀ {k s i : Nat}, i < k → BitVec.ofNat 8 (src.le s k / 256 ^ i) = src (s + i) := by
  intro k
  induction k with
  | zero => intro s i hi; exact absurd hi (Nat.not_lt_zero i)
  | succ k ih =>
      intro s i hi
      have hbyte := (src s).isLt
      cases i with
      | zero =>
          show BitVec.ofNat 8 (((src s).toNat + 256 * src.le (s + 1) k) / 256 ^ 0) = src s
          rw [Nat.pow_zero, Nat.div_one]
          refine BitVec.eq_of_toNat_eq ?_
          rw [BitVec.toNat_ofNat]
          omega
      | succ i =>
          have hrest : src.le s (k + 1) / 256 ^ (i + 1) = src.le (s + 1) k / 256 ^ i := by
            show ((src s).toNat + 256 * src.le (s + 1) k) / 256 ^ (i + 1) = _
            rw [Nat.pow_succ, Nat.mul_comm (256 ^ i) 256, ← Nat.div_div_eq_div_mul]
            congr 1
            omega
          rw [hrest, ih (Nat.lt_of_succ_lt_succ hi), Nat.add_assoc, Nat.add_comm 1 i]

/-- An integer written where it is read elsewhere. -/
theorem setLe_le : m.setLe d k (src.le s k) = m.blit d k src s := by
  funext x
  by_cases hin : d ≤ x ∧ x < d + k
  · rw [blit_in hin.1 hin.2]
    unfold setLe
    rw [if_pos hin]
    exact byte_le (by omega)
  · rw [blit_out (by omega), setLe_out (by omega)]

end Store

end Eke
