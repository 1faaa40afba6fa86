/-
A queue in a ring of slots.

The reader's and the writer's index go around `c` slots; the slots from the one to the other hold
the elements in order.  One slot stays free, so equal indices are an empty queue, and a queue whose
writer is one slot behind the reader holds `c - 1` elements.
-/
import Mathlib.Data.List.Basic
import Mathlib.Logic.Function.Basic

namespace Eke

namespace Queue

universe u

variable {α : Type u} {c r w : Nat} {a : Nat → α} {x : α}

def size (c r w : Nat) : Nat := (w + c - r) % c

/-- The elements from the reader's slot on. -/
def contents (c : Nat) (a : Nat → α) (r w : Nat) : List α :=
  (List.range (size c r w)).map fun i => a ((r + i) % c)

theorem contents_length : (contents c a r w).length = size c r w := by
  rw [contents, List.length_map, List.length_range]

/-- The size without a remainder. -/
theorem size_eq (hr : r < c) (hw : w < c) : size c r w = if r ≤ w then w - r else w + c - r := by
  unfold size
  split
  · rw [show w + c - r = w - r + c by omega, Nat.add_mod_right, Nat.mod_eq_of_lt (by omega)]
  · rw [Nat.mod_eq_of_lt (by omega)]

/-- The slot behind `r`. -/
theorem succ_mod (hr : r < c) : (r + 1) % c = if r + 1 = c then 0 else r + 1 := by
  split
  · rename_i h
    rw [h, Nat.mod_self]
  · rw [Nat.mod_eq_of_lt (by omega)]

theorem contents_nil (hr : r < c) (hw : w < c) : contents c a r w = [] ↔ r = w := by
  rw [← List.length_eq_zero_iff, contents_length, size_eq hr hw]
  split <;> omega

/-- One slot is always free. -/
theorem contents_full (hr : r < c) (hw : w < c) (h : (w + 1) % c = r) :
    (contents c a r w).length = c - 1 := by
  rw [succ_mod hw] at h
  rw [contents_length, size_eq hr hw]
  split at h <;> split <;> omega

theorem contents_room (hr : r < c) (hw : w < c) (h : (w + 1) % c ≠ r) :
    (contents c a r w).length < c - 1 := by
  rw [succ_mod hw] at h
  rw [contents_length, size_eq hr hw]
  split at h <;> split <;> omega

/-- The reader takes the first element. -/
theorem contents_pop (hr : r < c) (hw : w < c) (h : r ≠ w) :
    contents c a r w = a r :: contents c a ((r + 1) % c) w := by
  have hsize : size c r w = size c ((r + 1) % c) w + 1 := by
    rw [size_eq (Nat.mod_lt _ (by omega)) hw, size_eq hr hw, succ_mod hr]
    split_ifs <;> omega
  unfold contents
  rw [hsize, List.range_succ_eq_map, List.map_cons, List.map_map, Nat.add_zero, Nat.mod_eq_of_lt hr]
  refine congrArg (a r :: ·) (List.map_congr_left fun i _ => ?_)
  show a ((r + (i + 1)) % c) = a (((r + 1) % c + i) % c)
  rw [Nat.mod_add_mod, Nat.add_assoc, Nat.add_comm 1 i]

/-- The writer adds a last element while a slot is free. -/
theorem contents_push (hr : r < c) (hw : w < c) (h : (w + 1) % c ≠ r) :
    contents c (Function.update a w x) r ((w + 1) % c) = contents c a r w ++ [x] := by
  have hsize : size c r ((w + 1) % c) = size c r w + 1 := by
    rw [succ_mod hw] at h ⊢
    rw [size_eq hr hw, size_eq hr (by split <;> omega)]
    split_ifs at h ⊢ <;> omega
  have hlast : (r + size c r w) % c = w := by
    rw [size_eq hr hw]
    split
    · rw [show r + (w - r) = w by omega, Nat.mod_eq_of_lt hw]
    · rw [show r + (w + c - r) = w + c by omega, Nat.add_mod_right, Nat.mod_eq_of_lt hw]
  unfold contents
  rw [hsize, List.range_succ, List.map_append, List.map_singleton, hlast, Function.update_self]
  refine congrArg (· ++ [x]) (List.map_congr_left fun i hi => Function.update_of_ne (fun heq => ?_) _ _)
  -- no slot before the writer's is the writer's
  have hlt := List.mem_range.mp hi
  have hsizelt : size c r w < c := Nat.mod_lt _ (by omega)
  rw [← hlast] at heq
  have hdiff := Nat.sub_mod_eq_zero_of_mod_eq heq.symm
  rw [Nat.mod_eq_of_lt (by omega)] at hdiff
  omega

end Queue

end Eke
