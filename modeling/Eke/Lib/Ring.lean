/-
Ring buffers that keep the last elements of a list.

A writer that never reads back needs only a head: the next slot it writes.  What the buffer means
is the list of everything written, of which it still has the last `c` elements; element `j` is in
slot `j % c`.  A reader finds the elements two ways: from slot 0 on while the buffer fills, and
from the head on once it is full.
-/
import Mathlib.Data.List.Destutter

namespace Eke

universe u v

variable {α : Type u} {β : Type v} {R : α → β → Prop} {c head count : Nat} {a a' : Nat → α} {l : List β}

/-- The last elements of a list. -/
def lastOf (c : Nat) (l : List β) : List β := l.drop (l.length - c)

/-- The slots `a` of a ring with `c` of them keep the last elements of `l`. -/
structure Ring (R : α → β → Prop) (c : Nat) (a : Nat → α) (head count : Nat) (l : List β) : Prop where
  head : head = l.length % c
  count : count = min l.length c
  slots : ∀ j x, l.length - c ≤ j → l[j]? = some x → R (a (j % c)) x

/-- The slot of the `i`th of the elements a ring still has. -/
def slotOf (c head count i : Nat) : Nat := if count < c then i else (head + i) % c

theorem Ring.empty (R : α → β → Prop) (c : Nat) (a : Nat → α) : Ring R c a 0 0 [] := by
  refine ⟨(Nat.zero_mod c).symm, (Nat.zero_min c).symm, fun j x _ h => ?_⟩
  rw [List.getElem?_nil] at h
  cases h

theorem Ring.length (h : Ring R c a head count l) : (lastOf c l).length = count := by
  unfold lastOf
  rw [List.length_drop, h.count]
  omega

/-- What a reader finds. -/
theorem Ring.read (h : Ring R c a head count l) {i : Nat} {x : β} (hx : (lastOf c l)[i]? = some x) :
    R (a (slotOf c head count i)) x := by
  unfold lastOf at hx
  rw [List.getElem?_drop] at hx
  have hread := h.slots _ x (Nat.le_add_right _ i) hx
  have hlt : l.length - c + i < l.length := (List.getElem?_eq_some_iff.mp hx).1
  have hhead := h.head
  have hcount := h.count
  unfold slotOf
  by_cases hfull : count < c
  · rw [if_pos hfull]
    rwa [show l.length - c + i = i by omega, Nat.mod_eq_of_lt (by omega)] at hread
  · rw [if_neg hfull, hhead, Nat.mod_add_mod]
    rwa [← Nat.add_mod_right, show l.length - c + i + c = l.length + i by omega] at hread

/-- Writing the slot at the head. -/
theorem Ring.push (h : Ring R c a head count l) (hc : 0 < c) {x : β} (hx : R (a' head) x)
    (hrest : ∀ i, i < c → i ≠ head → ∀ y, R (a i) y → R (a' i) y) :
    Ring R c a' ((head + 1) % c) (if count < c then count + 1 else count) (l ++ [x]) := by
  have hhead := h.head
  have hcount := h.count
  refine ⟨?_, ?_, fun j y hj hy => ?_⟩
  · rw [List.length_append, List.length_singleton, hhead, Nat.mod_add_mod]
  · rw [List.length_append, List.length_singleton]
    split <;> omega
  · rw [List.length_append, List.length_singleton] at hj
    by_cases hlast : j = l.length
    · rw [hlast, List.getElem?_append_right (Nat.le_refl _), Nat.sub_self] at hy
      obtain rfl := Option.some.inj hy
      rw [hlast, ← hhead]
      exact hx
    · have hlt : j < l.length := by
        have hlen := (List.getElem?_eq_some_iff.mp hy).1
        rw [List.length_append, List.length_singleton] at hlen
        omega
      rw [List.getElem?_append_left hlt] at hy
      refine hrest _ (Nat.mod_lt _ hc) (fun heq => ?_) y (h.slots j y (by omega) hy)
      -- two of the last `c` elements are in one slot only if they are the same
      have hdiff : (l.length - j) % c = 0 := by
        rw [hhead] at heq
        exact Nat.sub_mod_eq_zero_of_mod_eq heq.symm
      rw [Nat.mod_eq_of_lt (by omega)] at hdiff
      omega

/-! ### The last elements -/

theorem lastOf_getLast? (hc : 0 < c) (l : List β) : (lastOf c l).getLast? = l.getLast? := by
  unfold lastOf
  rw [List.getLast?_drop]
  by_cases hnil : l = []
  · rw [hnil]
    exact ite_self none
  · have hlen : 0 < l.length := List.length_pos_iff.mpr hnil
    exact if_neg (by omega)

/-- Only the last elements count for the last elements of a longer list. -/
theorem lastOf_concat (c : Nat) (l : List β) (x : β) :
    lastOf c (lastOf c l ++ [x]) = lastOf c (l ++ [x]) := by
  have hdrop : lastOf c l ++ [x] = (l ++ [x]).drop (l.length - c) :=
    (List.drop_append_of_le_length (Nat.sub_le ..)).symm
  unfold lastOf at hdrop ⊢
  rw [hdrop, List.drop_drop, List.length_drop, List.length_append, List.length_singleton]
  congr 1
  omega

/-- A list without its stutter has a new element at the end if that differs from the last one. -/
theorem destutter_concat [DecidableEq β] (l : List β) (x : β) : (l ++ [x]).destutter (· ≠ ·) =
    if (l.destutter (· ≠ ·)).getLast? = some x then l.destutter (· ≠ ·)
    else l.destutter (· ≠ ·) ++ [x] := by
  have hfrom : ∀ (l : List β) (a : β), (l ++ [x]).destutter' (· ≠ ·) a =
      if (l.destutter' (· ≠ ·) a).getLast? = some x then l.destutter' (· ≠ ·) a
      else l.destutter' (· ≠ ·) a ++ [x] := by
    intro l
    induction l with
    | nil =>
        intro a
        rw [List.nil_append, List.destutter'_singleton, List.destutter'_nil, List.getLast?_singleton]
        by_cases heq : a = x
        · rw [if_neg (not_not.mpr heq), if_pos (congrArg some heq)]
        · rw [if_pos heq, if_neg fun h => heq (Option.some.inj h)]
          rfl
    | cons b l ih =>
        intro a
        rw [List.cons_append]
        by_cases heq : a = b
        · rw [List.destutter'_cons_neg _ (not_not.mpr heq), List.destutter'_cons_neg _ (not_not.mpr heq)]
          exact ih a
        · have hlast : (a :: l.destutter' (· ≠ ·) b).getLast? = (l.destutter' (· ≠ ·) b).getLast? := by
            rw [List.getLast?_cons, List.getLast?_eq_some_getLast (List.destutter'_ne_nil _ _)]
            rfl
          rw [List.destutter'_cons_pos _ heq, List.destutter'_cons_pos _ heq, ih b, hlast]
          exact apply_ite (a :: ·) _ _ _
  cases l with
  | nil => rfl
  | cons a l => exact hfrom l a

end Eke
