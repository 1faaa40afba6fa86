/-
C strings in arrays.

`Holds size a l`: the array `a` of `size` bytes holds the string `l`, with the zero that ends it.
The loops of a C program over such arrays stop at the zero; one that does not find it within the
array reads behind it, and has no result.
-/
import Eke.Lib.Bytes
import Mathlib.Logic.Function.Basic

namespace Eke

namespace CString

variable {size n i : Nat} {a b dest src : Nat → Byte} {l m : List Byte} {c : Byte}

/-- `while ((*dest++ = *src++));`, from index `i` on and `n` bytes in front of the end of the arrays. -/
def copyFrom (src : Nat → Byte) : Nat → Nat → (Nat → Byte) → Option (Nat → Byte)
  | 0, _, _ => none
  | n + 1, i, dest =>
      let dest := Function.update dest i (src i)
      if src i = 0 then some dest else copyFrom src n (i + 1) dest

/-- `while (*a && *b) { if (*a != *b) return false; a++; b++; } return *a == *b;` -/
def eqFrom (a b : Nat → Byte) : Nat → Nat → Option Bool
  | 0, _ => none
  | n + 1, i =>
      if a i ≠ 0 ∧ b i ≠ 0 then if a i ≠ b i then some false else eqFrom a b n (i + 1)
      else some (decide (a i = b i))

/-- `while (a[i] == c) i++;` -/
def skipFrom (a : Nat → Byte) (c : Byte) : Nat → Nat → Option Nat
  | 0, _ => none
  | n + 1, i => if a i = c then skipFrom a c n (i + 1) else some i

/-- `while (a[i] && a[i] != c) i++;` -/
def findFrom (a : Nat → Byte) (c : Byte) : Nat → Nat → Option Nat
  | 0, _ => none
  | n + 1, i => if a i ≠ 0 ∧ a i ≠ c then findFrom a c n (i + 1) else some i

/-- The bytes from index `i` on in front of the zero. -/
def textFrom (a : Nat → Byte) : Nat → Nat → Option (List Byte)
  | 0, _ => none
  | n + 1, i => if a i = 0 then some [] else (textFrom a n (i + 1)).map (a i :: ·)

/-! ### Loops that come to a zero -/

section

variable {z : Nat} (hz : a z = 0)

include hz

theorem skipFrom_some (hc : c ≠ 0) (hi : i ≤ z) (hn : z < i + n) :
    ∃ j, skipFrom a c n i = some j ∧ i ≤ j ∧ j ≤ z := by
  induction n generalizing i with
  | zero => omega
  | succ n ih =>
      unfold skipFrom
      by_cases heq : a i = c
      · have hne : i ≠ z := by
          rintro rfl
          exact hc (heq.symm.trans hz)
        obtain ⟨j, hj, hle, hle'⟩ := @ih (i + 1) (by omega) (by omega)
        exact ⟨j, by rw [if_pos heq, hj], by omega, hle'⟩
      · exact ⟨i, if_neg heq, Nat.le_refl _, hi⟩

theorem findFrom_some (hi : i ≤ z) (hn : z < i + n) :
    ∃ j, findFrom a c n i = some j ∧ i ≤ j ∧ j ≤ z ∧ (a j = 0 ∨ a j = c) := by
  induction n generalizing i with
  | zero => omega
  | succ n ih =>
      unfold findFrom
      by_cases hgo : a i ≠ 0 ∧ a i ≠ c
      · have hne : i ≠ z := by
          rintro rfl
          exact hgo.1 hz
        obtain ⟨j, hj, hle, hle', hstop⟩ := @ih (i + 1) (by omega) (by omega)
        exact ⟨j, by rw [if_pos hgo, hj], by omega, hle', hstop⟩
      · refine ⟨i, if_neg hgo, Nat.le_refl _, hi, ?_⟩
        exact (not_and_or.mp hgo).imp not_not.mp not_not.mp

theorem textFrom_some (hi : i ≤ z) (hn : z < i + n) : ∃ t, textFrom a n i = some t := by
  induction n generalizing i with
  | zero => omega
  | succ n ih =>
      unfold textFrom
      by_cases heq : a i = 0
      · exact ⟨[], if_pos heq⟩
      · have hne : i ≠ z := by
          rintro rfl
          exact heq hz
        obtain ⟨t, ht⟩ := @ih (i + 1) (by omega) (by omega)
        exact ⟨a i :: t, by rw [if_neg heq, ht]; rfl⟩

end

/-! ### Strings -/

/-- A string in an array of `size` bytes. -/
structure Holds (size : Nat) (a : Nat → Byte) (l : List Byte) : Prop where
  room : l.length < size
  nonzero : ∀ c ∈ l, c ≠ 0
  chars : ∀ k (h : k < l.length), a k = l[k]
  stop : a l.length = 0

theorem Holds.nil (hsize : 0 < size) (h : a 0 = 0) : Holds size a [] := ⟨hsize, nofun, nofun, h⟩

theorem Holds.char_ne (h : Holds size a l) (hi : i < l.length) : a i ≠ 0 := by
  rw [h.chars i hi]
  exact h.nonzero _ (List.getElem_mem hi)

/-- The string in an array is known from its bytes. -/
theorem Holds.text (h : Holds size a l) : textFrom a size 0 = some l := by
  have hfrom : ∀ n i, i + n = size → i ≤ l.length → textFrom a n i = some (l.drop i) := by
    intro n
    induction n with
    | zero =>
        intro i hi hle
        have := h.room
        omega
    | succ n ih =>
        intro i hi hle
        unfold textFrom
        rcases Nat.lt_or_eq_of_le hle with hlt | rfl
        · rw [if_neg (h.char_ne hlt), ih (i + 1) (by omega) hlt, h.chars i hlt,
            List.drop_eq_getElem_cons hlt]
          rfl
        · rw [if_pos h.stop, List.drop_length]
  exact hfrom size 0 (Nat.zero_add _) (Nat.zero_le _)

/-- One more character, with a new zero behind it. -/
theorem Holds.push (h : Holds size a l) (hroom : l.length + 1 < size) (hc : c ≠ 0) :
    Holds size (Function.update (Function.update a l.length c) (l.length + 1) 0) (l ++ [c]) := by
  have hlen : (l ++ [c]).length = l.length + 1 := by simp
  refine ⟨by rw [hlen]; exact hroom, fun d hd => ?_, fun k hk => ?_, ?_⟩
  · rcases List.mem_append.mp hd with hd | hd
    · exact h.nonzero d hd
    · rwa [List.mem_singleton.mp hd]
  · rw [hlen] at hk
    rw [Function.update_of_ne (by omega)]
    rcases Nat.lt_succ_iff_lt_or_eq.mp hk with hlt | rfl
    · rw [Function.update_of_ne (by omega), h.chars k hlt, List.getElem_append_left hlt]
    · rw [Function.update_self, List.getElem_concat_length rfl]
  · rw [hlen]
    exact Function.update_self ..

/-- A string that ends earlier. -/
theorem Holds.take (h : Holds size a l) {k : Nat} (hk : k ≤ l.length) :
    Holds size (Function.update a k 0) (l.take k) := by
  have hlen : (l.take k).length = k := List.length_take_of_le hk
  refine ⟨?_, fun c hc => h.nonzero c (List.mem_of_mem_take hc), fun j hj => ?_, ?_⟩
  · rw [hlen]
    exact Nat.lt_of_le_of_lt hk h.room
  · rw [hlen] at hj
    rw [Function.update_of_ne (by omega), h.chars j (by omega), List.getElem_take]
  · rw [hlen]
    exact Function.update_self ..

/-- Copying a string. -/
theorem Holds.copy (h : Holds size src l) (dest : Nat → Byte) :
    ∃ a, copyFrom src size 0 dest = some a ∧ Holds size a l := by
  -- the bytes in front of `i` have been copied
  have hfrom : ∀ n i dest, i + n = size → i ≤ l.length → (∀ k, k < i → dest k = src k) →
      ∃ a, copyFrom src n i dest = some a ∧ ∀ k, k ≤ l.length → a k = src k := by
    intro n
    induction n with
    | zero =>
        intro i dest hi hle
        have := h.room
        omega
    | succ n ih =>
        intro i dest hi hle hdest
        have hstep : ∀ k, k < i + 1 → Function.update dest i (src i) k = src k := by
          intro k hk
          rcases Nat.lt_succ_iff_lt_or_eq.mp hk with hlt | rfl
          · rw [Function.update_of_ne (by omega), hdest k hlt]
          · exact Function.update_self ..
        unfold copyFrom
        rcases Nat.lt_or_eq_of_le hle with hlt | rfl
        · simp only [if_neg (h.char_ne hlt)]
          exact ih (i + 1) _ (by omega) hlt hstep
        · simp only [if_pos h.stop]
          exact ⟨_, rfl, fun k hk => hstep k (Nat.lt_succ_of_le hk)⟩
  obtain ⟨a, ha, hsame⟩ := hfrom size 0 dest (Nat.zero_add _) (Nat.zero_le _) nofun
  refine ⟨a, ha, h.room, h.nonzero, fun k hk => ?_, ?_⟩
  · rw [hsame k (Nat.le_of_lt hk)]
    exact h.chars k hk
  · rw [hsame _ (Nat.le_refl _)]
    exact h.stop

/-- Comparing two strings. -/
theorem Holds.eq (ha : Holds size a l) (hb : Holds size b m) :
    eqFrom a b size 0 = some (decide (l = m)) := by
  have hfrom : ∀ n i, i + n = size → i ≤ l.length → i ≤ m.length →
      eqFrom a b n i = some (decide (l.drop i = m.drop i)) := by
    intro n
    induction n with
    | zero =>
        intro i hi hle _
        have := ha.room
        omega
    | succ n ih =>
        intro i hi hl hm
        unfold eqFrom
        rcases Nat.lt_or_eq_of_le hl with hl | rfl
        · rcases Nat.lt_or_eq_of_le hm with hm | rfl
          · have hcons : l.drop i = m.drop i ↔ l[i] = m[i] ∧ l.drop (i + 1) = m.drop (i + 1) := by
              rw [List.drop_eq_getElem_cons hl, List.drop_eq_getElem_cons hm, List.cons_eq_cons]
            rw [if_pos ⟨ha.char_ne hl, hb.char_ne hm⟩, ha.chars i hl, hb.chars i hm]
            by_cases hhead : l[i] = m[i]
            · rw [if_neg (not_not.mpr hhead), ih (i + 1) (by omega) hl hm]
              refine congrArg some (decide_eq_decide.mpr ?_)
              rw [hcons]
              exact (and_iff_right hhead).symm
            · rw [if_pos hhead, decide_eq_false fun h => hhead (hcons.mp h).1]
          · have hne := ha.char_ne hl
            rw [if_neg fun h => h.2 hb.stop, hb.stop, decide_eq_false hne, List.drop_length,
              decide_eq_false]
            rw [List.drop_eq_nil_iff]
            omega
        · rw [if_neg fun h => h.1 ha.stop, ha.stop, List.drop_length]
          rcases Nat.lt_or_eq_of_le hm with hm | hm
          · have hne := hb.char_ne hm
            rw [decide_eq_false (Ne.symm hne), decide_eq_false]
            rw [eq_comm, List.drop_eq_nil_iff]
            omega
          · rw [hm, hb.stop, List.drop_length]
            rfl
  exact hfrom size 0 (Nat.zero_add _) (Nat.zero_le _) (Nat.zero_le _)

end CString

end Eke
