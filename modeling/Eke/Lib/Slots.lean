/-
Slots laid one behind another.

A slot uses some bytes from its place on, and some bytes are set aside for it: the next slot is placed
behind these, by a counter that may wrap.  Slots that use no more than what is set aside for them lie
apart as long as the counter does not wrap.  If no slot has more than it uses, they lie apart only then,
since slots that are apart have room for everything they use.
-/
import Mathlib.Algebra.Order.BigOperators.Group.List
import Mathlib.Data.Int.Interval

namespace Eke

structure Slot where
  place : Int
  used : Int
  aside : Int

/-- The slot uses an address. -/
def Slot.Covers (s : Slot) (a : Int) : Prop := s.place ≤ a ∧ a < s.place + s.used

/-- The slots are laid from `x` on, and the counter ends at `y`. -/
inductive Laid (wrap : Int → Int) : Int → List Slot → Int → Prop
  | nil {x : Int} : Laid wrap x [] x
  | cons {s : Slot} {ss : List Slot} {y : Int} : Laid wrap (wrap (s.place + s.aside)) ss y →
      Laid wrap s.place (s :: ss) y

/-- No two slots share an address, and all of them are between `x` and `y`. -/
structure Parted (x y : Int) (ss : List Slot) : Prop where
  disjoint : ss.Pairwise fun s t => ∀ a, s.Covers a → ¬ t.Covers a
  inside : ∀ s ∈ ss, ∀ a, s.Covers a → x ≤ a ∧ a < y

variable {wrap : Int → Int} {ss ts : List Slot} {x y z M : Int}

theorem Laid.append (h : Laid wrap x ss y) (h' : Laid wrap y ts z) : Laid wrap x (ss ++ ts) z := by
  induction h with
  | nil => exact h'
  | cons _ ih => exact .cons (ih h')

/-- The counter ends below any bound of what it wraps to. -/
theorem Laid.lt (h : Laid wrap x ss y) (hwrap : ∀ z, wrap z < M) (hx : x < M) : y < M := by
  induction h with
  | nil => exact hx
  | cons _ ih => exact ih (hwrap _)

theorem Laid.end_eq (h : Laid id x ss y) : y = x + (ss.map Slot.aside).sum := by
  induction h with
  | nil => exact (Int.add_zero _).symm
  | cons _ ih =>
      rw [ih, List.map_cons, List.sum_cons]
      exact Int.add_assoc ..

theorem asides_nonneg (h : ∀ s ∈ ss, 0 ≤ s.aside) : 0 ≤ (ss.map Slot.aside).sum := by
  refine List.sum_nonneg fun a ha => ?_
  obtain ⟨s, hs, rfl⟩ := List.mem_map.mp ha
  exact h s hs

/-- What holds of the places, by what the counter keeps. -/
theorem Laid.places {Q : Int → Prop} (h : Laid wrap x ss y) (hx : Q x)
    (hnext : ∀ s ∈ ss, Q s.place → Q (wrap (s.place + s.aside))) : (∀ s ∈ ss, Q s.place) ∧ Q y := by
  induction h with
  | nil => exact ⟨fun s hs => absurd hs List.not_mem_nil, hx⟩
  | @cons s ss y _ ih =>
      have hrest : ∀ t ∈ ss, Q t.place → Q (wrap (t.place + t.aside)) :=
        fun t ht => hnext t (List.mem_cons_of_mem _ ht)
      obtain ⟨hplaces, hy⟩ := ih (hnext s (List.mem_cons_self ..) hx) hrest
      refine ⟨fun t ht => ?_, hy⟩
      rcases List.mem_cons.mp ht with rfl | ht
      · exact hx
      · exact hplaces t ht

/-- A counter that has room for all that is set aside does not wrap. -/
theorem Laid.unwrapped (h : Laid wrap x ss y) (hwrap : ∀ z, 0 ≤ z → z < M → wrap z = z) (hx : 0 ≤ x)
    (haside : ∀ s ∈ ss, 0 ≤ s.aside) (hroom : x + (ss.map Slot.aside).sum < M) : Laid id x ss y := by
  induction h with
  | nil => exact .nil
  | @cons s ss y _ ih =>
      have hs := haside s (List.mem_cons_self ..)
      have hrest : ∀ t ∈ ss, 0 ≤ t.aside := fun t ht => haside t (List.mem_cons_of_mem _ ht)
      have hsum := asides_nonneg hrest
      rw [List.map_cons, List.sum_cons] at hroom
      have hnext : wrap (s.place + s.aside) = s.place + s.aside := hwrap _ (by omega) (by omega)
      rw [hnext] at ih
      exact .cons (ih (by omega) hrest (by omega))

theorem Laid.parted (h : Laid id x ss y) (haside : ∀ s ∈ ss, 0 ≤ s.aside)
    (hused : ∀ s ∈ ss, s.used ≤ s.aside) : Parted x y ss := by
  induction h with
  | nil => exact ⟨.nil, fun s hs => absurd hs List.not_mem_nil⟩
  | @cons s ss y htail ih =>
      have hs := haside s (List.mem_cons_self ..)
      have hs' := hused s (List.mem_cons_self ..)
      have hrest : ∀ t ∈ ss, 0 ≤ t.aside := fun t ht => haside t (List.mem_cons_of_mem _ ht)
      have hend := htail.end_eq
      have hsum := asides_nonneg hrest
      simp only [id] at hend ih
      have ih := ih hrest fun t ht => hused t (List.mem_cons_of_mem _ ht)
      refine ⟨List.pairwise_cons.mpr ⟨fun t ht a ha hat => ?_, ih.disjoint⟩, fun t ht a ha => ?_⟩
      · have hat' := ih.inside t ht a hat
        have ha' := ha.2
        omega
      · rcases List.mem_cons.mp ht with rfl | ht
        · obtain ⟨hlow, hhigh⟩ := ha
          omega
        · have ha' := ih.inside t ht a ha
          omega

/-- Disjoint sets in a set have no more elements than the set. -/
theorem sum_card_le {α : Type} [DecidableEq α] {S : Finset α} {l : List (Finset α)}
    (hdisj : l.Pairwise fun s t => ∀ a ∈ s, a ∉ t) (hin : ∀ s ∈ l, ∀ a ∈ s, a ∈ S) :
    (l.map Finset.card).sum ≤ S.card := by
  induction l generalizing S with
  | nil => exact Nat.zero_le _
  | cons s l ih =>
      obtain ⟨hs, hl⟩ := List.pairwise_cons.mp hdisj
      have hsS : s ⊆ S := fun a ha => hin s (List.mem_cons_self ..) a ha
      have hrest := ih (S := S \ s) hl fun t ht a ha => Finset.mem_sdiff.mpr
        ⟨hin t (List.mem_cons_of_mem _ ht) a ha, fun has => hs t ht a has ha⟩
      rw [Finset.card_sdiff_of_subset hsS] at hrest
      have hcard := Finset.card_le_card hsS
      rw [List.map_cons, List.sum_cons]
      omega

/-- What disjoint slots use has room between the bounds. -/
theorem Parted.used_le (h : Parted x y ss) (hxy : x ≤ y) : (ss.map Slot.used).sum ≤ y - x := by
  have hmem : ∀ (s : Slot) (a : Int), a ∈ Finset.Ico s.place (s.place + s.used) ↔ s.Covers a :=
    fun _ _ => Finset.mem_Ico
  have hcard := sum_card_le (S := Finset.Ico x y)
    (l := ss.map fun s => Finset.Ico s.place (s.place + s.used))
    (List.pairwise_map.mpr (h.disjoint.imp fun hst a ha hat => hst a ((hmem _ a).mp ha) ((hmem _ a).mp hat)))
    (fun l hl a ha => by
      obtain ⟨s, hs, rfl⟩ := List.mem_map.mp hl
      exact Finset.mem_Ico.mpr (h.inside s hs a ((hmem s a).mp ha)))
  rw [Int.card_Ico, List.map_map] at hcard
  have hused : ∀ ts : List Slot, (ts.map Slot.used).sum ≤
      ((ts.map (Finset.card ∘ fun s => Finset.Ico s.place (s.place + s.used))).sum : Nat) := by
    intro ts
    induction ts with
    | nil => exact Int.le_refl _
    | cons s ts ih =>
        have hone : (Finset.Ico s.place (s.place + s.used)).card = s.used.toNat := by
          rw [Int.card_Ico, add_sub_cancel_left]
        simp only [List.map_cons, List.sum_cons, Function.comp_apply, hone] at ih ⊢
        omega
  have hle := hused ss
  omega

/-- Slots that have no more than they use, laid by a counter that wraps below `M`: if they lie apart,
the counter did not wrap, and they have what they use. -/
theorem Laid.tight (h : Laid wrap 0 ss y) (hwrap : ∀ z, 0 ≤ z → z < M → wrap z = z)
    (htop : ∀ z, wrap z < M) (hM : 0 < M) (haside : ∀ s ∈ ss, 0 ≤ s.aside)
    (hused : ∀ s ∈ ss, s.aside ≤ s.used) (hparted : Parted 0 y ss) :
    (ss.map Slot.used).sum < M ∧ ∀ s ∈ ss, s.used = s.aside := by
  have hy := h.lt htop hM
  have hle : (ss.map Slot.aside).sum ≤ (ss.map Slot.used).sum := List.sum_le_sum hused
  have hsum := asides_nonneg haside
  have hroom : (ss.map Slot.used).sum < M ∧ (ss.map Slot.used).sum ≤ max y 0 := by
    rcases Int.le_total 0 y with hy0 | hy0
    · have := hparted.used_le hy0
      omega
    · have hnone : Parted 0 0 ss := ⟨hparted.disjoint, fun s hs a ha => by
        have hin := hparted.inside s hs a ha
        omega⟩
      have := hnone.used_le (Int.le_refl 0)
      omega
  have hend := (h.unwrapped hwrap (Int.le_refl 0) haside (by omega)).end_eq
  refine ⟨hroom.1, fun s hs => ?_⟩
  by_contra hne
  have hlt : (ss.map Slot.aside).sum < (ss.map Slot.used).sum :=
    List.sum_lt_sum _ _ hused ⟨s, hs, lt_of_le_of_ne (hused s hs) (Ne.symm hne)⟩
  omega

end Eke
