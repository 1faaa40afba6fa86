/-
Where a free goes.

The kernel keeps the current heap and the one before it.  As long as a heap is swapped out only
when every live block is its own, each free reaches the heap that made the block, and the old
heap is given up without blocks: its counter is never below their number.
-/
import Eke.Memory.Heap

namespace Eke

namespace Heaps

variable {s t : Heaps} {h o : Nat} {b : Block} {e : Event}

/-- The old heap of `s` is no longer the old heap of `t`. -/
def Dropped (s t : Heaps) (o : Nat) : Prop :=
  s.Swapped ∧ s.oldheap = some o ∧ ¬ (t.Swapped ∧ t.oldheap = some o)

/-- A free leads to one successful `kfree`, on the heap that made the block, and an old heap is
dropped without blocks. -/
structure Served (s : Heaps) (e : Event) : Prop where
  freed : ∀ b ∈ s.live, e = .hfree b.addr → (s.hfree b.addr).1.filter (·.2) = [(b.heap, true)]
  dropped : ∀ o, Dropped s (s.next e) o → (s.next e).count o = 0

/-- What a step needs: room in the counter, and at a swap every live block is of the current heap. -/
def Calm (s : Heaps) : Event → Prop
  | .halloc _ _ => s.heapcnt + 1 ≠ 0
  | .hfree _ => True
  | .swap new => new.isSome → ∀ b ∈ s.live, s.heap = some b.heap

/-- Every live block is of the current or of the old heap, and the counters are not below the
number of their blocks. -/
structure Covered (s : Heaps) : Prop where
  heapcnt : ∀ h, s.heap = some h → s.count h ≤ s.heapcnt.toNat
  oldcnt : s.Swapped → ∀ o, s.oldheap = some o → s.count o ≤ s.oldcnt.toNat
  home : ∀ b ∈ s.live, s.heap = some b.heap ∨ s.Swapped ∧ s.oldheap = some b.heap

theorem count_zero (h : s.count o = 0) (hb : b ∈ s.live) : b.heap ≠ o := by
  intro hc
  have := count_pos hb
  rw [hc] at this
  omega

/-- Giving up the old heap leaves no block without a heap. -/
theorem Covered.retire (h : Covered s) : Covered s.retire := by
  refine ⟨fun h' hh => ?_, fun hsw o ho => ?_, fun b hb => ?_⟩
  · rw [retire_heap] at hh
    rw [retire_heapcnt, count, retire_live]
    exact h.heapcnt h' hh
  · obtain ⟨heq, hsw⟩ := retire_swapped hsw
    rw [heq] at ho ⊢
    exact h.oldcnt hsw o ho
  · rw [retire_live] at hb
    rw [retire_heap]
    rcases h.home b hb with hh | ⟨hsw, ho⟩
    · exact Or.inl hh
    · refine Or.inr ?_
      by_cases hkept : s.retire.Swapped
      · rw [(retire_swapped hkept).1]
        exact ⟨hsw, ho⟩
      · have hcnt := h.oldcnt hsw _ ho
        rw [retire_dropped hsw hkept] at hcnt
        exact absurd rfl (count_zero (Nat.le_zero.mp hcnt) hb)

/-- A dropped heap has no blocks. -/
theorem Covered.retire_empty (h : Covered s) (hd : Dropped s s.retire o) : s.retire.count o = 0 := by
  obtain ⟨hsw, ho, hnot⟩ := hd
  have hdrop : ¬ s.retire.Swapped := fun hc => hnot (by rw [(retire_swapped hc).1]; exact ⟨hsw, ho⟩)
  have hcnt := h.oldcnt hsw o ho
  rw [retire_dropped hsw hdrop] at hcnt
  rw [count, retire_live]
  exact Nat.le_zero.mp hcnt

/-- The blocks that are left after a free are covered, before the old heap may be given up. -/
theorem Covered.erase_old (h : Covered s) (hs : Shaped s) (hb : b ∈ s.live) (hsw : s.Swapped)
    (ho : s.oldheap = some b.heap) :
    Covered { s with live := s.live.erase b, oldcnt := s.oldcnt - 1 } := by
  have hpos := count_pos hb
  have hcnt := h.oldcnt hsw _ ho
  have hpred := toNat_pred (x := s.oldcnt) (by omega)
  refine ⟨fun h' hh => ?_, fun _ o ho' => ?_, fun c hc => h.home c (List.mem_of_mem_erase hc)⟩
  · have hne : b.heap ≠ h' := fun hc => (hs.old hsw).2 (by rw [ho, hc]; exact hh.symm)
    rw [count_erase_other hne]
    exact h.heapcnt h' hh
  · obtain rfl : b.heap = o := Option.some.inj (ho.symm.trans ho')
    have herase := count_erase_self hb s.heapcnt (s.oldcnt - 1)
    show _ ≤ (s.oldcnt - 1).toNat
    omega

theorem Covered.erase_current (h : Covered s) (hb : b ∈ s.live) (ho : s.Swapped → s.oldheap ≠ some b.heap)
    (hh : s.heap = some b.heap) :
    Covered { s with live := s.live.erase b, heapcnt := s.heapcnt - 1 } := by
  have hpos := count_pos hb
  have hcnt := h.heapcnt _ hh
  have hpred := toNat_pred (x := s.heapcnt) (by omega)
  refine ⟨fun h' hh' => ?_, fun hsw o ho' => ?_, fun c hc => h.home c (List.mem_of_mem_erase hc)⟩
  · obtain rfl : b.heap = h' := Option.some.inj (hh.symm.trans hh')
    have herase := count_erase_self hb (s.heapcnt - 1) s.oldcnt
    show _ ≤ (s.heapcnt - 1).toNat
    omega
  · have hne : b.heap ≠ o := fun hc => ho hsw (by rw [hc]; exact ho')
    rw [count_erase_other hne]
    exact h.oldcnt hsw o ho'

/-- A free of a live block. -/
theorem Covered.freed (h : Covered s) (hs : Shaped s) (hb : b ∈ s.live) :
    Covered (s.hfree b.addr).2 ∧ Served s (.hfree b.addr) := by
  have hwhole : ∀ (calls : List (Nat × Bool)) (u : Heaps), Covered u → u.oldheap = s.oldheap → u.flag = s.flag →
      calls.filter (·.2) = [(b.heap, true)] → s.hfree b.addr = (calls, u.retire) →
      Covered (s.hfree b.addr).2 ∧ Served s (.hfree b.addr) := by
    intro calls u hu hold hflag hcalls heq
    refine ⟨by rw [heq]; exact hu.retire, fun c hc hsame => ?_, fun o hd => ?_⟩
    · obtain rfl : c = b := List.inj_on_of_nodup_map hs.distinct hc hb (Event.hfree.inj hsame).symm
      rw [heq]
      exact hcalls
    · have hnext : s.next (.hfree b.addr) = u.retire := congrArg Prod.snd heq
      rw [hnext] at hd ⊢
      obtain ⟨hsw, ho, hnot⟩ := hd
      exact hu.retire_empty ⟨by rw [Swapped, hflag]; exact hsw, hold.trans ho, hnot⟩
  rcases em (s.Swapped ∧ s.oldheap = some b.heap) with ⟨hsw, ho⟩ | hne
  · exact hwhole _ _ (h.erase_old hs hb hsw ho) rfl rfl rfl (hfree_old hb hsw ho)
  · have ho : s.Swapped → s.oldheap ≠ some b.heap := fun hsw ho => hne ⟨hsw, ho⟩
    have hh : s.heap = some b.heap := (h.home b hb).resolve_right hne
    obtain ⟨calls, hcalls, heq⟩ := hfree_current hs hb ho hh
    exact hwhole calls _ (h.erase_current hb ho hh) rfl rfl hcalls heq

theorem Covered.halloc (h : Covered s) (hs : Shaped s) {result : Option Nat} (hroom : s.heapcnt + 1 ≠ 0) :
    Covered (s.halloc result).2 := by
  obtain ⟨c, hheap⟩ := Option.isSome_iff_exists.mp hs.heap
  have hsucc := (toNat_succ s.heapcnt rfl).mpr hroom
  cases result with
  | none =>
      rw [halloc_none]
      refine ⟨fun h' hh => ?_, h.oldcnt, h.home⟩
      have := h.heapcnt h' hh
      show s.count h' ≤ (s.heapcnt + 1).toNat
      omega
  | some addr =>
      rw [halloc_some hheap]
      refine ⟨fun h' hh => ?_, fun hsw o ho => ?_, fun b hb => ?_⟩
      · have := h.heapcnt h' hh
        have hle : count { s with heapcnt := s.heapcnt + 1, live := ⟨addr, c⟩ :: s.live } h' ≤ s.count h' + 1 := by
          simp only [count, List.countP_cons]
          split
          · omega
          · omega
        refine Nat.le_trans hle ?_
        show s.count h' + 1 ≤ (s.heapcnt + 1).toNat
        omega
      · have hne : c ≠ o := fun hc => (hs.old hsw).2 (by rw [hheap, hc]; exact ho)
        have hcnt : count { s with heapcnt := s.heapcnt + 1, live := ⟨addr, c⟩ :: s.live } o = s.count o := by
          simp [count, hne]
        rw [hcnt]
        exact h.oldcnt hsw o ho
      · rcases List.mem_cons.mp hb with rfl | hb
        · exact Or.inl hheap
        · exact h.home b hb

theorem Covered.step (h : Covered s) (hs : Shaped s) (he : e.Possible s) (hcalm : Calm s e) :
    Covered (s.next e) ∧ Served s e := by
  cases e with
  | halloc size result =>
      refine ⟨h.halloc hs hcalm, nofun, fun o hd => absurd hd.2.1 fun ho => hd.2.2 ?_⟩
      show (s.halloc result).2.Swapped ∧ (s.halloc result).2.oldheap = some o
      unfold Heaps.halloc
      split
      · exact ⟨hd.1, ho⟩
      · exact ⟨hd.1, ho⟩
  | hfree addr =>
      obtain ⟨b, hb, rfl⟩ := he
      exact h.freed hs hb
  | swap new =>
      cases new with
      | none => exact ⟨h, nofun, fun o hd => absurd ⟨hd.1, hd.2.1⟩ hd.2.2⟩
      | some h' =>
          have hall : ∀ b ∈ s.live, s.heap = some b.heap := hcalm rfl
          have hnone : ∀ o, s.heap ≠ some o → s.count o = 0 := by
            intro o ho
            refine List.countP_eq_zero.mpr fun b hb => ?_
            have hne : b.heap ≠ o := fun hc => ho (by rw [← hc]; exact hall b hb)
            simpa using hne
          refine ⟨⟨fun h'' hh => ?_, fun _ o ho => h.heapcnt o ho, fun b hb => ?_⟩, nofun, fun o hd => ?_⟩
          · obtain rfl := Option.some.inj hh
            exact Nat.le_of_eq (hnone h' (he h' rfl))
          · exact Or.inr ⟨swapped_or s.flag, hall b hb⟩
          · exact hnone o fun hh => (hs.old hd.1).2 (hd.2.1.trans hh.symm)

theorem Starts.covered {s₀ : Heaps} (hs : Starts s₀ s) : Covered s := by
  have hlive : s.live = [] := by rw [hs.init]; exact hs.live
  refine ⟨fun h _ => ?_, fun _ o _ => ?_, fun b hb => ?_⟩
  · simp [count, hlive]
  · simp [count, hlive]
  · rw [hlive] at hb
    exact absurd hb List.not_mem_nil

/-- **Frees and heap swaps.**  In a run from `init_heap` in which each heap is swapped out only
when every live block is its own, and the counter does not overflow, every free reaches the
heap that made the block and an old heap is given up without blocks. -/
theorem frees_routed {s₀ s t : Heaps} {ts : List (Heaps × Event)} (hs : Starts s₀ s) (run : Run s ts t)
    (hcalm : ∀ t ∈ ts, Calm t.1 t.2) : ∀ t ∈ ts, Served t.1 t.2 := by
  have hboth : Covered t ∧ ∀ t ∈ ts, Served t.1 t.2 := by
    induction run with
    | start => exact ⟨hs.covered, nofun⟩
    | step run he ih =>
        rw [List.forall_mem_append, List.forall_mem_singleton] at hcalm ⊢
        obtain ⟨hcov, hserved⟩ := ih hcalm.1
        obtain ⟨hcov', hlast⟩ := hcov.step (run.shaped hs.shaped) he hcalm.2
        exact ⟨hcov', hserved, hlast⟩
  exact hboth.2

/-- A block is allocated, its heap swapped out, and the block freed. -/
theorem frees_routed_swap :
    let s := installed.init_heap
    let s₁ := s.next (.halloc 8 (some 64))
    let s₂ := s₁.next (.swap (some 1))
    Served s₂ (.hfree 64) := by
  intro s s₁ s₂
  refine @frees_routed _ _ _ [(s, .halloc 8 (some 64)), (s₁, .swap (some 1)), (s₂, .hfree 64)] installed_starts
    (@Run.step _ [_, _] _ _ (@Run.step _ [_] _ _ (@Run.step _ [] _ _ .start nofun) ?_) ?_) ?_ (s₂, .hfree 64) ?_
  · intro h hh
    obtain rfl := Option.some.inj hh
    decide
  · exact ⟨⟨64, 0⟩, List.mem_singleton.mpr rfl, rfl⟩
  · intro t ht
    rcases List.mem_cons.mp ht with rfl | ht
    · show s.heapcnt + 1 ≠ 0
      decide
    rcases List.mem_cons.mp ht with rfl | ht
    · intro _ b hb
      obtain rfl := List.mem_singleton.mp hb
      rfl
    · rw [List.mem_singleton.mp ht]
      trivial
  · simp

/-- With a second swap while a block of the first heap is live, its free reaches no heap. -/
theorem frees_lost : ¬ ∀ (s₀ s t : Heaps) (ts : List (Heaps × Event)), Starts s₀ s → Run s ts t →
    ∀ t ∈ ts, Served t.1 t.2 := by
  intro hall
  let s := installed.init_heap
  let s₁ := s.next (.halloc 8 (some 64))
  let s₂ := s₁.next (.swap (some 1))
  let s₃ := s₂.next (.swap (some 2))
  have run : Run s [(s, .halloc 8 (some 64)), (s₁, .swap (some 1)), (s₂, .swap (some 2)), (s₃, .hfree 64)]
      (s₃.next (.hfree 64)) := by
    refine @Run.step _ [_, _, _] _ _ (@Run.step _ [_, _] _ _ (@Run.step _ [_] _ _
      (@Run.step _ [] _ _ .start nofun) ?_) ?_) ?_
    · intro h hh
      obtain rfl := Option.some.inj hh
      decide
    · intro h hh
      obtain rfl := Option.some.inj hh
      decide
    · exact ⟨⟨64, 0⟩, List.mem_singleton.mpr rfl, rfl⟩
  have hserved := hall installed s _ _ installed_starts run (s₃, .hfree 64) (by simp)
  have hcalls := hserved.freed ⟨64, 0⟩ (List.mem_singleton.mpr rfl) rfl
  exact absurd hcalls (by decide)

end Heaps

end Eke
