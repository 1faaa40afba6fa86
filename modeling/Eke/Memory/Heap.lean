/-
The kernel's heap.

`halloc` and `hfree` pass a call on to the heap module that is installed, and `swap_heap`
installs another one: the one before stays reachable as the old heap until the counter of its
blocks is zero.

The heap modules are the surroundings.  Which block a `kmalloc` returns is part of the event;
a `kfree` accepts exactly the live blocks that its own heap made.  `live` is what the modules
keep, and no function of the kernel reads it but through `kfree`.
-/
import Mathlib.Data.List.Count
import Mathlib.Data.List.Nodup
import Mathlib.Tactic.Tauto

namespace Eke

/-- A block in use, with the heap whose `kmalloc` returned it. -/
structure Block where
  addr : Nat
  heap : Nat
deriving DecidableEq

/-- The heaps of `gk`. -/
structure Heaps where
  heap : Option Nat
  oldheap : Option Nat
  heapcnt : BitVec 32
  oldcnt : BitVec 32
  flag : BitVec 32
  live : List Block

namespace Heaps

/-- Bit 0 of the flag: there is an old heap. -/
abbrev Swapped (s : Heaps) : Prop := s.flag &&& 1 = 1

/-- The live blocks of a heap. -/
def count (s : Heaps) (h : Nat) : Nat := s.live.countP (·.heap = h)

/-- `kfree` of the heap `h`. -/
def kfree (s : Heaps) (h addr : Nat) : Bool × Heaps :=
  if ⟨addr, h⟩ ∈ s.live then (true, { s with live := s.live.erase ⟨addr, h⟩ }) else (false, s)

def init_heap (s : Heaps) : Heaps := { s with heapcnt := 0, oldcnt := 0, flag := 0 }

/-- `halloc`, where `kmalloc` returns `result`. -/
def halloc (s : Heaps) (result : Option Nat) : Option Nat × Heaps :=
  match s.heap, result with
  | some h, some addr => (some addr, { s with heapcnt := s.heapcnt + 1, live := ⟨addr, h⟩ :: s.live })
  | _, _ => (none, { s with heapcnt := s.heapcnt + 1 })

/-- The first half of `hfree`: the old heap. -/
def free_old (s : Heaps) (addr : Nat) : List (Nat × Bool) × Heaps :=
  match s.oldheap with
  | some o =>
      if s.Swapped then
        let (f, s) := s.kfree o addr
        ([(o, f)], if f then { s with oldcnt := s.oldcnt - 1 } else s)
      else ([], s)
  | none => ([], s)

/-- The second half: the current heap. -/
def free_current (s : Heaps) (addr : Nat) : List (Nat × Bool) × Heaps :=
  match s.heap with
  | some h =>
      let (f, s) := s.kfree h addr
      ([(h, f)], if f then { s with heapcnt := s.heapcnt - 1 } else s)
  | none => ([], s)

/-- The old heap is given up when its counter is zero. -/
def retire (s : Heaps) : Heaps :=
  if s.Swapped ∧ s.oldcnt = 0 then { s with oldheap := none, flag := s.flag &&& ~~~1 } else s

/-- `hfree`, with the `kfree` calls it makes and what they return. -/
def hfree (s : Heaps) (addr : Nat) : List (Nat × Bool) × Heaps :=
  let (calls, s) := s.free_old addr
  if calls.any (·.2) then (calls, s.retire)
  else
    let (calls', s) := s.free_current addr
    (calls ++ calls', s.retire)

/-- `swap_heap`, where the module's `module_init` returns `new`. -/
def swap_heap (s : Heaps) (new : Option Nat) : Bool × Heaps :=
  match new with
  | none => (false, s)
  | some h =>
      (true, { s with oldheap := s.heap, oldcnt := s.heapcnt, flag := s.flag ||| 1, heap := some h, heapcnt := 0 })

/-! ### Runs -/

inductive Event
  | halloc (size : BitVec 32) (result : Option Nat)
  | hfree (addr : Nat)
  | swap (new : Option Nat)

/-- A `kmalloc` returns no block that is in use, a block is freed while it is live, and a heap
that is swapped in has another table than the current one. -/
def Event.Possible (s : Heaps) : Event → Prop
  | .halloc _ result => ∀ addr, result = some addr → ∀ b ∈ s.live, b.addr ≠ addr
  | .hfree addr => ∃ b ∈ s.live, b.addr = addr
  | .swap new => ∀ h, new = some h → s.heap ≠ some h

def next (s : Heaps) : Event → Heaps
  | .halloc _ result => (s.halloc result).2
  | .hfree addr => (s.hfree addr).2
  | .swap new => (s.swap_heap new).2

/-- The steps of a run, each with the state it starts in. -/
inductive Run (s₀ : Heaps) : List (Heaps × Event) → Heaps → Prop
  | start : Run s₀ [] s₀
  | step {ts : List (Heaps × Event)} {s : Heaps} {e : Event} (run : Run s₀ ts s) (he : e.Possible s) :
      Run s₀ (ts ++ [(s, e)]) (s.next e)

/-- `init_heap` with a heap installed: nothing has been allocated from it. -/
structure Starts (s₀ : Heaps) (s : Heaps) : Prop where
  init : s = s₀.init_heap
  heap : s₀.heap.isSome
  live : s₀.live = []

/-! ### What a step does -/

variable {s t : Heaps} {h o addr : Nat} {b : Block} {e : Event}

/-- What the kernel relies on besides the counters: there is a heap, the old one is another,
and no address is in use twice. -/
structure Shaped (s : Heaps) : Prop where
  heap : s.heap.isSome
  old : s.Swapped → s.oldheap.isSome ∧ s.oldheap ≠ s.heap
  distinct : (s.live.map (·.addr)).Nodup

theorem swapped_or (x : BitVec 32) : (x ||| 1) &&& 1 = 1 := by
  ext i hi
  rw [BitVec.getElem_and, BitVec.getElem_or]
  cases x[i] <;> cases (1 : BitVec 32)[i] <;> rfl

theorem swapped_not (x : BitVec 32) : (x &&& ~~~1) &&& 1 ≠ 1 := by
  simp [BitVec.and_assoc]

/-- Two live blocks at one address are one block. -/
theorem Shaped.unique (hs : Shaped s) (hb : b ∈ s.live) (ho : ⟨b.addr, o⟩ ∈ s.live) : b.heap = o := by
  have h : b = ⟨b.addr, o⟩ := List.inj_on_of_nodup_map hs.distinct hb ho rfl
  rw [h]

theorem kfree_own (hb : b ∈ s.live) :
    s.kfree b.heap b.addr = (true, { s with live := s.live.erase b }) := if_pos hb

theorem kfree_other (hs : Shaped s) (hb : b ∈ s.live) (hne : b.heap ≠ h) :
    s.kfree h b.addr = (false, s) := if_neg fun ho => hne (hs.unique hb ho)

theorem halloc_none (s : Heaps) : s.halloc none = (none, { s with heapcnt := s.heapcnt + 1 }) := by
  unfold halloc
  cases s.heap with
  | none => rfl
  | some h => rfl

theorem halloc_some (hh : s.heap = some h) (addr : Nat) : s.halloc (some addr) =
    (some addr, { s with heapcnt := s.heapcnt + 1, live := ⟨addr, h⟩ :: s.live }) := by
  simp only [halloc, hh]

theorem retire_live (s : Heaps) : s.retire.live = s.live := by
  unfold retire
  split
  · rfl
  · rfl

theorem retire_heap (s : Heaps) : s.retire.heap = s.heap := by
  unfold retire
  split
  · rfl
  · rfl

theorem retire_heapcnt (s : Heaps) : s.retire.heapcnt = s.heapcnt := by
  unfold retire
  split
  · rfl
  · rfl

theorem retire_oldcnt (s : Heaps) : s.retire.oldcnt = s.oldcnt := by
  unfold retire
  split
  · rfl
  · rfl

/-- If there is an old heap afterwards it is the one there was, and it has blocks. -/
theorem retire_swapped (h : s.retire.Swapped) : s.retire = s ∧ s.Swapped := by
  unfold retire at h ⊢
  split
  · next hc =>
      rw [if_pos hc] at h
      exact absurd h (swapped_not s.flag)
  · next hc =>
      rw [if_neg hc] at h
      exact ⟨rfl, h⟩

/-- The old heap is given up with its counter at zero. -/
theorem retire_dropped (h : s.Swapped) (h' : ¬ s.retire.Swapped) : s.oldcnt = 0 := by
  by_contra hne
  rw [retire, if_neg fun hc => hne hc.2] at h'
  exact h' h

/-- A block of the old heap is freed there. -/
theorem hfree_old (hb : b ∈ s.live) (hs : s.Swapped) (ho : s.oldheap = some b.heap) :
    s.hfree b.addr = ([(b.heap, true)],
      retire { s with live := s.live.erase b, oldcnt := s.oldcnt - 1 }) := by
  have hold : s.free_old b.addr =
      ([(b.heap, true)], { s with live := s.live.erase b, oldcnt := s.oldcnt - 1 }) := by
    unfold free_old
    rw [ho]
    simp only [if_pos hs, kfree_own hb, ho]
    rfl
  unfold hfree
  rw [hold]
  rfl

/-- The calls of a free that the old heap, if there is one, turns down. -/
theorem free_old_other (hs : Shaped s) (hb : b ∈ s.live) (ho : s.Swapped → s.oldheap ≠ some b.heap) :
    ∃ calls : List (Nat × Bool), calls.filter (·.2) = [] ∧ s.free_old b.addr = (calls, s) := by
  unfold free_old
  cases hold : s.oldheap with
  | none => exact ⟨[], rfl, rfl⟩
  | some o =>
      by_cases hsw : s.Swapped
      · have hne : b.heap ≠ o := fun hc => ho hsw (by rw [hold, hc])
        exact ⟨[(o, false)], rfl, by simp only [if_pos hsw, kfree_other hs hb hne]; rfl⟩
      · exact ⟨[], rfl, by simp only [if_neg hsw]⟩

theorem any_of_filter {calls : List (Nat × Bool)} (h : calls.filter (·.2) = []) : calls.any (·.2) = false := by
  rw [List.any_eq_false]
  intro c hc
  exact List.filter_eq_nil_iff.mp h c hc

/-- A block of the current heap is freed there, after the old heap has turned it down. -/
theorem hfree_current (hs : Shaped s) (hb : b ∈ s.live) (ho : s.Swapped → s.oldheap ≠ some b.heap)
    (hh : s.heap = some b.heap) :
    ∃ calls : List (Nat × Bool), calls.filter (·.2) = [(b.heap, true)] ∧ s.hfree b.addr = (calls,
      retire { s with live := s.live.erase b, heapcnt := s.heapcnt - 1 }) := by
  obtain ⟨calls, hcalls, hold⟩ := free_old_other hs hb ho
  refine ⟨calls ++ [(b.heap, true)], by rw [List.filter_append, hcalls]; rfl, ?_⟩
  have hcur : s.free_current b.addr =
      ([(b.heap, true)], { s with live := s.live.erase b, heapcnt := s.heapcnt - 1 }) := by
    unfold free_current
    rw [hh]
    simp only [kfree_own hb, hh]
    rfl
  unfold hfree
  rw [hold]
  simp only [any_of_filter hcalls, hcur]
  rfl

/-- A block of a heap that is neither is not freed. -/
theorem hfree_lost (hs : Shaped s) (hb : b ∈ s.live) (ho : s.Swapped → s.oldheap ≠ some b.heap)
    (hh : s.heap ≠ some b.heap) :
    ∃ calls : List (Nat × Bool), calls.filter (·.2) = [] ∧ s.hfree b.addr = (calls, s.retire) := by
  obtain ⟨calls, hcalls, hold⟩ := free_old_other hs hb ho
  obtain ⟨h, hheap⟩ := Option.isSome_iff_exists.mp hs.heap
  have hne : b.heap ≠ h := fun hc => hh (by rw [hheap, hc])
  have hcur : s.free_current b.addr = ([(h, false)], s) := by
    unfold free_current
    rw [hheap]
    simp only [kfree_other hs hb hne]
    rfl
  refine ⟨calls ++ [(h, false)], by rw [List.filter_append, hcalls]; rfl, ?_⟩
  unfold hfree
  rw [hold]
  simp only [any_of_filter hcalls, hcur]
  rfl

/-- What a free makes of the state: a block of the old or of the current heap goes and its
counter with it, and the old heap is given up if that was its last one. -/
inductive Freed (s : Heaps) (b : Block) : Heaps → Prop
  | old (hs : s.Swapped) (ho : s.oldheap = some b.heap) :
      Freed s b (retire { s with live := s.live.erase b, oldcnt := s.oldcnt - 1 })
  | current (ho : s.Swapped → s.oldheap ≠ some b.heap) (hh : s.heap = some b.heap) :
      Freed s b (retire { s with live := s.live.erase b, heapcnt := s.heapcnt - 1 })
  | lost (ho : s.Swapped → s.oldheap ≠ some b.heap) (hh : s.heap ≠ some b.heap) : Freed s b s.retire

theorem hfree_freed (hs : Shaped s) (hb : b ∈ s.live) : Freed s b (s.hfree b.addr).2 := by
  by_cases ho : s.Swapped → s.oldheap ≠ some b.heap
  · by_cases hh : s.heap = some b.heap
    · obtain ⟨calls, -, h⟩ := hfree_current hs hb ho hh
      rw [h]
      exact .current ho hh
    · obtain ⟨calls, -, h⟩ := hfree_lost hs hb ho hh
      rw [h]
      exact .lost ho hh
  · obtain ⟨hsw, hold⟩ := Classical.not_imp.mp ho
    have hold := Classical.not_not.mp hold
    rw [hfree_old hb hsw hold]
    exact .old hsw hold

/-! ### Counting -/

theorem count_pos (hb : b ∈ s.live) : 0 < s.count b.heap :=
  List.countP_pos_iff.mpr ⟨b, hb, by simp⟩

theorem count_erase_self (hb : b ∈ s.live) (n m : BitVec 32) :
    count { s with live := s.live.erase b, heapcnt := n, oldcnt := m } b.heap + 1 = s.count b.heap := by
  have hpos := count_pos hb
  unfold count at hpos ⊢
  rw [List.countP_erase, if_pos ⟨hb, by simp⟩]
  omega

theorem count_erase_other (hne : b.heap ≠ h) (n m : BitVec 32) :
    count { s with live := s.live.erase b, heapcnt := n, oldcnt := m } h = s.count h := by
  unfold count
  rw [List.countP_erase, if_neg fun hc => hne (by simpa using hc.2)]
  rfl

theorem Shaped.erase (hs : Shaped s) (b : Block) (n m : BitVec 32) :
    Shaped { s with live := s.live.erase b, heapcnt := n, oldcnt := m } :=
  ⟨hs.heap, hs.old, hs.distinct.sublist (List.Sublist.map _ List.erase_sublist)⟩

theorem Shaped.retire (hs : Shaped s) : Shaped s.retire := by
  refine ⟨by rw [retire_heap]; exact hs.heap, fun h => ?_, by rw [retire_live]; exact hs.distinct⟩
  obtain ⟨heq, hsw⟩ := retire_swapped h
  rw [heq]
  exact hs.old hsw

/-- The shape is kept by every step. -/
theorem Shaped.next (hs : Shaped s) (he : e.Possible s) : Shaped (s.next e) := by
  cases e with
  | halloc size result =>
      obtain ⟨h, hheap⟩ := Option.isSome_iff_exists.mp hs.heap
      cases result with
      | none =>
          show Shaped (s.halloc none).2
          rw [halloc_none]
          exact ⟨hs.heap, hs.old, hs.distinct⟩
      | some addr =>
          show Shaped (s.halloc (some addr)).2
          rw [halloc_some hheap]
          refine ⟨hs.heap, hs.old, ?_⟩
          rw [List.map_cons, List.nodup_cons]
          refine ⟨fun hmem => ?_, hs.distinct⟩
          obtain ⟨b, hb, haddr⟩ := List.mem_map.mp hmem
          exact he addr rfl b hb haddr
  | hfree addr =>
      obtain ⟨b, hb, rfl⟩ := he
      have hfreed := hfree_freed hs hb
      show Shaped (s.hfree b.addr).2
      generalize (s.hfree b.addr).2 = t at hfreed ⊢
      cases hfreed with
      | old hsw ho => exact (hs.erase b _ _).retire
      | current ho hh => exact (hs.erase b _ _).retire
      | lost ho hh => exact hs.retire
  | swap new =>
      cases new with
      | none => exact hs
      | some h => exact ⟨rfl, fun _ => ⟨hs.heap, he h rfl⟩, hs.distinct⟩

theorem Starts.shaped {s₀ : Heaps} (hs : Starts s₀ s) : Shaped s := by
  rw [hs.init]
  refine ⟨hs.heap, fun h => absurd h ?_, by simp [init_heap, hs.live]⟩
  show ¬ (0#32 &&& 1 = 1)
  decide

theorem Run.shaped {s₀ : Heaps} {ts : List (Heaps × Event)} (h₀ : Shaped s₀) (run : Run s₀ ts s) : Shaped s := by
  induction run with
  | start => exact h₀
  | step run he ih => exact ih.next he

/-! ### The counters -/

/-- The counters say how many blocks the heaps have. -/
structure Truthful (s : Heaps) : Prop where
  heapcnt : ∀ h, s.heap = some h → s.heapcnt.toNat = s.count h
  oldcnt : s.Swapped → ∀ o, s.oldheap = some o → s.oldcnt.toNat = s.count o

/-- A free takes a counter below zero. -/
def Wraps (s : Heaps) : Event → Prop
  | .hfree addr => s.heapcnt < (s.hfree addr).2.heapcnt ∨ s.oldcnt < (s.hfree addr).2.oldcnt
  | _ => False

/-- What a step needs to leave the counters true: `kmalloc` returns a block and the counter has
room for it; a heap that is swapped in has no blocks. -/
def Counted (s : Heaps) : Event → Prop
  | .halloc _ result => result.isSome ∧ s.heapcnt + 1 ≠ 0
  | .hfree _ => True
  | .swap new => ∀ h, new = some h → s.count h = 0

theorem toNat_succ (x : BitVec 32) {n : Nat} (h : x.toNat = n) : (x + 1).toNat = n + 1 ↔ x + 1 ≠ 0 := by
  subst h
  have hx := x.isLt
  rw [ne_eq, ← BitVec.toNat_inj, BitVec.toNat_add]
  show (x.toNat + 1) % 2 ^ 32 = x.toNat + 1 ↔ ¬ (x.toNat + 1) % 2 ^ 32 = 0
  omega

theorem toNat_succ_ne (x : BitVec 32) : (x + 1).toNat ≠ x.toNat := by
  have hx := x.isLt
  rw [BitVec.toNat_add]
  show (x.toNat + 1) % 2 ^ 32 ≠ x.toNat
  omega

/-- A counter that is not zero goes down by one. -/
theorem toNat_pred {x : BitVec 32} (h : 0 < x.toNat) : (x - 1).toNat + 1 = x.toNat := by
  have hx := x.isLt
  rw [BitVec.toNat_sub]
  show (2 ^ 32 - 1 + x.toNat) % 2 ^ 32 + 1 = x.toNat
  omega

theorem Truthful.retire (h : Truthful s) : Truthful s.retire := by
  refine ⟨fun h' hh => ?_, fun hsw o ho => ?_⟩
  · rw [retire_heap] at hh
    rw [retire_heapcnt, count, retire_live]
    exact h.heapcnt h' hh
  · obtain ⟨heq, hsw⟩ := retire_swapped hsw
    rw [heq] at ho ⊢
    exact h.oldcnt hsw o ho

/-- A free of a live block keeps the counters true, and takes none of them below zero. -/
theorem Truthful.freed (hs : Shaped s) (h : Truthful s) (hb : b ∈ s.live) (ht : Freed s b t) :
    Truthful t ∧ t.heapcnt ≤ s.heapcnt ∧ t.oldcnt ≤ s.oldcnt := by
  have hpos := count_pos hb
  cases ht with
  | old hsw ho =>
      have hcnt := h.oldcnt hsw _ ho
      have hpred := toNat_pred (x := s.oldcnt) (by omega)
      have htrue : Truthful { s with live := s.live.erase b, oldcnt := s.oldcnt - 1 } := by
        refine ⟨fun h' hh => ?_, fun _ o ho' => ?_⟩
        · have hne : b.heap ≠ h' := fun hc => (hs.old hsw).2 (by rw [ho, hc]; exact hh.symm)
          rw [count_erase_other hne]
          exact h.heapcnt h' hh
        · obtain rfl : b.heap = o := Option.some.inj (ho.symm.trans ho')
          have herase := count_erase_self hb s.heapcnt (s.oldcnt - 1)
          show (s.oldcnt - 1).toNat = _
          omega
      refine ⟨htrue.retire, by rw [retire_heapcnt]; exact BitVec.le_refl _, ?_⟩
      rw [retire_oldcnt, BitVec.le_def]
      show (s.oldcnt - 1).toNat ≤ s.oldcnt.toNat
      omega
  | current ho hh =>
      have hcnt := h.heapcnt _ hh
      have hpred := toNat_pred (x := s.heapcnt) (by omega)
      have htrue : Truthful { s with live := s.live.erase b, heapcnt := s.heapcnt - 1 } := by
        refine ⟨fun h' hh' => ?_, fun hsw o ho' => ?_⟩
        · obtain rfl : b.heap = h' := Option.some.inj (hh.symm.trans hh')
          have herase := count_erase_self hb (s.heapcnt - 1) s.oldcnt
          show (s.heapcnt - 1).toNat = _
          omega
        · have hne : b.heap ≠ o := fun hc => ho hsw (by rw [hc]; exact ho')
          rw [count_erase_other hne]
          exact h.oldcnt hsw o ho'
      refine ⟨htrue.retire, ?_, by rw [retire_oldcnt]; exact BitVec.le_refl _⟩
      rw [retire_heapcnt, BitVec.le_def]
      show (s.heapcnt - 1).toNat ≤ s.heapcnt.toNat
      omega
  | lost ho hh =>
      exact ⟨h.retire, by rw [retire_heapcnt]; exact BitVec.le_refl _,
        by rw [retire_oldcnt]; exact BitVec.le_refl _⟩

/-- The counters are true after the step, and it takes none of them below zero. -/
def Told (s : Heaps) (e : Event) : Prop := Truthful (s.next e) ∧ ¬ Wraps s e

/-- A step leaves the counters true if and only if it is counted. -/
theorem Truthful.step (h : Truthful s) (hs : Shaped s) (he : e.Possible s) : Told s e ↔ Counted s e := by
  obtain ⟨c, hheap⟩ := Option.isSome_iff_exists.mp hs.heap
  have hcnt := h.heapcnt c hheap
  cases e with
  | halloc size result =>
      cases result with
      | none =>
          have hnext : s.next (.halloc size none) = { s with heapcnt := s.heapcnt + 1 } :=
            congrArg Prod.snd (halloc_none s)
          refine ⟨fun ht => absurd (ht.1.heapcnt c ?_) ?_, fun hc => absurd hc.1 Bool.false_ne_true⟩
          · rw [hnext]
            exact hheap
          · rw [hnext]
            show (s.heapcnt + 1).toNat ≠ s.count c
            rw [← hcnt]
            exact toNat_succ_ne s.heapcnt
      | some addr =>
          have hnext : s.next (.halloc size (some addr)) =
              { s with heapcnt := s.heapcnt + 1, live := ⟨addr, c⟩ :: s.live } :=
            congrArg Prod.snd (halloc_some hheap addr)
          have hcons : ∀ o, count { s with heapcnt := s.heapcnt + 1, live := ⟨addr, c⟩ :: s.live } o =
              s.count o + if c = o then 1 else 0 := fun o => by
            simp [count, List.countP_cons]
          unfold Told
          rw [hnext]
          constructor
          · rintro ⟨ht, -⟩
            have := ht.heapcnt c hheap
            rw [hcons, if_pos rfl] at this
            exact ⟨rfl, (toNat_succ _ hcnt).mp this⟩
          · rintro ⟨-, hroom⟩
            refine ⟨⟨fun h' hh => ?_, fun hsw o ho => ?_⟩, fun hw => hw⟩
            · obtain rfl : c = h' := Option.some.inj (hheap.symm.trans hh)
              rw [hcons, if_pos rfl]
              exact (toNat_succ _ hcnt).mpr hroom
            · rw [hcons, if_neg fun hc => (hs.old hsw).2 (by rw [hheap, hc]; exact ho)]
              exact h.oldcnt hsw o ho
  | hfree addr =>
      obtain ⟨b, hb, rfl⟩ := he
      obtain ⟨htrue, hle, hle'⟩ := h.freed hs hb (hfree_freed hs hb)
      refine ⟨fun _ => trivial, fun _ => ⟨htrue, ?_⟩⟩
      rintro (hw | hw)
      · exact absurd hle (BitVec.not_le.mpr hw)
      · exact absurd hle' (BitVec.not_le.mpr hw)
  | swap new =>
      cases new with
      | none => exact ⟨fun _ => nofun, fun _ => ⟨h, fun hw => hw⟩⟩
      | some h' =>
          constructor
          · rintro ⟨ht, -⟩ h'' hh
            obtain rfl := Option.some.inj hh
            exact (ht.heapcnt h' rfl).symm
          · intro hempty
            refine ⟨⟨fun h'' hh => ?_, fun _ o ho => h.heapcnt o ho⟩, fun hw => hw⟩
            obtain rfl := Option.some.inj hh
            exact (hempty h' rfl).symm

theorem Starts.truthful {s₀ : Heaps} (hs : Starts s₀ s) : Truthful s := by
  rw [hs.init]
  refine ⟨fun h _ => ?_, fun hsw => absurd hsw ?_⟩
  · simp [init_heap, count, hs.live]
  · show ¬ (0#32 &&& 1 = 1)
    decide

theorem Run.truthful {s₀ : Heaps} {ts : List (Heaps × Event)} (h₀ : Truthful s₀) (run : Run s₀ ts s)
    (h : ∀ t ∈ ts, Told t.1 t.2) : Truthful s := by
  cases run with
  | start => exact h₀
  | step run he => exact (h (_, _) (by simp)).1

/-- **The heap counters.**  In a run from `init_heap` the counters are true after every step, and
no free wraps them, if and only if every `kmalloc` returns a block that the counter has room
for and every heap that is swapped in has none. -/
theorem counters_truthful {s₀ s t : Heaps} {ts : List (Heaps × Event)} (hs : Starts s₀ s) (run : Run s ts t) :
    Truthful s ∧ ((∀ t ∈ ts, Told t.1 t.2) ↔ ∀ t ∈ ts, Counted t.1 t.2) := by
  refine ⟨hs.truthful, ?_⟩
  induction run with
  | start => simp
  | step run he ih =>
      rename_i ts u e
      have hshaped := run.shaped hs.shaped
      rw [List.forall_mem_append, List.forall_mem_append, List.forall_mem_singleton, List.forall_mem_singleton]
      constructor
      · rintro ⟨hold, hlast⟩
        exact ⟨ih.mp hold, ((run.truthful hs.truthful hold).step hshaped he).mp hlast⟩
      · rintro ⟨hold, hlast⟩
        have htold := ih.mpr hold
        exact ⟨htold, ((run.truthful hs.truthful htold).step hshaped he).mpr hlast⟩

/-- A heap is installed, a block is allocated and freed. -/
def installed : Heaps := ⟨some 0, none, 7, 7, 7, []⟩

theorem installed_starts : Starts installed installed.init_heap := ⟨rfl, rfl, rfl⟩

theorem counters_truthful_free :
    let s := installed.init_heap
    let ts := [(s, Event.halloc 8 (some 64)), (s.next (.halloc 8 (some 64)), .hfree 64)]
    Truthful s ∧ ((∀ t ∈ ts, Told t.1 t.2) ↔ ∀ t ∈ ts, Counted t.1 t.2) :=
  counters_truthful installed_starts (@Run.step _ [_] _ _ (@Run.step _ [] _ _ .start nofun)
    ⟨⟨64, 0⟩, List.mem_singleton.mpr rfl, rfl⟩)

/-- A `kmalloc` that returns nothing is counted as a block. -/
theorem counters_untrue : ¬ ∀ (s₀ s t : Heaps) (ts : List (Heaps × Event)), Starts s₀ s → Run s ts t →
    ∀ t ∈ ts, Told t.1 t.2 := by
  intro hall
  have h := hall installed _ _ _ installed_starts (@Run.step _ [] _ (.halloc 8 none) .start nofun)
    (_, _) (List.mem_singleton.mpr rfl)
  exact absurd (h.1.heapcnt 0 rfl) (by decide)

end Heaps

end Eke
