/-
The pages the allocator loses.

`alloc_page` takes the first run that is long enough from the hint on, and leaves the hint behind
it.  It never looks below the hint, so a free page it passes over, because the run of free pages
there is too short, is lost to every later call until some page below it is freed.  As long as
no allocation passes over a free page, everything between the kernel and the hint is in use, and
no free run is missed; one free page left behind is enough for a later allocation to fail.
-/
import Eke.Memory.PageRuns
import Eke.Lib.Search

namespace Eke

namespace Pmm

/-- `n` free pages in a row, from page `r` on. -/
def FreeRun (p : Pmm) (n : Int) (r : Nat) : Prop :=
  ∀ k, k < n.toNat → p.used (r + k) = false ∧ r + k < MAX_PAGES

/-! ### The search -/

/-- With `i` free pages from `base` on, the search finds the first run from `base` on. -/
theorem alloc_scan_finds (p : Pmm) {n : Int} (hn : 0 < n) : ∀ fuel base i : Nat,
    0 < fuel → MAX_PAGES < fuel + (base + i) → i ≤ n.toNat →
    (∀ k, k < i → p.used (base + k) = false ∧ base + k < MAX_PAGES) →
    Finds (FreeRun p n) base MAX_PAGES (alloc_scan p n.toNat fuel base i) := by
  intro fuel
  induction fuel with
  | zero => intro base i h; omega
  | succ fuel ih =>
      intro base i _ hfuel hi hfree
      rw [alloc_scan]
      by_cases hdone : n.toNat ≤ i
      · rw [if_pos hdone]
        have hin := (hfree 0 (by omega)).2
        exact .here (by omega) fun k hk => hfree k (by omega)
      rw [if_neg hdone]
      by_cases hmax : MAX_PAGES ≤ base + i
      · rw [if_pos hmax]
        intro c hc _ hrun
        have hlast := (hrun (n.toNat - 1) (by omega)).2
        omega
      rw [if_neg hmax]
      by_cases hbit : p.getbit ((base + i) / 64) ((base + i) % 64) = false
      · rw [if_pos hbit]
        apply ih base (i + 1) (by omega) (by omega) (by omega)
        intro k hk
        by_cases hki : k = i
        · rw [hki]
          exact ⟨hbit, by omega⟩
        · exact hfree k (by omega)
      · rw [if_neg hbit]
        -- every run from `base` on would contain the page in use
        have hnone : Finds (FreeRun p n) base (base + i + 1) none := by
          intro c hc hc' hrun
          have hused := (hrun (base + i - c) (by omega)).1
          rw [show c + (base + i - c) = base + i by omega] at hused
          exact hbit hused
        refine hnone.append (by omega) (ih (base + i + 1) 0 (by omega) (by omega) (by omega) ?_)
        intro k hk
        omega

/-- What an allocation does with the run its search found. -/
def taken (p : Pmm) (n : Int) : Option Nat → Nat × Pmm
  | none => (0, p)
  | some base => (base * 4096, { mark p base n.toNat with last_free_page := base + n.toNat })

/-- `alloc_page` takes the first run from the hint on. -/
theorem alloc_page_eq {p : Pmm} {n : Int} (hn : 0 < n) {r : Option Nat}
    (h : Finds (FreeRun p n) p.last_free_page MAX_PAGES r) : p.alloc_page n = taken p n r := by
  have hscan := alloc_scan_finds p hn (MAX_PAGES + 1) p.last_free_page 0 (by omega) (by omega)
    (by omega) (by intro k hk; omega)
  unfold alloc_page
  rw [if_neg (by omega), hscan.unique h]
  cases r with
  | none => rfl
  | some base => rfl

theorem alloc_page_finds (p : Pmm) {n : Int} (hn : 0 < n) :
    ∃ r, Finds (FreeRun p n) p.last_free_page MAX_PAGES r ∧ p.alloc_page n = taken p n r := by
  have hscan := alloc_scan_finds p hn (MAX_PAGES + 1) p.last_free_page 0 (by omega) (by omega)
    (by omega) (by intro k hk; omega)
  exact ⟨_, hscan, alloc_page_eq hn hscan⟩

/-- A run starts inside the memory. -/
theorem FreeRun.lt {p : Pmm} {n : Int} {r : Nat} (h : FreeRun p n r) (hn : 0 < n) :
    p.used r = false ∧ r < MAX_PAGES := h 0 (by omega)

theorem freeRun_one {p : Pmm} {r : Nat} (h : p.used r = false) (hmax : r < MAX_PAGES) :
    FreeRun p 1 r := by
  intro k hk
  obtain rfl : k = 0 := by omega
  exact ⟨h, hmax⟩

/-- Behind a hint that is not 0, an allocation succeeds exactly when there is a run. -/
theorem alloc_page_succeeds (p : Pmm) {n : Int} (hn : 0 < n) (hhint : 0 < p.last_free_page) :
    (p.alloc_page n).1 ≠ 0 ↔ ∃ r, p.last_free_page ≤ r ∧ FreeRun p n r := by
  obtain ⟨r, hfinds, heq⟩ := alloc_page_finds p hn
  rw [heq]
  cases r with
  | none =>
      constructor
      · intro hne
        exact absurd rfl hne
      · intro hrun
        obtain ⟨r, hr, hrun⟩ := hrun
        exact absurd hrun (hfinds r hr (hrun.lt hn).2)
  | some base =>
      have hpos : 0 < base := Nat.lt_of_lt_of_le hhint hfinds.1
      constructor
      · intro _
        exact ⟨base, hfinds.1, hfinds.2.2.1⟩
      · intro _
        show base * 4096 ≠ 0
        omega

/-! ### What is left behind the hint -/

/-- Every page between the kernel and the hint is in use. -/
def Packed (first : Nat) (p : Pmm) : Prop :=
  ∀ i, first ≤ i → i < p.last_free_page → p.used i = true

/-- If there is a run of `n` pages from the hint on, the first free page there starts one. -/
def PassesNothing (p : Pmm) (n : Int) : Prop :=
  ∀ b, Finds (fun i => p.used i = false) p.last_free_page MAX_PAGES (some b) →
    (∃ r, p.last_free_page ≤ r ∧ FreeRun p n r) → FreeRun p n b

/-- No allocation misses a run of free pages past the kernel. -/
def LosesNothing (first : Nat) (p : Pmm) : Prop :=
  ∀ n, 0 < n → (∃ r, first ≤ r ∧ FreeRun p n r) → (p.alloc_page n).1 ≠ 0

theorem Packed.losesNothing {first : Nat} {p : Pmm} (h : Packed first p) (hhint : 0 < p.last_free_page) :
    LosesNothing first p := by
  intro n hn hex
  obtain ⟨r, hr, hrun⟩ := hex
  apply (alloc_page_succeeds p hn hhint).mpr
  refine ⟨r, Nat.le_of_not_lt fun hlt => ?_, hrun⟩
  have hused := h r hr hlt
  rw [(hrun.lt hn).1] at hused
  cases hused

/-- The run an allocation takes is the first one from the hint on. -/
theorem Allocated.first {p : Pmm} {n : Int} (hn : 0 < n) {s : Nat}
    (h : Allocated p (p.alloc_page n).2 n (p.alloc_page n).1 s) (hpos : 0 < p.last_free_page) :
    Finds (FreeRun p n) p.last_free_page MAX_PAGES (some s) := by
  obtain ⟨r, hfinds, heq⟩ := alloc_page_finds p hn
  have hhint := h.hint
  have hs := h.addr_eq
  rw [heq] at hs
  cases r with
  | none =>
      have hs' : 0 = s * 4096 := hs
      omega
  | some base =>
      have hs' : base * 4096 = s * 4096 := hs
      rwa [show s = base by omega]

theorem Packed.alloc {first : Nat} {p : Pmm} {n : Int} (h : Packed first p)
    (hpos : 0 < p.last_free_page) (hpass : PassesNothing p n) :
    Packed first (p.alloc_page n).2 := by
  rcases alloc_page_spec p n with ⟨-, hp⟩ | ⟨s, ha⟩
  · rw [hp]
    exact h
  have hrun : FreeRun p n s := ha.free
  have hfirst := ha.first ha.pos hpos
  obtain ⟨b, hbs, hb⟩ := Finds.first (P := fun i => p.used i = false) ha.hint (hrun.lt ha.pos).2
    (hrun.lt ha.pos).1
  -- the run starts at the first free page, so all pages before it are in use
  have hbrun := hpass b hb ⟨s, ha.hint, hrun⟩
  obtain rfl : s = b := by
    have hnot := hfirst.2.2.2 b hb.1
    by_contra hne
    exact hnot (by omega) hbrun
  intro i hi hlt
  rw [ha.hint'] at hlt
  rw [ha.marked]
  by_cases hin : s ≤ i ∧ i < s + n.toNat
  · rw [decide_eq_true hin, Bool.true_or]
  by_cases hbelow : i < p.last_free_page
  · rw [h i hi hbelow, Bool.or_true]
  · have hused := hb.2.2.2 i (by omega) (by omega)
    rw [Bool.eq_true_of_not_eq_false hused, Bool.or_true]

/-- Freeing moves the hint down to the page, and never up. -/
theorem free_page_hint_min (p : Pmm) {page : Nat} (h : page < MAX_PAGES) :
    (p.free_page (4096 * page)).last_free_page = min page p.last_free_page := by
  have hdiv : 4096 * page / 4096 = page := Nat.mul_div_cancel_left page (by decide)
  simp only [free_page, hdiv]
  rw [if_neg (by omega)]
  by_cases hlt : page < p.last_free_page
  · rw [if_pos hlt]
    show page = min page p.last_free_page
    omega
  · rw [if_neg hlt]
    show p.last_free_page = min page p.last_free_page
    omega

theorem Packed.free {first : Nat} {p : Pmm} {page : Nat} (h : Packed first p)
    (hpage : page < MAX_PAGES) : Packed first (p.free_page (4096 * page)) := by
  intro i hi hlt
  rw [free_page_hint_min p hpage] at hlt
  rw [free_page_at p hpage, if_neg (by omega)]
  exact h i hi (by omega)

/-! ### Runs that pass over nothing -/

/-- A call that, if it is an allocation, passes over no free page. -/
inductive TightCall : Served → Served → Prop
  | alloc (s : Served) (n : Int) : PassesNothing s.pmm n → TightCall s
      ⟨(s.pmm.alloc_page n).2, fun i => s.held i ∨ pages (s.pmm.alloc_page n).1 n i⟩
  | free (s : Served) (page : Nat) : s.held page → TightCall s
      ⟨s.pmm.free_page (4096 * page), fun i => s.held i ∧ i ≠ page⟩

theorem TightCall.call {s s' : Served} (h : TightCall s s') : Call s s' := by
  cases h with
  | alloc n _ => exact .alloc s n
  | free page hpage => exact .free s page hpage

/-- What can happen after `init_pmm` if no allocation passes over a free page. -/
def ReachableTight (kernel_end_addr : Nat) : Served → Prop :=
  Relation.ReflTransGen TightCall ⟨init_pmm kernel_end_addr, fun _ => False⟩

theorem ReachableTight.reachable {kernel_end_addr : Nat} {s : Served}
    (h : ReachableTight kernel_end_addr s) : Reachable kernel_end_addr s :=
  Relation.ReflTransGen.mono (fun _ _ hc => TightCall.call hc) _ _ h

theorem firstPage_pos {kernel_end_addr : Nat} (hkernel : 0 < kernel_end_addr) :
    0 < firstPage kernel_end_addr := by
  unfold firstPage
  omega

theorem Reachable.hint_pos {kernel_end_addr : Nat} {s : Served} (h : Reachable kernel_end_addr s)
    (hkernel : 0 < kernel_end_addr) : 0 < s.pmm.last_free_page :=
  Nat.lt_of_lt_of_le (firstPage_pos hkernel) h.serving.hint

theorem ReachableTight.packed {kernel_end_addr : Nat} (hkernel : 0 < kernel_end_addr) {s : Served}
    (h : ReachableTight kernel_end_addr s) : Packed (firstPage kernel_end_addr) s.pmm := by
  induction h with
  | refl => intro i hi hlt; exact absurd hi (Nat.not_le_of_lt hlt)
  | tail hrun hstep ih =>
      have hreach := ReachableTight.reachable hrun
      cases hstep with
      | alloc n hpass => exact ih.alloc (hreach.hint_pos hkernel) hpass
      | free page hpage => exact ih.free (hreach.serving.above page hpage).2

/-! ### A page left behind -/

/-- Single pages are handed out until none is left above the hint. -/
theorem exhausted (k : Nat) : ∀ s : Served, MAX_PAGES ≤ s.pmm.last_free_page + k →
    0 < s.pmm.last_free_page →
    ∃ s', Relation.ReflTransGen Call s s' ∧ (s'.pmm.alloc_page 1).1 = 0 ∧
      ∀ i, i < s.pmm.last_free_page → s'.pmm.used i = s.pmm.used i := by
  induction k with
  | zero =>
      intro s hk hpos
      refine ⟨s, .refl, ?_, fun i _ => rfl⟩
      by_contra hne
      obtain ⟨r, hr, hrun⟩ := (alloc_page_succeeds s.pmm (by decide) hpos).mp hne
      have hmax := (hrun.lt (by decide)).2
      omega
  | succ k ih =>
      intro s hk hpos
      rcases alloc_page_spec s.pmm 1 with ⟨hzero, -⟩ | ⟨r, ha⟩
      · exact ⟨s, .refl, hzero, fun i _ => rfl⟩
      have hhint := ha.hint
      have hhint' : (s.pmm.alloc_page 1).2.last_free_page = r + 1 := ha.hint'
      let s₁ : Served := ⟨(s.pmm.alloc_page 1).2,
        fun i => s.held i ∨ pages (s.pmm.alloc_page 1).1 1 i⟩
      have hs₁ : s₁.pmm.last_free_page = r + 1 := hhint'
      obtain ⟨s', hrun, hzero, hkept⟩ := ih s₁ (by omega) (by omega)
      refine ⟨s', .head (.alloc s 1) hrun, hzero, fun i hi => ?_⟩
      rw [hkept i (by omega)]
      show (s.pmm.alloc_page 1).2.used i = s.pmm.used i
      have hout : ¬ (r ≤ i ∧ i < r + (1 : Int).toNat) := by omega
      rw [ha.marked, decide_eq_false hout, Bool.false_or]

/-- The hint stays inside the memory, unless the kernel does not fit into it. -/
theorem Reachable.hint_le {kernel_end_addr : Nat} {s : Served} (h : Reachable kernel_end_addr s) :
    s.pmm.last_free_page ≤ max (firstPage kernel_end_addr) MAX_PAGES := by
  induction h with
  | refl => exact Nat.le_max_left _ _
  | @tail b _ hrun hstep ih =>
      have hreach : Reachable kernel_end_addr b := hrun
      cases hstep with
      | alloc n =>
          rcases alloc_page_spec b.pmm n with ⟨-, hp⟩ | ⟨r, ha⟩
          · dsimp only
            rw [hp]
            exact ih
          · have hn := ha.pos
            have hlast := (ha.free (n.toNat - 1) (by omega)).2
            dsimp only
            rw [ha.hint']
            omega
      | free page hpage =>
          dsimp only
          rw [free_page_hint_min b.pmm (hreach.serving.above page hpage).2]
          omega

/-- **Lost pages.**  In every run of calls none of which passes over a free page, no free run past
the kernel is ever missed.  A state with a free page left behind the hint, however it was reached,
can be continued by allocations to one in which a single page is asked for in vain. -/
theorem no_page_lost (kernel_end_addr : Nat) (hkernel : 0 < kernel_end_addr) :
    (∀ s, ReachableTight kernel_end_addr s → LosesNothing (firstPage kernel_end_addr) s.pmm) ∧
      ∀ s, Reachable kernel_end_addr s → ¬ Packed (firstPage kernel_end_addr) s.pmm →
        ∃ s', Relation.ReflTransGen Call s s' ∧
          ¬ LosesNothing (firstPage kernel_end_addr) s'.pmm := by
  refine ⟨fun s h => (h.packed hkernel).losesNothing (h.reachable.hint_pos hkernel), fun s h hnot => ?_⟩
  unfold Packed at hnot
  push Not at hnot
  obtain ⟨f, hfirst, hbelow, hfree⟩ := hnot
  obtain ⟨s', hrun, hzero, hkept⟩ := exhausted MAX_PAGES s (by omega) (h.hint_pos hkernel)
  have hle := h.hint_le
  have hlost := hkept f hbelow
  rw [Bool.eq_false_of_not_eq_true hfree] at hlost
  exact ⟨s', hrun, fun hloses =>
    hloses 1 (by decide) ⟨f, hfirst, freeRun_one hlost (by omega)⟩ hzero⟩

/-- A kernel that ends at 1 MiB + 4 KiB. -/
theorem no_page_lost_start :
    (∀ s, ReachableTight 0x101000 s → LosesNothing (firstPage 0x101000) s.pmm) ∧
      ∀ s, Reachable 0x101000 s → ¬ Packed (firstPage 0x101000) s.pmm →
        ∃ s', Relation.ReflTransGen Call s s' ∧ ¬ LosesNothing (firstPage 0x101000) s'.pmm :=
  no_page_lost 0x101000 (by decide)

/-- An allocation of all the pages behind a gap of one page, from a hint at the gap. -/
theorem gap_passed {p : Pmm} {g : Nat} {n : Int} (hmax : g + 3 < MAX_PAGES)
    (hn : n = (MAX_PAGES - (g + 2) : Nat)) (hhint : p.last_free_page = g)
    (hgap : p.used g = false) (hnext : p.used (g + 1) = true)
    (hrest : ∀ i, g + 2 ≤ i → p.used i = false) :
    (p.alloc_page n).2.used g = false ∧ ((p.alloc_page n).2.alloc_page 1).1 = 0 := by
  have hfound : Finds (FreeRun p n) p.last_free_page MAX_PAGES (some (g + 2)) := by
    have hrun : FreeRun p n (g + 2) := by
      intro k hk
      exact ⟨hrest _ (by omega), by omega⟩
    refine ⟨by omega, by omega, hrun, fun c hc hlt hc' => ?_⟩
    -- a run from the gap or from the page behind it would contain a page in use
    have hused := (hc' (g + 1 - c) (by omega)).1
    rw [show c + (g + 1 - c) = g + 1 by omega, hnext] at hused
    cases hused
  rw [alloc_page_eq (by omega) hfound]
  constructor
  · have hout : ¬ (g + 2 ≤ g ∧ g < g + 2 + n.toNat) := by omega
    show (mark p (g + 2) n.toNat).used g = false
    rw [used_mark, decide_eq_false hout, Bool.false_or, hgap]
  · have hend : (taken p n (some (g + 2))).2.last_free_page = MAX_PAGES := by
      show g + 2 + n.toNat = MAX_PAGES
      omega
    rw [alloc_page_eq (r := none) (by decide) (.empty (by omega))]
    rfl

/-- Two pages past such a kernel are taken and the first is given back. -/
theorem reachable_gap : ∃ s, Reachable 0x101000 s ∧ s.pmm.last_free_page = 257 ∧
    s.pmm.used 257 = false ∧ s.pmm.used 258 = true ∧ ∀ i, 259 ≤ i → s.pmm.used i = false := by
  let s₀ : Served := ⟨init_pmm 0x101000, fun _ => False⟩
  have hhint : s₀.pmm.last_free_page = 257 := rfl
  have hclear : ∀ i, 257 ≤ i → s₀.pmm.used i = false := by
    intro i hi
    have hword : ¬ i / 64 < 257 / 64 := by omega
    show BitVec.getLsbD (if i / 64 < 257 / 64 then BitVec.allOnes 64 else 0) (i % 64) = false
    rw [if_neg hword]
    simp
  have hmax : MAX_PAGES = 1048576 := rfl
  have h₁ : s₀.pmm.alloc_page 2 = taken s₀.pmm 2 (some 257) := by
    refine alloc_page_eq (by decide) (.here (by decide) fun k hk => ⟨hclear _ (by omega), ?_⟩)
    omega
  let s₁ : Served := ⟨(s₀.pmm.alloc_page 2).2,
    fun i => s₀.held i ∨ pages (s₀.pmm.alloc_page 2).1 2 i⟩
  have hheld : s₁.held 257 := by
    refine Or.inr ?_
    rw [h₁]
    exact ⟨by decide, by decide, by decide⟩
  have hused : ∀ i, (s₁.pmm.free_page (4096 * 257)).used i =
      if i = 257 then false else (decide (257 ≤ i ∧ i < 259) || s₀.pmm.used i) := by
    intro i
    rw [free_page_at _ (by decide)]
    show (if i = 257 then false else (s₀.pmm.alloc_page 2).2.used i) = _
    rw [h₁]
    exact congrArg _ (used_mark s₀.pmm 257 2 i)
  refine ⟨_, .tail (.tail .refl (.alloc s₀ 2)) (.free s₁ 257 hheld), ?_, ?_, ?_, fun i hi => ?_⟩
  · show (s₁.pmm.free_page (4096 * 257)).last_free_page = 257
    rw [free_page_hint_min _ (by decide)]
    show min 257 (s₀.pmm.alloc_page 2).2.last_free_page = 257
    rw [h₁]
    rfl
  · exact hused 257
  · exact hused 258
  · have hout : ¬ (257 ≤ i ∧ i < 259) := by omega
    refine (hused i).trans ?_
    rw [if_neg (by omega), hclear i (by omega), decide_eq_false hout, Bool.or_false]

/-- The allocation after that passes over the page and takes everything behind: the page is free,
and no page can be had. -/
theorem first_page_lost : ∃ s, Reachable 0x101000 s ∧ FreeRun s.pmm 1 257 ∧
    (s.pmm.alloc_page 1).1 = 0 ∧ ¬ LosesNothing (firstPage 0x101000) s.pmm := by
  obtain ⟨s, hreach, hhint, hgap, hnext, hrest⟩ := reachable_gap
  obtain ⟨n, hn⟩ : ∃ n : Int, n = (MAX_PAGES - (257 + 2) : Nat) := ⟨_, rfl⟩
  obtain ⟨hfree, hnone⟩ := gap_passed (by decide) hn hhint hgap hnext hrest
  have hrun : FreeRun (s.pmm.alloc_page n).2 1 257 := freeRun_one hfree (by decide)
  exact ⟨_, .tail hreach (.alloc s n), hrun, hnone, fun hloses => hloses 1 (by decide)
    ⟨257, by decide, hrun⟩ hnone⟩

end Pmm

end Eke
