/-
The page allocator over whole runs.

Callers allocate any number of pages and free pages they were given, in any order.
`Serving` is what every such run keeps: a page in someone's hands is marked, and both
the hint and every such page are at or above the first page past the kernel.  The
words of the map that `init_pmm` leaves clear below that page are never reached,
because the search starts at the hint and only moves up.
-/
import Eke.Memory.Pmm
import Mathlib.Logic.Relation

namespace Eke

namespace Pmm

/-- The first page past the end of the kernel image. -/
def firstPage (kernel_end_addr : Nat) : Nat := (kernel_end_addr + 4095) / 4096

/-! ### The search loop ends -/

/-- A run of the search loop of `alloc_page`, round by round, from page `base + i` on. -/
inductive Search (p : Pmm) (n : Nat) : Nat → Nat → Option Nat → Prop
  | found {base i : Nat} : n ≤ i → Search p n base i (some base)
  | outOfMemory {base i : Nat} : i < n → MAX_PAGES ≤ base + i → Search p n base i none
  | free {base i : Nat} {r : Option Nat} : i < n → base + i < MAX_PAGES →
      p.used (base + i) = false → Search p n base (i + 1) r → Search p n base i r
  | taken {base i : Nat} {r : Option Nat} : i < n → base + i < MAX_PAGES →
      p.used (base + i) = true → Search p n (base + i + 1) 0 r → Search p n base i r

/-- With a round for every page left the search comes to its end. -/
theorem alloc_scan_search (p : Pmm) (n : Nat) : ∀ (fuel base i : Nat), 0 < fuel →
    MAX_PAGES < fuel + (base + i) → Search p n base i (alloc_scan p n fuel base i) := by
  intro fuel
  induction fuel with
  | zero => intro base i h; omega
  | succ fuel ih =>
      intro base i _ h
      rw [alloc_scan]
      by_cases hn : n ≤ i
      · rw [if_pos hn]
        exact .found hn
      rw [if_neg hn]
      by_cases hmax : MAX_PAGES ≤ base + i
      · rw [if_pos hmax]
        exact .outOfMemory (by omega) hmax
      rw [if_neg hmax]
      by_cases hbit : p.getbit ((base + i) / 64) ((base + i) % 64) = false
      · rw [if_pos hbit]
        exact .free (by omega) (by omega) hbit (ih base (i + 1) (by omega) (by omega))
      · rw [if_neg hbit]
        refine .taken (by omega) (by omega) ?_ (ih (base + i + 1) 0 (by omega) (by omega))
        exact Bool.eq_true_of_not_eq_false hbit

/-- What `alloc_page` returns is where the search came to its end. -/
theorem alloc_page_search (p : Pmm) (n : Int) (hn : 0 < n) (hhint : 0 < p.last_free_page) :
    Search p n.toNat p.last_free_page 0
      (if (p.alloc_page n).1 = 0 then none else some ((p.alloc_page n).1 / 4096)) := by
  have hsearch := alloc_scan_search p n.toNat (MAX_PAGES + 1) p.last_free_page 0 (by omega)
    (by omega)
  have hn' : ¬ n ≤ 0 := by omega
  simp only [alloc_page, if_neg hn']
  cases hscan : alloc_scan p n.toNat (MAX_PAGES + 1) p.last_free_page 0 with
  | none =>
      rw [hscan] at hsearch
      exact hsearch
  | some base =>
      obtain ⟨hbase, -⟩ := alloc_scan_spec p n.toNat _ _ 0 base (by intro k hk; omega) hscan
        (Nat.le_refl _)
      rw [hscan] at hsearch
      dsimp only
      rw [if_neg (by omega), Nat.mul_div_cancel base (by decide)]
      exact hsearch

/-! ### Runs -/

/-- The allocator with the pages its callers hold. -/
structure Served where
  pmm : Pmm
  held : Nat → Prop

/-- The pages from `addr` on, `n` of them; none for the null address. -/
def pages (addr : Nat) (n : Int) (i : Nat) : Prop :=
  addr ≠ 0 ∧ addr / 4096 ≤ i ∧ i < addr / 4096 + n.toNat

/-- One call: an allocation of any size, or the free of the address of a held page. -/
inductive Call : Served → Served → Prop
  | alloc (s : Served) (n : Int) : Call s
      ⟨(s.pmm.alloc_page n).2, fun i => s.held i ∨ pages (s.pmm.alloc_page n).1 n i⟩
  | free (s : Served) (page : Nat) : s.held page → Call s
      ⟨s.pmm.free_page (4096 * page), fun i => s.held i ∧ i ≠ page⟩

/-- Everything that can happen after `init_pmm`. -/
def Reachable (kernel_end_addr : Nat) : Served → Prop :=
  Relation.ReflTransGen Call ⟨init_pmm kernel_end_addr, fun _ => False⟩

/-- The invariant of the runs of an allocator whose pages start at `first`. -/
structure Serving (first : Nat) (s : Served) : Prop where
  hint : first ≤ s.pmm.last_free_page
  marked : ∀ i, s.held i → s.pmm.used i = true
  above : ∀ i, s.held i → first ≤ i ∧ i < MAX_PAGES

theorem serving_init (kernel_end_addr : Nat) :
    Serving (firstPage kernel_end_addr) ⟨init_pmm kernel_end_addr, fun _ => False⟩ :=
  ⟨Nat.le_refl _, nofun, nofun⟩

/-- Freeing the page at a page address. -/
theorem free_page_at (p : Pmm) {page : Nat} (h : page < MAX_PAGES) (i : Nat) :
    (p.free_page (4096 * page)).used i = if i = page then false else p.used i := by
  have hdiv : 4096 * page / 4096 = page := Nat.mul_div_cancel_left page (by decide)
  simp only [free_page, hdiv]
  rw [if_neg (by omega)]
  split
  · rw [used_hint, used_freebit]
  · rw [used_freebit]

theorem free_page_hint (p : Pmm) (page : Nat) :
    (p.free_page (4096 * page)).last_free_page = p.last_free_page ∨
      (p.free_page (4096 * page)).last_free_page = page := by
  have hdiv : 4096 * page / 4096 = page := Nat.mul_div_cancel_left page (by decide)
  simp only [free_page, hdiv]
  split
  · exact Or.inl rfl
  · split
    · exact Or.inr rfl
    · exact Or.inl rfl

/-- The pages of a successful allocation are those of its run. -/
theorem Allocated.pages_iff {p p' : Pmm} {n : Int} {addr s : Nat} (h : Allocated p p' n addr s)
    (i : Nat) : pages addr n i → s ≤ i ∧ i < s + n.toNat := by
  rintro ⟨-, hlo, hhi⟩
  rw [h.addr_eq, Nat.mul_div_cancel s (by decide)] at hlo hhi
  exact ⟨hlo, hhi⟩

theorem Serving.step {first : Nat} {s s' : Served} (h : Serving first s) (hc : Call s s') :
    Serving first s' := by
  cases hc with
  | alloc n =>
      rcases alloc_page_spec s.pmm n with ⟨haddr, hp⟩ | ⟨r, ha⟩
      · have hheld : ∀ i, s.held i ∨ pages (s.pmm.alloc_page n).1 n i → s.held i := by
          rintro i (hi | ⟨hne, -⟩)
          · exact hi
          · exact absurd haddr hne
        refine ⟨?_, fun i hi => ?_, fun i hi => h.above i (hheld i hi)⟩
        · dsimp only
          rw [hp]
          exact h.hint
        · dsimp only
          rw [hp]
          exact h.marked i (hheld i hi)
      · have hlow := Nat.le_trans h.hint ha.hint
        refine ⟨?_, fun i hi => ?_, fun i hi => ?_⟩
        · dsimp only
          rw [ha.hint']
          omega
        · dsimp only
          rw [ha.marked]
          rcases hi with hi | hi
          · rw [h.marked i hi, Bool.or_true]
          · rw [decide_eq_true (ha.pages_iff i hi), Bool.true_or]
        · rcases hi with hi | hi
          · exact h.above i hi
          · obtain ⟨hlo, hhi⟩ := ha.pages_iff i hi
            have := (ha.free (i - r) (by omega)).2
            exact ⟨by omega, by omega⟩
  | free page hpage =>
      obtain ⟨hlo, hhi⟩ := h.above page hpage
      refine ⟨?_, fun i hi => ?_, fun i hi => h.above i hi.1⟩
      · rcases free_page_hint s.pmm page with hh | hh
        · dsimp only
          rw [hh]
          exact h.hint
        · dsimp only
          rw [hh]
          exact hlo
      · dsimp only
        rw [free_page_at _ hhi, if_neg hi.2]
        exact h.marked i hi.1

theorem Reachable.serving {kernel_end_addr : Nat} {s : Served} (h : Reachable kernel_end_addr s) :
    Serving (firstPage kernel_end_addr) s := by
  induction h with
  | refl => exact serving_init kernel_end_addr
  | tail _ hstep ih => exact ih.step hstep

/-- What a call of `alloc_page` may do: its search ends, and either it returns 0 and changes
nothing, or it hands out a run of free pages that no one holds, above the kernel and
inside the memory, and marks exactly those. -/
def SafeAlloc (first : Nat) (s : Served) (n : Int) : Prop :=
  (0 < n → Search s.pmm n.toNat s.pmm.last_free_page 0
    (if (s.pmm.alloc_page n).1 = 0 then none else some ((s.pmm.alloc_page n).1 / 4096))) ∧
  (n ≤ 0 → (s.pmm.alloc_page n).1 = 0) ∧
  ((s.pmm.alloc_page n).1 = 0 → (s.pmm.alloc_page n).2 = s.pmm) ∧
  ((s.pmm.alloc_page n).1 ≠ 0 → ∃ r, (s.pmm.alloc_page n).1 = 4096 * r ∧
    (∀ i, r ≤ i → i < r + n.toNat →
      s.pmm.used i = false ∧ first ≤ i ∧ i < MAX_PAGES ∧ ¬ s.held i) ∧
    ∀ i, (s.pmm.alloc_page n).2.used i = if r ≤ i ∧ i < r + n.toNat then true else s.pmm.used i)

/-- A free clears the bit of its page, which was set, and no other. -/
def SafeFree (s : Served) (page : Nat) : Prop :=
  s.pmm.used page = true ∧
    ∀ i, (s.pmm.free_page (4096 * page)).used i = if i = page then false else s.pmm.used i

/-- **Allocator safety.**  In every state the allocator reaches, every allocation and every
free of a held page is safe.  The kernel image is not empty, so page 0 is below its end. -/
theorem page_safety (kernel_end_addr : Nat) (hkernel : 0 < kernel_end_addr) (s : Served)
    (h : Reachable kernel_end_addr s) :
    (∀ n, SafeAlloc (firstPage kernel_end_addr) s n) ∧ ∀ page, s.held page → SafeFree s page := by
  have hserving := h.serving
  have hfirst : 0 < firstPage kernel_end_addr := by
    unfold firstPage
    omega
  refine ⟨fun n => ⟨fun hn => alloc_page_search s.pmm n hn (Nat.lt_of_lt_of_le hfirst hserving.hint),
    fun hn => ?_, fun h0 => ?_, fun hne => ?_⟩, fun page hpage => ⟨hserving.marked page hpage,
      free_page_at s.pmm (hserving.above page hpage).2⟩⟩
  · simp only [alloc_page, if_pos hn]
  · rcases alloc_page_spec s.pmm n with ⟨-, hp⟩ | ⟨r, ha⟩
    · exact hp
    · have hr : firstPage kernel_end_addr ≤ r := Nat.le_trans hserving.hint ha.hint
      have := ha.addr_eq
      omega
  · rcases alloc_page_spec s.pmm n with ⟨h0, -⟩ | ⟨r, ha⟩
    · exact absurd h0 hne
    refine ⟨r, by rw [ha.addr_eq, Nat.mul_comm], fun i hlo hhi => ?_, fun i => ?_⟩
    · obtain ⟨hfree, hmax⟩ := ha.free (i - r) (by omega)
      rw [show r + (i - r) = i by omega] at hfree hmax
      refine ⟨hfree, Nat.le_trans (Nat.le_trans hserving.hint ha.hint) hlo, hmax, fun hheld => ?_⟩
      rw [hserving.marked i hheld] at hfree
      cases hfree
    · rw [ha.marked]
      by_cases hin : r ≤ i ∧ i < r + n.toNat
      · rw [if_pos hin, decide_eq_true hin, Bool.true_or]
      · rw [if_neg hin, decide_eq_false hin, Bool.false_or]

/-- A kernel that ends at 1 MiB + 4 KiB, before the first call. -/
theorem page_safety_start :
    (∀ n, SafeAlloc 257 ⟨init_pmm 0x101000, fun _ => False⟩ n) ∧
      ∀ page, False → SafeFree ⟨init_pmm 0x101000, fun _ => False⟩ page :=
  page_safety 0x101000 (by decide) ⟨init_pmm 0x101000, fun _ => False⟩ .refl

end Pmm

end Eke
