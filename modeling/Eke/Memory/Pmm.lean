/-
The physical page allocator.

`memory/pmm.cpp` keeps one bit for each of the 2^20 pages of 4 GB and a hint where
the next search starts.  `alloc_page` looks for `n` clear bits in a row from the
hint on, `free_page` clears one bit.  The two specifications at the end are all the
rest of the development uses: a run handed out was free throughout and is now used,
and no page stops being used except through `free_page`.
-/
import Mathlib.Data.Nat.Bitwise

namespace Eke

/-- `BM_SIZE` words of 64 pages each. -/
def BM_SIZE : Nat := 16384

def MAX_PAGES : Nat := BM_SIZE * 64

/-- `bitmap` and `last_free_page` of `pmm.cpp`. -/
structure Pmm where
  bitmap : Nat → BitVec 64
  last_free_page : Nat

/-- A 64-bit count passed as a C `int`. -/
def toInt (n : Nat) : Int := (BitVec.ofNat 32 n).toInt

namespace Pmm

def getbit (p : Pmm) (ind off : Nat) : Bool := (p.bitmap ind).getLsbD off

def setbit (p : Pmm) (ind off : Nat) : Pmm :=
  { p with bitmap := fun i => if i = ind then p.bitmap i ||| (1#64 <<< off) else p.bitmap i }

def freebit (p : Pmm) (ind off : Nat) : Pmm :=
  { p with bitmap := fun i => if i = ind then p.bitmap i &&& ~~~(1#64 <<< off) else p.bitmap i }

/-- `init_pmm`, for a kernel image that ends at `kernel_end_addr`. -/
def init_pmm (kernel_end_addr : Nat) : Pmm :=
  let last := (kernel_end_addr + 4095) / 4096
  { bitmap := fun i => if i < last / 64 then BitVec.allOnes 64 else 0
    last_free_page := last }

/--
The search loop of `alloc_page`: `base` is `vi * 64 + vo`, the page the current run
starts at, and `i` how many pages of it are known free.  Every round looks at one
page further, so `MAX_PAGES + 1` rounds always reach the end.
-/
def alloc_scan (p : Pmm) (n : Nat) : Nat → Nat → Nat → Option Nat
  | 0, _, _ => none
  | fuel + 1, base, i =>
    if n ≤ i then some base
    else if MAX_PAGES ≤ base + i then none
    else if p.getbit ((base + i) / 64) ((base + i) % 64) = false then alloc_scan p n fuel base (i + 1)
    else alloc_scan p n fuel (base + i + 1) 0

/-- The pages `base`, …, `base + n - 1` marked used. -/
def mark (p : Pmm) (base : Nat) : Nat → Pmm
  | 0 => p
  | n + 1 => (mark p base n).setbit ((base + n) / 64) ((base + n) % 64)

/-- `alloc_page`: an address, or 0 when there is none. -/
def alloc_page (p : Pmm) (n : Int) : Nat × Pmm :=
  if n ≤ 0 then (0, p)
  else
    match alloc_scan p n.toNat (MAX_PAGES + 1) p.last_free_page 0 with
    | none => (0, p)
    | some base => (base * 4096, { mark p base n.toNat with last_free_page := base + n.toNat })

def free_page (p : Pmm) (addr : Nat) : Pmm :=
  let q := addr / 4096
  if MAX_PAGES ≤ q then p
  else
    let p' := p.freebit (q / 64) (q % 64)
    if q < p.last_free_page then { p' with last_free_page := q } else p'

/-! ### The bit map as a set of pages -/

/-- Page `i` is marked used. -/
def used (p : Pmm) (i : Nat) : Bool := p.getbit (i / 64) (i % 64)

@[simp] theorem used_hint (p : Pmm) (l i : Nat) :
    ({ p with last_free_page := l } : Pmm).used i = p.used i := rfl

theorem used_setbit (p : Pmm) (i j : Nat) :
    (p.setbit (i / 64) (i % 64)).used j = if j = i then true else p.used j := by
  unfold used getbit setbit
  by_cases hq : j / 64 = i / 64
  · simp only [hq, if_true, BitVec.getLsbD_or, BitVec.getLsbD_shiftLeft]
    by_cases hij : j = i
    · subst hij
      simp
      omega
    · have hne : j % 64 ≠ i % 64 := by omega
      rw [if_neg hij]
      by_cases hlt : j % 64 < i % 64
      · simp [hlt]
      · have : j % 64 - i % 64 ≠ 0 := by omega
        simp [this]
  · have hij : j ≠ i := by rintro rfl; exact hq rfl
    simp [hq, hij]

theorem used_freebit (p : Pmm) (i j : Nat) :
    (p.freebit (i / 64) (i % 64)).used j = if j = i then false else p.used j := by
  unfold used getbit freebit
  by_cases hq : j / 64 = i / 64
  · simp only [hq, if_true, BitVec.getLsbD_and, BitVec.getLsbD_not, BitVec.getLsbD_shiftLeft]
    by_cases hij : j = i
    · subst hij
      simp
    · have hne : j % 64 ≠ i % 64 := by omega
      have hj : j % 64 < 64 := by omega
      rw [if_neg hij]
      by_cases hlt : j % 64 < i % 64
      · simp [hlt, hj]
      · have : j % 64 - i % 64 ≠ 0 := by omega
        simp [this, hj]
  · have hij : j ≠ i := by rintro rfl; exact hq rfl
    simp [hq, hij]

theorem used_mark (p : Pmm) (base : Nat) : ∀ (n i : Nat),
    (p.mark base n).used i = (decide (base ≤ i ∧ i < base + n) || p.used i) := by
  intro n
  induction n with
  | zero =>
      intro i
      simp [mark]
  | succ n ih =>
      intro i
      rw [mark, used_setbit, ih]
      by_cases hi : i = base + n
      · simp [hi]
      · have : (base ≤ i ∧ i < base + (n + 1)) ↔ (base ≤ i ∧ i < base + n) := by omega
        simp [hi, this]

/-! ### What the search finds -/

/-- The invariant of the search: the `i` pages from `base` on are free and in range. -/
theorem alloc_scan_spec (p : Pmm) (n : Nat) : ∀ (fuel base i r : Nat),
    (∀ k, k < i → p.used (base + k) = false ∧ base + k < MAX_PAGES) →
    alloc_scan p n fuel base i = some r → p.last_free_page ≤ base →
    p.last_free_page ≤ r ∧ ∀ k, k < n → p.used (r + k) = false ∧ r + k < MAX_PAGES := by
  intro fuel
  induction fuel with
  | zero => intro base i r _ h; simp [alloc_scan] at h
  | succ fuel ih =>
      intro base i r hfree h hbase
      rw [alloc_scan] at h
      by_cases hn : n ≤ i
      · rw [if_pos hn] at h
        obtain rfl := Option.some.inj h
        exact ⟨hbase, fun k hk => hfree k (by omega)⟩
      · rw [if_neg hn] at h
        by_cases hmax : MAX_PAGES ≤ base + i
        · rw [if_pos hmax] at h
          cases h
        · rw [if_neg hmax] at h
          by_cases hbit : p.getbit ((base + i) / 64) ((base + i) % 64) = false
          · rw [if_pos hbit] at h
            refine ih base (i + 1) r (fun k hk => ?_) h hbase
            rcases Nat.lt_succ_iff_lt_or_eq.mp hk with hlt | rfl
            · exact hfree k hlt
            · exact ⟨hbit, by omega⟩
          · rw [if_neg hbit] at h
            exact ih (base + i + 1) 0 r (by intro k hk; omega) h (by omega)

/-- What a successful allocation is: a run of `n` pages, all free before, all used after. -/
structure Allocated (p p' : Pmm) (n : Int) (addr s : Nat) : Prop where
  pos : 0 < n
  addr_eq : addr = s * 4096
  hint : p.last_free_page ≤ s
  hint' : p'.last_free_page = s + n.toNat
  free : ∀ k, k < n.toNat → p.used (s + k) = false ∧ s + k < MAX_PAGES
  marked : ∀ i, p'.used i = (decide (s ≤ i ∧ i < s + n.toNat) || p.used i)

theorem alloc_page_spec (p : Pmm) (n : Int) :
    (p.alloc_page n).1 = 0 ∧ (p.alloc_page n).2 = p ∨
      ∃ s, Allocated p (p.alloc_page n).2 n (p.alloc_page n).1 s := by
  unfold alloc_page
  by_cases hn : n ≤ 0
  · rw [if_pos hn]
    exact Or.inl ⟨rfl, rfl⟩
  · rw [if_neg hn]
    cases hscan : alloc_scan p n.toNat (MAX_PAGES + 1) p.last_free_page 0 with
    | none => exact Or.inl ⟨rfl, rfl⟩
    | some base =>
        obtain ⟨hhint, hfree⟩ := alloc_scan_spec p n.toNat _ _ 0 base (by intro k hk; omega) hscan
          (Nat.le_refl _)
        exact Or.inr ⟨base, by omega, rfl, hhint, rfl, hfree, fun i => used_mark p base n.toNat i⟩

/-- A used page stays used across an allocation. -/
theorem alloc_page_mono {p : Pmm} {n : Int} {i : Nat} (h : p.used i = true) :
    (p.alloc_page n).2.used i = true := by
  rcases alloc_page_spec p n with ⟨-, hp⟩ | ⟨s, ha⟩
  · rw [hp]
    exact h
  · rw [ha.marked, h, Bool.or_true]

/-- A used page is outside every run handed out after it was marked. -/
theorem Allocated.avoids {p p' : Pmm} {n : Int} {addr s i : Nat} (ha : Allocated p p' n addr s)
    (h : p.used i = true) : i < s ∨ s + n.toNat ≤ i := by
  by_contra hc
  have := (ha.free (i - s) (by omega)).1
  rw [show s + (i - s) = i by omega, h] at this
  cases this

/-- Freeing touches the bit of its own page only. -/
theorem used_free_page {p : Pmm} {addr i : Nat} (h : i ≠ addr / 4096) :
    (p.free_page addr).used i = p.used i := by
  simp only [free_page]
  split
  · rfl
  · split
    · rw [used_hint, used_freebit, if_neg h]
    · rw [used_freebit, if_neg h]

end Pmm

end Eke
