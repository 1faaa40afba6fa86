/-
Pages that can be written to.

The page allocator manages 4 GiB, and the boot tables map the first of them.  Whoever is handed a
page writes through its address, so a page behind the first gigabyte is a page fault.  Allocations
take the first run of pages there is, so they stay in the map exactly as long as each finds a run
that ends in it.
-/
import Eke.Memory.AddressSpace
import Eke.Lib.Throughout

namespace Eke

open Paging

namespace Vmm

variable {m : Store} {root : Nat}

/-- What the boot tables translate: the first gigabyte, to itself. -/
theorem Booted.translate_iff (h : Booted m root) (hpage : root % 4096 = 0)
    (hlow : root + 12288 ≤ 2 ^ 30) (a : Nat) : translate m root a = some a ↔ a < 2 ^ 30 := by
  have hspace := h.space hpage hlow
  constructor
  · intro htranslate
    obtain ⟨hcanonical, n, T, hT, hleaf⟩ := Paging.translate_iff.mp htranslate
    unfold canonical at hcanonical
    cases n with
    | zero =>
        have htables := (h.linked_iff hpage hlow).mp hT
        omega
    | succ n =>
        have hlarge := hspace.large hT hleaf.present hleaf.terminal
        omega
  · exact hspace.translate_low

/-- A call of the page allocator. -/
inductive PmmCall where
  | alloc (n : Int)
  | free (addr : Nat)

def PmmCall.next (pmm : Pmm) : PmmCall → Pmm
  | .alloc n => (pmm.alloc_page n).2
  | .free addr => pmm.free_page addr

/-- Every byte of every page an allocation hands out is mapped to itself. -/
def PmmCall.Dereferenceable (m : Store) (root : Nat) (pmm : Pmm) : PmmCall → Prop
  | .alloc n => (pmm.alloc_page n).1 ≠ 0 → ∀ a, (pmm.alloc_page n).1 ≤ a →
      a < (pmm.alloc_page n).1 + 4096 * n.toNat → translate m root a = some a
  | .free _ => True

/-- If there is a run of `n` free pages from the hint on, there is one in the first gigabyte; a
run at page 0 is returned as 0 and is not handed out. -/
def PmmCall.InReach (pmm : Pmm) : PmmCall → Prop
  | .alloc n => 0 < n → (∃ r, pmm.last_free_page ≤ r ∧ Pmm.FreeRun pmm n r) →
      ∃ r, pmm.last_free_page ≤ r ∧ Pmm.FreeRun pmm n r ∧ (r = 0 ∨ r + n.toNat ≤ 2 ^ 18)
  | .free _ => True

/-- An allocation hands out mapped pages exactly when a run of its length is in reach. -/
theorem dereferenceable_iff (hm : ∀ a, translate m root a = some a ↔ a < 2 ^ 30) (pmm : Pmm)
    (c : PmmCall) : c.Dereferenceable m root pmm ↔ c.InReach pmm := by
  cases c with
  | free addr => exact Iff.rfl
  | alloc n =>
      simp only [PmmCall.Dereferenceable, PmmCall.InReach]
      by_cases hn : 0 < n
      · obtain ⟨r, hfinds, halloc⟩ := Pmm.alloc_page_finds pmm hn
        rw [halloc]
        cases r with
        | none =>
            constructor
            · intro _ _ hrun
              obtain ⟨r, hr, hrun⟩ := hrun
              exact absurd hrun (hfinds r hr (hrun.lt hn).2)
            · intro _ hne
              exact absurd rfl hne
        | some base =>
            obtain ⟨hhint, -, hrun, hfirst⟩ := hfinds
            simp only [Pmm.taken]
            constructor
            · intro hmapped _ _
              refine ⟨base, hhint, hrun, ?_⟩
              by_cases hzero : base = 0
              · exact Or.inl hzero
              · -- the last byte of the run is mapped
                have hlast := (hm _).mp (hmapped (by omega) (base * 4096 + 4096 * n.toNat - 1)
                  (by omega) (by omega))
                exact Or.inr (by omega)
            · intro hreach hne a hlo hhi
              obtain ⟨r, hr, hrun', hend⟩ := hreach hn ⟨base, hhint, hrun⟩
              have hle : base ≤ r := by
                by_contra hlt
                exact hfirst r hr (by omega) hrun'
              exact (hm a).mpr (by omega)
      · have hzero : pmm.alloc_page n = (0, pmm) := by
          unfold Pmm.alloc_page
          rw [if_pos (by omega)]
        rw [hzero]
        exact ⟨fun _ hpos => absurd hpos hn, fun _ hne => absurd rfl hne⟩

/-- **Dereferencing.**  In every sequence of calls after `init_pmm`, the pages handed out are all
mapped by the boot tables exactly when every allocation of the sequence finds its run in reach. -/
theorem allocated_pages_mapped (m₀ : Store) (pml4_table : Nat) (hload : Loaded m₀ pml4_table)
    (kernel_end_addr : Nat) (calls : List PmmCall) :
    Throughout PmmCall.next (fun pmm c => c.Dereferenceable (boot m₀ pml4_table) pml4_table pmm)
        (Pmm.init_pmm kernel_end_addr) calls ↔
      Throughout PmmCall.next (fun pmm c => c.InReach pmm) (Pmm.init_pmm kernel_end_addr) calls := by
  have hboot := boot_booted hload.low hload.zero
  exact Throughout.congr (I := fun _ => True)
    (fun pmm c _ => dereferenceable_iff (hboot.translate_iff hload.aligned hload.low) pmm c)
    (fun _ _ _ _ => trivial) trivial

/-- Two pages for a kernel with its tables at 1 MiB + 4 KiB. -/
theorem allocated_pages_mapped_two :
    Throughout PmmCall.next
        (fun pmm c => c.Dereferenceable (boot (fun _ => 0) 0x101000) 0x101000 pmm)
        (Pmm.init_pmm 0x110000) [.alloc 1, .alloc 1] ↔
      Throughout PmmCall.next (fun pmm c => c.InReach pmm) (Pmm.init_pmm 0x110000)
        [.alloc 1, .alloc 1] :=
  allocated_pages_mapped (fun _ => 0) 0x101000 ⟨by decide, by decide, fun _ _ _ => rfl⟩ 0x110000
    [.alloc 1, .alloc 1]

/-- A first allocation of 2^18 pages succeeds, and the last byte it hands out is not mapped. -/
theorem gigabyte_not_mapped :
    let m := boot (fun _ => 0) 0x101000
    let pmm := Pmm.init_pmm 0x110000
    (pmm.alloc_page (2 ^ 18)).1 = 0x110000 ∧
      translate m 0x101000 (0x110000 + 4096 * 2 ^ 18 - 1) ≠ some (0x110000 + 4096 * 2 ^ 18 - 1) ∧
      ¬ Throughout PmmCall.next (fun pmm c => c.Dereferenceable m 0x101000 pmm) pmm
        [.alloc (2 ^ 18)] := by
  intro m pmm
  have hboot : Booted m 0x101000 := boot_booted (by decide) fun _ _ _ => rfl
  have hmapped := hboot.translate_iff (by decide) (by decide)
  have hfree : ∀ i, 272 ≤ i → pmm.used i = false := by
    intro i hi
    have hword : ¬ i / 64 < 272 / 64 := by omega
    show BitVec.getLsbD (if i / 64 < 272 / 64 then BitVec.allOnes 64 else 0) (i % 64) = false
    rw [if_neg hword]
    simp
  have hrun : Pmm.FreeRun pmm (2 ^ 18) 272 := by
    intro k hk
    have hmax : MAX_PAGES = 2 ^ 20 := rfl
    exact ⟨hfree _ (by omega), by omega⟩
  have hhint : pmm.last_free_page = 272 := rfl
  have hfinds : Finds (Pmm.FreeRun pmm (2 ^ 18)) pmm.last_free_page MAX_PAGES (some 272) := by
    rw [hhint]
    exact .here (by decide) hrun
  have haddr : (pmm.alloc_page (2 ^ 18)).1 = 0x110000 := by
    rw [Pmm.alloc_page_eq (by decide) hfinds, Pmm.taken]
  have hlast : translate m 0x101000 (0x110000 + 4096 * 2 ^ 18 - 1) ≠
      some (0x110000 + 4096 * 2 ^ 18 - 1) := by
    intro h
    have := (hmapped _).mp h
    omega
  refine ⟨haddr, hlast, fun hall => hlast (hall.1 ?_ _ ?_ ?_)⟩
  · rw [haddr]
    decide
  · rw [haddr]
    decide
  · rw [haddr]
    decide

end Vmm

end Eke
