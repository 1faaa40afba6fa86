/-
The boot page tables and `vmm_map_page`.

`boot.s` builds three tables in its .bss, one behind the other: one entry in the PML4, one in the
PDPT, and 512 large pages in the page directory, which map the first gigabyte to itself.
`vmm_map_page` goes down these tables and adds what is missing.  It reaches the tables through
the pointers it finds in them, that is through the very translation it changes, so every access
of the model is translated; one that is not mapped is a page fault, and the function does not return.
-/
import Eke.Lib.Paging
import Eke.Lib.Loop
import Eke.Memory.PageSearch

namespace Eke

open Paging

namespace Vmm

def PTE_P : BitVec 64 := 1#64 <<< 0

def PTE_W : BitVec 64 := 1#64 <<< 1

def PTE_U : BitVec 64 := 1#64 <<< 2

/-! ### The boot tables -/

/-- What `_start` of `boot.s` writes: the first entries of `pml4_table` and `pdpt_table`, and the
`.fill_pd` loop, which writes both halves of each entry of `pd_table`. -/
def boot (m : Store) (pml4_table : Nat) : Store :=
  let pdpt_table := pml4_table + 4096
  let pd_table := pml4_table + 8192
  let m := m.setLe pml4_table 4 (pdpt_table ||| 0x03)
  let m := m.setLe pdpt_table 4 (pd_table ||| 0x03)
  loop (fun ecx m =>
    (m.setLe (pd_table + 8 * ecx) 4 (ecx <<< 21 ||| 0x83)).setLe (pd_table + 8 * ecx + 4) 4 0) 512 m

/-! ### `vmm_map_page` -/

/-- An aligned 64-bit access; no value is a page fault. -/
def readWord (m : Store) (root a : Nat) : Option (BitVec 64) := (translate m root a).map m.word

def writeWord (m : Store) (root a : Nat) (w : BitVec 64) : Option Store :=
  (translate m root a).map fun p => m.setWord p w

/-- The loop that clears a new table, after `n` rounds. -/
def clear_table (root table : Nat) : Nat → Store → Option Store
  | 0, m => some m
  | n + 1, m => (clear_table root table n m).bind fun m => writeWord m root (table + 8 * n) 0

/-- The table an entry points to, allocated if the entry is not present: the step `vmm_map_page`
makes for the PDPT, the page directory and the page table. -/
def next_table (root : Nat) (m : Store) (pmm : Pmm) (table idx : Nat) : Option (Nat × Store × Pmm) :=
  (readWord m root (table + 8 * idx)).bind fun e =>
    if e &&& PTE_P = 0 then
      let (next, pmm) := pmm.alloc_page 1
      (clear_table root next 512 m).bind fun m =>
        (writeWord m root (table + 8 * idx) (BitVec.ofNat 64 next ||| PTE_P ||| PTE_W)).map fun m =>
          (next, m, pmm)
    else some ((e &&& 0x000FFFFFFFFFF000#64).toNat, m, pmm)

def vmm_map_page (cr3 : BitVec 64) (m : Store) (pmm : Pmm) (virt phys : Nat) (flags : BitVec 64) :
    Option (Store × Pmm) :=
  let pml4 := (cr3 &&& 0x000FFFFFFFFFF000#64).toNat
  let pml4_idx := virt >>> 39 &&& 0x1FF
  let pdpt_idx := virt >>> 30 &&& 0x1FF
  let pd_idx := virt >>> 21 &&& 0x1FF
  let pt_idx := virt >>> 12 &&& 0x1FF
  (next_table pml4 m pmm pml4 pml4_idx).bind fun (pdpt, m, pmm) =>
  (next_table pml4 m pmm pdpt pdpt_idx).bind fun (pd, m, pmm) =>
  (next_table pml4 m pmm pd pd_idx).bind fun (pt, m, pmm) =>
  (writeWord m pml4 (pt + 8 * pt_idx)
    (BitVec.ofNat 64 phys &&& 0x000FFFFFFFFFF000#64 ||| flags ||| PTE_P)).map fun m => (m, pmm)

/-! ### Entries -/

theorem present_iff (e : BitVec 64) : e &&& PTE_P = 0 ↔ present e = false := by
  have hone : PTE_P = 1#64 := rfl
  rw [hone, BitVec.and_one_eq_setWidth_ofBool_getLsbD]
  unfold present
  cases e.getLsbD 0 <;> decide

theorem index_eq {v n k : Nat} (hk : k = 12 + 9 * n) : v >>> k &&& 0x1FF = index n v := by
  rw [hk, Nat.shiftRight_eq_div_pow, show (0x1FF : Nat) = 2 ^ 9 - 1 from rfl,
    Nat.and_two_pow_sub_one_eq_mod]
  rfl

/-- Low bits of an entry are its flags. -/
theorem entry_flag {page : Nat} {flags : BitVec 64} (hpage : page % 4096 = 0) {i : Nat}
    (hi : i < 12) : (BitVec.ofNat 64 page ||| flags).getLsbD i = flags.getLsbD i := by
  have hbit : page.testBit i = false := by
    rw [show page = 2 ^ 12 * (page / 2 ^ 12) + 0 by omega,
      Nat.testBit_two_pow_mul_add _ (by decide), if_pos hi, Nat.zero_testBit]
  rw [BitVec.getLsbD_or, BitVec.getLsbD_ofNat, hbit, Bool.and_false, Bool.false_or]

end Vmm

end Eke
