/-
The bump heap.

A block is the next piece of one page; no block is ever given back.  The size is rounded up to a
multiple of four and added to `heap_offset` in 32 bits, so a huge size moves the offset back, or
comes to a block of no bytes.  `Exact` are the requests that do neither.
-/
import Eke.Lib.Bits
import Eke.Lib.Throughout
import Eke.Memory.Pmm

namespace Eke

/-- The variables of `bump_alloc.cpp`. -/
structure BumpHeap where
  heap_base : BitVec 64
  heap_offset : BitVec 32

namespace BumpHeap

/-- Nothing assigns `heap_capacity`: it is one page. -/
def heap_capacity : BitVec 32 := 4096

def bump_kmalloc (h : BumpHeap) (size : BitVec 32) : BitVec 64 × BumpHeap :=
  let size := (size + 3) &&& ~~~3
  if heap_capacity < h.heap_offset + size then (0, h)
  else (h.heap_base + h.heap_offset.setWidth 64, { h with heap_offset := h.heap_offset + size })

def bump_kfree (h : BumpHeap) (ptr : BitVec 64) : Bool :=
  decide (h.heap_base ≤ ptr ∧ ptr < h.heap_base + heap_capacity.setWidth 64)

/-- The page comes from `alloc_page` of the kernel; no page is the address 0. -/
def bump_init (p : Pmm) : BumpHeap × Pmm :=
  let (page, p') := p.alloc_page 1
  (⟨BitVec.ofNat 64 page, 0⟩, p')

/-! ### The arithmetic -/

def roundUp (n : Nat) : Nat := (n + 3) / 4 * 4

theorem rounded (size : BitVec 32) : ((size + 3) &&& ~~~3).toNat = roundUp size.toNat % 2 ^ 32 := by
  have hmask : ~~~(3 : BitVec 32) = BitVec.allOnes 32 <<< 2 := by decide
  have hthree : (3 : BitVec 32).toNat = 3 := rfl
  have hsize := size.isLt
  rw [hmask, toNat_clear, BitVec.toNat_add, hthree, roundUp]
  omega

/-- A request is refused, or the block is at the offset; the sum is one of 32 bits. -/
theorem kmalloc_cases (h : BumpHeap) (size : BitVec 32) :
    4096 < (h.heap_offset.toNat + roundUp size.toNat) % 2 ^ 32 ∧ h.bump_kmalloc size = (0, h) ∨
      (h.heap_offset.toNat + roundUp size.toNat) % 2 ^ 32 ≤ 4096 ∧ ∃ o : BitVec 32,
        o.toNat = (h.heap_offset.toNat + roundUp size.toNat) % 2 ^ 32 ∧
        h.bump_kmalloc size = (h.heap_base + h.heap_offset.setWidth 64, { h with heap_offset := o }) := by
  have hsum : (h.heap_offset + ((size + 3) &&& ~~~3)).toNat =
      (h.heap_offset.toNat + roundUp size.toNat) % 2 ^ 32 := by
    rw [BitVec.toNat_add, rounded]
    omega
  have hcapacity : heap_capacity.toNat = 4096 := rfl
  rcases Nat.lt_or_ge 4096 ((h.heap_offset.toNat + roundUp size.toNat) % 2 ^ 32) with hlt | hge
  · refine .inl ⟨hlt, if_pos ?_⟩
    rw [BitVec.lt_def, hsum, hcapacity]
    exact hlt
  · refine .inr ⟨hge, _, hsum, if_neg ?_⟩
    rw [BitVec.lt_def, hsum, hcapacity]
    exact Nat.not_lt.mpr hge

/-! ### Requests one after the other -/

/-- The heap and the blocks that have been handed out, with the sizes asked for. -/
structure Given where
  heap : BumpHeap
  blocks : List (BitVec 64 × BitVec 32)

namespace Given

variable {s : Given} {size : BitVec 32}

def next (s : Given) (size : BitVec 32) : Given :=
  let r := s.heap.bump_kmalloc size
  ⟨r.2, if r.1 = 0 then s.blocks else (r.1, size) :: s.blocks⟩

/-- Behind `bump_init`. -/
def start (p : Pmm) : Given := ⟨(bump_init p).1, []⟩

/-- The block at `ptr` is in the page, apart from every earlier one, and can be freed. -/
structure Placed (s : Given) (ptr : BitVec 64) (size : BitVec 32) : Prop where
  low : s.heap.heap_base.toNat ≤ ptr.toNat
  high : ptr.toNat + size.toNat ≤ s.heap.heap_base.toNat + heap_capacity.toNat
  apart : ∀ b ∈ s.blocks, ptr.toNat + size.toNat ≤ b.1.toNat ∨ b.1.toNat + b.2.toNat ≤ ptr.toNat
  free : s.heap.bump_kfree ptr = true

/-- A request is served as a heap should. -/
structure Sound (s : Given) (size : BitVec 32) : Prop where
  grows : s.heap.heap_offset ≤ (s.next size).heap.heap_offset
  bound : (s.next size).heap.heap_offset ≤ heap_capacity
  placed : (s.heap.bump_kmalloc size).1 ≠ 0 → s.Placed (s.heap.bump_kmalloc size).1 size

/-- The rounded size and the offset have a sum of 32 bits, or there is no page and no block in front;
and it is not the empty block behind the full page. -/
def Exact (s : Given) (size : BitVec 32) : Prop :=
  (s.heap.heap_offset.toNat + roundUp size.toNat < 2 ^ 32 ∨ s.heap.heap_base = 0 ∧ s.heap.heap_offset = 0) ∧
    ¬ (size = 0 ∧ s.heap.heap_offset = heap_capacity)

/-- What holds between the requests. -/
structure Shaped (s : Given) : Prop where
  page : s.heap.heap_base.toNat + 4096 < 2 ^ 64
  offset : s.heap.heap_offset.toNat ≤ 4096
  below : ∀ b ∈ s.blocks, b.1.toNat + b.2.toNat ≤ s.heap.heap_base.toNat + s.heap.heap_offset.toNat

/-- The address of the block, which does not wrap. -/
theorem Shaped.ptr (h : s.Shaped) : (s.heap.heap_base + s.heap.heap_offset.setWidth 64).toNat =
    s.heap.heap_base.toNat + s.heap.heap_offset.toNat := by
  have hpage := h.page
  have hoffset := h.offset
  rw [BitVec.toNat_add, BitVec.toNat_setWidth]
  omega

/-- Only without a page, and in front of the first block, a block has the address 0. -/
theorem Shaped.ptr_zero (h : s.Shaped) : s.heap.heap_base + s.heap.heap_offset.setWidth 64 = 0 ↔
    s.heap.heap_base = 0 ∧ s.heap.heap_offset = 0 := by
  have hptr := h.ptr
  rw [BitVec.toNat_eq, BitVec.toNat_eq, BitVec.toNat_eq, hptr]
  exact Nat.add_eq_zero_iff

/-- A pointer into the page that is not behind its end can be freed. -/
theorem Shaped.kfree (h : s.Shaped) :
    s.heap.bump_kfree (s.heap.heap_base + s.heap.heap_offset.setWidth 64) = true ↔
      s.heap.heap_offset.toNat < 4096 := by
  have hpage := h.page
  have hend : (s.heap.heap_base + heap_capacity.setWidth 64).toNat = s.heap.heap_base.toNat + 4096 := by
    rw [BitVec.toNat_add]
    exact Nat.mod_eq_of_lt hpage
  unfold bump_kfree
  rw [decide_eq_true_iff, BitVec.le_def, BitVec.lt_def, h.ptr, hend]
  omega

theorem next_refused (h : s.heap.bump_kmalloc size = (0, s.heap)) : s.next size = s := by
  unfold next
  rw [h]
  rfl

theorem next_placed {o : BitVec 32} (h : s.heap.bump_kmalloc size =
    (s.heap.heap_base + s.heap.heap_offset.setWidth 64, { s.heap with heap_offset := o })) :
    s.next size = ⟨{ s.heap with heap_offset := o },
      if s.heap.heap_base + s.heap.heap_offset.setWidth 64 = 0 then s.blocks
      else (s.heap.heap_base + s.heap.heap_offset.setWidth 64, size) :: s.blocks⟩ := by
  unfold next
  rw [h]

/-- A request that is exact is served soundly. -/
theorem Exact.sound (h : s.Shaped) (he : s.Exact size) : s.Sound size := by
  obtain ⟨hsum, hlast⟩ := he
  have hoffset := h.offset
  have hup : size.toNat ≤ roundUp size.toNat := by unfold roundUp; omega
  have hcapacity : heap_capacity.toNat = 4096 := rfl
  rcases kmalloc_cases s.heap size with ⟨-, hno⟩ | ⟨hle, o, ho, hyes⟩
  · refine ⟨?_, ?_, fun hp => absurd (by rw [hno]) hp⟩
    · rw [next_refused hno]
      exact BitVec.le_refl _
    · rw [next_refused hno, BitVec.le_def, hcapacity]
      exact hoffset
  · have hgrows : s.heap.heap_offset.toNat ≤ o.toNat := by
      rcases hsum with hlt | ⟨-, hzero⟩
      · omega
      · rw [hzero]
        exact Nat.zero_le _
    refine ⟨?_, ?_, fun hp => ?_⟩
    · rw [next_placed hyes, BitVec.le_def]
      exact hgrows
    · rw [next_placed hyes, BitVec.le_def, hcapacity]
      show o.toNat ≤ 4096
      omega
    · rw [hyes] at hp ⊢
      show s.Placed (s.heap.heap_base + s.heap.heap_offset.setWidth 64) size
      have hlt := hsum.resolve_right fun hzero => hp (h.ptr_zero.mpr hzero)
      have hptr := h.ptr
      refine ⟨?_, ?_, fun b hb => ?_, h.kfree.mpr ?_⟩
      · omega
      · omega
      · have hbelow := h.below b hb
        omega
      · -- the page is full only if the block is empty
        have hfull : s.heap.heap_offset.toNat = 4096 → size = 0 ∧ s.heap.heap_offset = heap_capacity := by
          intro hfull
          exact ⟨BitVec.eq_of_toNat_eq (show _ = 0 by omega), BitVec.eq_of_toNat_eq hfull⟩
        have hne : s.heap.heap_offset.toNat ≠ 4096 := fun hc => hlast (hfull hc)
        omega

/-- A request is served soundly only if it is exact. -/
theorem Sound.exact (h : s.Shaped) (hs : s.Sound size) : s.Exact size := by
  have hoffset := h.offset
  have hsize := size.isLt
  have hup : size.toNat ≤ roundUp size.toNat ∧ roundUp size.toNat < size.toNat + 4 ∧
      (roundUp size.toNat < 2 ^ 32 ∨ roundUp size.toNat = 2 ^ 32) := by
    unfold roundUp
    omega
  have hcapacity : heap_capacity.toNat = 4096 := rfl
  rcases kmalloc_cases s.heap size with ⟨hlt, -⟩ | ⟨hle, o, ho, hyes⟩
  · refine ⟨.inl (by omega), fun ⟨hzero, hfull⟩ => ?_⟩
    rw [hzero, hfull] at hlt
    exact absurd hlt (by decide)
  · have hgrows := hs.grows
    rw [next_placed hyes, BitVec.le_def] at hgrows
    change s.heap.heap_offset.toNat ≤ o.toNat at hgrows
    have hplaced := hs.placed
    rw [hyes] at hplaced
    change s.heap.heap_base + s.heap.heap_offset.setWidth 64 ≠ 0 →
      s.Placed (s.heap.heap_base + s.heap.heap_offset.setWidth 64) size at hplaced
    have hptr := h.ptr
    constructor
    · by_contra hnot
      obtain ⟨hbig, hpage⟩ := not_or.mp hnot
      have hhigh := (hplaced fun hp => hpage (h.ptr_zero.mp hp)).high
      omega
    · rintro ⟨-, hfull⟩
      have hoff : s.heap.heap_offset.toNat = 4096 := by rw [hfull]; rfl
      have hfree := h.kfree.mp (hplaced fun hp => ?_).free
      · omega
      · rw [(h.ptr_zero.mp hp).2] at hoff
        exact absurd hoff (by decide)

theorem Shaped.step (h : s.Shaped) (he : s.Exact size) : (s.next size).Shaped := by
  have hup : size.toNat ≤ roundUp size.toNat := by unfold roundUp; omega
  have hoffset := h.offset
  have hptr := h.ptr
  rcases kmalloc_cases s.heap size with ⟨-, hno⟩ | ⟨hle, o, ho, hyes⟩
  · rw [next_refused hno]
    exact h
  · rw [next_placed hyes]
    refine ⟨h.page, ?_, fun b hb => ?_⟩
    · show o.toNat ≤ 4096
      omega
    · show b.1.toNat + b.2.toNat ≤ s.heap.heap_base.toNat + o.toNat
      change b ∈ (if _ then _ else _) at hb
      by_cases hzero : s.heap.heap_base = 0 ∧ s.heap.heap_offset = 0
      · rw [if_pos (h.ptr_zero.mpr hzero)] at hb
        have hbelow := h.below b hb
        rw [hzero.2] at hbelow
        change _ ≤ _ + 0 at hbelow
        omega
      · have hlt := he.1.resolve_right hzero
        rw [if_neg fun hp => hzero (h.ptr_zero.mp hp)] at hb
        rcases List.mem_cons.mp hb with rfl | hb
        · show (s.heap.heap_base + s.heap.heap_offset.setWidth 64).toNat + size.toNat ≤ _
          omega
        · have hbelow := h.below b hb
          omega

theorem start_shaped (p : Pmm) : (start p).Shaped := by
  refine ⟨?_, Nat.zero_le _, nofun⟩
  show (BitVec.ofNat 64 (p.alloc_page 1).1).toNat + 4096 < 2 ^ 64
  rw [BitVec.toNat_ofNat]
  rcases p.alloc_page_spec 1 with ⟨hnone, -⟩ | ⟨page, hsome⟩
  · rw [hnone]
    decide
  · have hpage := (hsome.free 0 (by decide)).2
    have haddr := hsome.addr_eq
    unfold MAX_PAGES BM_SIZE at hpage
    omega

/-- **The bump heap.**  Along a run every request is served soundly exactly if every request is exact. -/
theorem bump_heap_iff (p : Pmm) (sizes : List (BitVec 32)) :
    Throughout next Sound (start p) sizes ↔ Throughout next Exact (start p) sizes :=
  (Throughout.congr (fun _ _ h => ⟨fun he => he.sound h, fun hs => hs.exact h⟩) (fun _ _ h he => h.step he)
    (start_shaped p)).symm

/-- Free pages behind the first one. -/
def freshPages : Pmm := ⟨fun _ => 0, 1⟩

/-- A request close to `2 ^ 32` moves the offset back in front of the first block. -/
theorem bump_offset_back : ¬ ∀ p sizes, Throughout next Sound (start p) sizes := by
  intro h
  have hsecond := (h freshPages [100, BitVec.ofNat 32 (2 ^ 32 - 100)]).2.1.grows
  exact absurd hsecond (by decide)

end Given

end BumpHeap

end Eke
