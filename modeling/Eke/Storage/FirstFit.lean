/-
What an allocation finds.

`spmm_alloc` looks at whole words, from the hint's word to the last one and then from the first
one to the hint's.  Each of the two scans is a search of an interval of blocks, put together from
the searches of its words.  The number of words is computed with an addition that overflows
where the device has more than 2^64 - 64 blocks: then nothing behind the hint's word is looked at.

A run of blocks that was taken and given back leaves the memory and the counter as they were.
-/
import Eke.Storage.Spmm
import Eke.Lib.Search

namespace Eke

/-- A block of the device, other than block 0, whose bit is clear. -/
def FreeBlock (m : Store) (bm T b : Nat) : Prop := 1 ≤ b ∧ b < T ∧ m.bit bm b = false

section

variable (m : Store) (bm T : Nat)

/-! ### The scans -/

/-- The scan of one word from a bit on. -/
theorem bit_scan_finds (w : Nat) : ∀ n bit : Nat,
    Finds (FreeBlock m bm T) (w * 64 + bit) (w * 64 + bit + n) (bit_scan m bm T w n bit) := by
  intro n
  induction n with
  | zero => intro bit; exact .empty (Nat.le_refl _)
  | succ n ih =>
      intro bit
      have hrest := ih (bit + 1)
      rw [show w * 64 + (bit + 1) + n = w * 64 + bit + (n + 1) by omega] at hrest
      rw [bit_scan]
      refine Finds.ite (fun h0 => .skip (fun h => absurd h.1 (by omega)) hrest) fun h0 => ?_
      refine Finds.ite (fun hT => ?_) fun hT => ?_
      · exact fun c hc _ h => absurd h.2.1 (by omega)
      rw [getbit_eq]
      refine Finds.ite (fun hbit => .here (by omega) ⟨by omega, by omega, hbit⟩) fun hbit => ?_
      exact .skip (fun h => hbit h.2.2) hrest

/-- A word without a clear bit. -/
theorem full_word {w : Nat} (h : m.word (bm + 8 * w) = BitVec.allOnes 64) :
    Finds (FreeBlock m bm T) (64 * w) (64 * (w + 1)) none := by
  intro c hc hc' hfree
  have hbit := Store.bit_word m bm c
  rw [show c / 64 = w by omega, h, BitVec.getLsbD_allOnes, hfree.2.2] at hbit
  simp at hbit
  omega

/-- The scan of `n` words from word `w` on. -/
theorem word_scan_finds : ∀ n w : Nat,
    Finds (FreeBlock m bm T) (64 * w) (64 * (w + n)) (word_scan m bm T n w) := by
  intro n
  induction n with
  | zero => intro w; exact .empty (Nat.le_refl _)
  | succ n ih =>
      intro w
      have hrest := ih (w + 1)
      rw [show w + 1 + n = w + (n + 1) by omega] at hrest
      rw [word_scan]
      refine Finds.ite (fun hfull => (full_word m bm T hfull).append (by omega) hrest) fun _ => ?_
      have hword := bit_scan_finds m bm T w 64 0
      rw [show w * 64 + 0 = 64 * w by omega, show 64 * w + 64 = 64 * (w + 1) by omega] at hword
      cases hscan : bit_scan m bm T w 64 0 with
      | some b =>
          rw [hscan] at hword
          exact hword.extend (by omega)
      | none =>
          rw [hscan] at hword
          exact hword.append (by omega) hrest

end

/-! ### Allocating one block -/

section

variable (m : Store) (dev : BLOCKDEV_API)

/-- The first block of the word the search starts at. -/
def startBlock : Nat := 64 * (dev.last_free_block / 64)

/-- The number of words does not overflow, or nothing is free from the hint's word on. -/
def Scannable : Prop :=
  dev.total_blocks + 63 < 2 ^ 64 ∨
    ∀ b, FreeBlock m dev.bitmap dev.total_blocks b → b < startBlock dev

/-- The first free block from the hint's word on or, if there is none, the first one at all. -/
def FirstFree (b : Nat) : Prop :=
  let T := dev.total_blocks
  Finds (FreeBlock m dev.bitmap T) (startBlock dev) T (some b) ∨
    Finds (FreeBlock m dev.bitmap T) (startBlock dev) T none ∧
      Finds (FreeBlock m dev.bitmap T) 1 T (some b)

/-- The block is the only one whose bit changes, it is counted, and the hint moves behind it. -/
structure Takes (b : Nat) (m' : Store) (dev' : BLOCKDEV_API) : Prop where
  free : FreeBlock m dev.bitmap dev.total_blocks b
  bits : ∀ i, m'.bit dev.bitmap i = if i = b then true else m.bit dev.bitmap i
  only : OnlyBits dev.bitmap dev.total_blocks m m'
  counted : dev'.free_blocks + 1 = dev.free_blocks
  hint : dev'.last_free_block = b + 1

/-- What an allocation of one block is for: it fails only on a full device, and takes the
first free block in the order of the search. -/
def AllocatesFirst : Prop :=
  let r := spmm_alloc m dev
  (r.1 = 0 ↔ ∀ b, ¬ FreeBlock m dev.bitmap dev.total_blocks b) ∧
    (r.1 ≠ 0 → Takes m dev r.1 r.2.1 r.2.2 ∧ FirstFree m dev r.1)

variable {m dev}

/-- No bit is clear where the counter is zero. -/
theorem Accurate.none_free (hacc : Accurate m dev) (h0 : dev.free_blocks = 0) (b : Nat) :
    ¬ FreeBlock m dev.bitmap dev.total_blocks b := by
  intro hfree
  obtain ⟨-, hT, hclear⟩ := hfree
  have hcnt := Store.clearBits_set m (setbit m dev.bitmap b) hT hclear (bit_setbit m dev.bitmap b)
  rw [Accurate] at hacc
  omega

theorem takes_free (hacc : Accurate m dev) {b : Nat}
    (h : FreeBlock m dev.bitmap dev.total_blocks b) :
    Takes m dev b (setbit m dev.bitmap b)
      { dev with free_blocks := dev.free_blocks - 1, last_free_block := b + 1 } := by
  refine ⟨h, bit_setbit m dev.bitmap b, onlyBits_setbit h.2.1, ?_, rfl⟩
  have hpos : dev.free_blocks ≠ 0 := fun h0 => hacc.none_free h0 b h
  show dev.free_blocks - 1 + 1 = dev.free_blocks
  omega

/-- Where both scans look at what they should, the block taken is the first free one. -/
theorem allocatesFirst_of_finds (hbm : dev.bitmap ≠ 0) (hacc : Accurate m dev)
    {r₁ r₂ : Option Nat}
    (h₁ : word_scan m dev.bitmap dev.total_blocks
      ((dev.total_blocks + 63) % 2 ^ 64 / 64 - dev.last_free_block / 64)
      (dev.last_free_block / 64) = r₁)
    (h₂ : word_scan m dev.bitmap dev.total_blocks (dev.last_free_block / 64) 0 = r₂)
    (hfirst : Finds (FreeBlock m dev.bitmap dev.total_blocks) (startBlock dev) dev.total_blocks r₁)
    (hsecond : r₁ = none → Finds (FreeBlock m dev.bitmap dev.total_blocks) 1 dev.total_blocks r₂) :
    AllocatesFirst m dev := by
  unfold AllocatesFirst spmm_alloc
  by_cases h0 : dev.free_blocks = 0
  · rw [if_pos (Or.inr h0)]
    exact ⟨⟨fun _ => hacc.none_free h0, fun _ => rfl⟩, fun hne => absurd rfl hne⟩
  rw [if_neg (by simp [hbm, h0])]
  dsimp only
  rw [h₁, h₂]
  -- a block that was found is free, and so is not block 0
  have htake : ∀ b, FreeBlock m dev.bitmap dev.total_blocks b →
      (b = 0 ↔ ∀ b, ¬ FreeBlock m dev.bitmap dev.total_blocks b) := by
    intro b hb
    constructor
    · intro hz
      exact absurd hb.1 (by omega)
    · intro hnone
      exact absurd hb (hnone b)
  cases r₁ with
  | some b => exact ⟨htake b hfirst.2.2.1, fun _ => ⟨takes_free hacc hfirst.2.2.1, .inl hfirst⟩⟩
  | none =>
      have hall := hsecond rfl
      cases r₂ with
      | some b =>
          exact ⟨htake b hall.2.2.1, fun _ => ⟨takes_free hacc hall.2.2.1, .inr ⟨hfirst, hall⟩⟩⟩
      | none =>
          refine ⟨⟨fun _ b hb => hall b hb.1 hb.2.1 hb, fun _ => rfl⟩, fun hne => absurd rfl hne⟩

end

/-- **Completeness of `spmm_alloc`.**  With an accurate counter, an allocation fails only on a
full device and takes the first free block in the order of the search, exactly when the number
of words does not overflow or nothing is free from the hint's word on. -/
theorem alloc_complete (m : Store) (dev : BLOCKDEV_API) (hbm : dev.bitmap ≠ 0)
    (h64 : dev.total_blocks < 2 ^ 64) (hacc : Accurate m dev) :
    AllocatesFirst m dev ↔ Scannable m dev := by
  have hfirst := word_scan_finds m dev.bitmap dev.total_blocks
    ((dev.total_blocks + 63) % 2 ^ 64 / 64 - dev.last_free_block / 64) (dev.last_free_block / 64)
  have hsecond := word_scan_finds m dev.bitmap dev.total_blocks (dev.last_free_block / 64) 0
  constructor
  · intro h
    by_contra hscan
    unfold Scannable at hscan
    push Not at hscan
    obtain ⟨hover, b, hfree, hb⟩ := hscan
    have hwords : (dev.total_blocks + 63) % 2 ^ 64 / 64 = 0 := by omega
    -- the first scan looks at nothing, so what is taken lies before the hint's word
    have hlow : (spmm_alloc m dev).1 < startBlock dev ∨ (spmm_alloc m dev).1 = 0 := by
      unfold spmm_alloc
      split
      · exact Or.inr rfl
      · dsimp only
        rw [hwords, Nat.zero_sub, word_scan]
        dsimp only
        cases hr : word_scan m dev.bitmap dev.total_blocks (dev.last_free_block / 64) 0 with
        | none => exact Or.inr rfl
        | some c =>
            rw [hr] at hsecond
            have := hsecond.2.1
            refine Or.inl ?_
            show c < 64 * (dev.last_free_block / 64)
            omega
    have hne : (spmm_alloc m dev).1 ≠ 0 := fun hz => h.1.mp hz b hfree
    obtain ⟨-, hleast | ⟨hnone, -⟩⟩ := h.2 hne
    · have := hleast.1
      omega
    · exact hnone b hb hfree.2.1 hfree
  · intro hscan
    have hone : Finds (FreeBlock m dev.bitmap dev.total_blocks) (startBlock dev) dev.total_blocks
        (word_scan m dev.bitmap dev.total_blocks
          ((dev.total_blocks + 63) % 2 ^ 64 / 64 - dev.last_free_block / 64)
          (dev.last_free_block / 64)) := by
      refine hfirst.same fun c hc => ?_
      have hT := hc.2.1
      unfold startBlock
      rcases hscan with hfit | hnone
      · omega
      · have := hnone c hc
        unfold startBlock at this
        omega
    refine allocatesFirst_of_finds hbm hacc rfl rfl hone fun hr => ?_
    -- nothing is free behind the hint's word, so the second scan sees every free block
    rw [hr] at hone
    refine hsecond.same fun c hc => ?_
    have hpos := hc.1
    have hT := hc.2.1
    have hbefore : c < startBlock dev := Nat.lt_of_not_le fun hle => hone c hle hT hc
    unfold startBlock at hbefore
    omega

/-- A device of `T` blocks over an empty bit map, as `spmm_init` leaves it. -/
def emptyDevice (T : Nat) : BLOCKDEV_API :=
  { total_sectors := T, sectors := fun _ => 0, io := fun _ => none, ops := 0,
    bitmap := 4096, total_blocks := T, free_blocks := T, last_free_block := 1 }

theorem accurate_empty (T : Nat) : Accurate (fun _ => 0) (emptyDevice T) :=
  (Store.clearBits_of_clear fun _ _ => by simp [Store.bit]).symm

/-- Three blocks, all of them free. -/
theorem alloc_complete_three : AllocatesFirst (fun _ => 0) (emptyDevice 3) ↔
    Scannable (fun _ => 0) (emptyDevice 3) :=
  alloc_complete (fun _ => 0) (emptyDevice 3) (by decide) (by decide) (accurate_empty 3)

/-- With `2^64 - 1` blocks there are no words to look at: every block is free, and none is found. -/
theorem alloc_finds_nothing :
    let dev := emptyDevice (2 ^ 64 - 1)
    Accurate (fun _ => 0) dev ∧ dev.last_free_block ≤ max dev.total_blocks 1 ∧
      FreeBlock (fun _ => 0) dev.bitmap dev.total_blocks 1 ∧
      (spmm_alloc (fun _ => 0) dev).1 = 0 ∧ ¬ AllocatesFirst (fun _ => 0) dev := by
  intro dev
  have hfree : FreeBlock (fun _ => 0) dev.bitmap dev.total_blocks 1 := by
    refine ⟨Nat.le_refl 1, by decide, ?_⟩
    simp [Store.bit]
  have hzero : (spmm_alloc (fun _ => 0) dev).1 = 0 := by
    simp [spmm_alloc, dev, emptyDevice, word_scan]
  exact ⟨accurate_empty _, by decide, hfree, hzero, fun h => h.1.mp hzero 1 hfree⟩

/-! ### Allocating a run and giving it back -/

/-- What is known of a run that was handed out: it is the first one there is, exactly its bits
are set and counted, and giving it back restores the memory and the counter. -/
structure TakesRun (m : Store) (dev : BLOCKDEV_API) (count s : Nat) (m' : Store)
    (dev' : BLOCKDEV_API) : Prop where
  run : ClearRun m dev.bitmap dev.total_blocks count s
  first : ∀ s', s' < s → ¬ ClearRun m dev.bitmap dev.total_blocks count s'
  bits : ∀ i, m'.bit dev.bitmap i = if s ≤ i ∧ i < s + count then true else m.bit dev.bitmap i
  only : OnlyBits dev.bitmap dev.total_blocks m m'
  counted : dev'.free_blocks + count = dev.free_blocks
  restored : (spmm_free_contiguous s count m' dev').1 = m
  recounted : (spmm_free_contiguous s count m' dev').2.free_blocks = dev.free_blocks

theorem Sets.bits {S : Nat → Prop} {v : Bool} {m m' : Store} {dev dev' : BLOCKDEV_API}
    [DecidablePred S] (h : Sets S v m dev m' dev') (i : Nat) :
    m'.bit dev.bitmap i = if S i then v else m.bit dev.bitmap i := by
  by_cases hi : S i
  · rw [if_pos hi, h.inside i hi]
  · rw [if_neg hi, h.outside i hi]

instance (s count : Nat) : DecidablePred (Run s count) := fun i =>
  inferInstanceAs (Decidable (s ≤ i ∧ i < s + count))

/-- Freeing the run that was just taken. -/
theorem Sets.undone {m m' : Store} {dev dev' : BLOCKDEV_API} {count s : Nat}
    (h : Sets (Run s count) true m dev m' dev') (hbm : dev.bitmap ≠ 0)
    (h64 : dev.total_blocks < 2 ^ 64) (hacc : Accurate m dev)
    (hrun : ClearRun m dev.bitmap dev.total_blocks count s) :
    (spmm_free_contiguous s count m' dev').1 = m ∧
      (spmm_free_contiguous s count m' dev').2.free_blocks = dev.free_blocks := by
  have hbm' := h.same.bitmap
  have hT' := h.same.total_blocks
  have hfree := spmm_free_contiguous_sets m' dev' s count (by rwa [hbm']) hrun.pos
    (by rw [hT']; exact hrun.le) (by rwa [hT'])
  have hmem : (spmm_free_contiguous s count m' dev').1 = m := by
    have honly := hfree.only
    rw [hbm', hT'] at honly
    refine mem_eq_of_bits (h.only.trans honly) fun i => ?_
    have hfreed := hfree.bits i
    rw [hbm'] at hfreed
    rw [hfreed, h.bits i]
    by_cases hi : Run s count i
    · obtain ⟨hlo, hhi⟩ := hi
      have hclear := hrun.clear (i - s) (by omega)
      rw [show s + (i - s) = i by omega] at hclear
      rw [if_pos ⟨hlo, hhi⟩, hclear]
    · rw [if_neg hi, if_neg hi]
  refine ⟨hmem, ?_⟩
  have hcount := hfree.accurate (h.accurate hacc)
  unfold Accurate at hcount hacc
  rw [hcount, hfree.same.bitmap, hfree.same.total_blocks, hmem, hbm', hT', hacc]

/-- **First fit, undone by freeing.**  With an accurate counter, a contiguous allocation fails
exactly when nothing is asked for or no run is long enough, and changes nothing then; otherwise it
takes the first run, and `spmm_free_contiguous` right after restores what was there. -/
theorem contiguous_exact (m : Store) (dev : BLOCKDEV_API) (count : Nat) (hbm : dev.bitmap ≠ 0)
    (h64 : dev.total_blocks < 2 ^ 64) (hacc : Accurate m dev) :
    let r := spmm_alloc_contiguous count m dev
    (r.1 = 0 ↔ count = 0 ∨ ∀ s, ¬ ClearRun m dev.bitmap dev.total_blocks count s) ∧
      (r.1 = 0 → r.2 = (m, dev)) ∧
      (r.1 ≠ 0 → TakesRun m dev count r.1 r.2.1 r.2.2) := by
  intro r
  by_cases hcount : count = 0
  · have hr : r = (0, m, dev) := if_pos (Or.inr (Or.inr hcount))
    rw [hr]
    exact ⟨⟨fun _ => Or.inl hcount, fun _ => rfl⟩, fun _ => rfl, fun hne => absurd rfl hne⟩
  rcases spmm_alloc_contiguous_spec m dev count hbm hcount hacc with ⟨hr, hnone⟩ | ⟨hrun, hfirst, hsets⟩
  · have hr' : r = (0, m, dev) := hr
    rw [hr']
    exact ⟨⟨fun _ => Or.inr hnone, fun _ => rfl⟩, fun _ => rfl, fun hne => absurd rfl hne⟩
  · have hpos : r.1 ≠ 0 := Nat.pos_iff_ne_zero.mp hrun.pos
    refine ⟨⟨fun hz => absurd hz hpos, ?_⟩, fun hz => absurd hz hpos, fun _ => ?_⟩
    · intro hnone
      rcases hnone with hz | hnone
      · exact absurd hz hcount
      · exact absurd hrun (hnone r.1)
    · obtain ⟨hmem, hfree⟩ := hsets.undone hbm h64 hacc hrun
      refine ⟨hrun, hfirst, hsets.bits, hsets.only, ?_, hmem, hfree⟩
      obtain ⟨-, hbits, hcnt⟩ := set_loop hrun.le hrun.clear
      have hacc' := hsets.accurate hacc
      unfold Accurate at hacc hacc'
      rw [hsets.same.bitmap, hsets.same.total_blocks,
        Store.clearBits_congr fun i _ => (hsets.bits i).trans (hbits i).symm] at hacc'
      show (spmm_alloc_contiguous count m dev).2.2.free_blocks + count = dev.free_blocks
      omega

/-- Two of three free blocks. -/
theorem contiguous_exact_two :
    let dev := emptyDevice 3
    let r := spmm_alloc_contiguous 2 (fun _ => 0) dev
    (r.1 = 0 ↔ 2 = 0 ∨ ∀ s, ¬ ClearRun (fun _ => 0) dev.bitmap dev.total_blocks 2 s) ∧
      (r.1 = 0 → r.2 = (fun _ => 0, dev)) ∧
      (r.1 ≠ 0 → TakesRun (fun _ => 0) dev 2 r.1 r.2.1 r.2.2) :=
  contiguous_exact (fun _ => 0) (emptyDevice 3) 2 (by decide) (by decide) (accurate_empty 3)

end Eke
