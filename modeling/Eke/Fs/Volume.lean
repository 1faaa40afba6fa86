/-
A volume: what the file system's three structures say together.

The file table, the bit map and the free counter describe one thing, a set of named
extents on a range of blocks.  `Volume` is that description with the encodings gone:
a slot is an entry or nothing, a block is marked or not.  `ExtentInv` is the law the
three have to obey, and the two lemmas after it are the only ways the file system
changes a volume: an entry goes away with its blocks, or an entry comes in on a run
of clear blocks.  Overwriting a file is one after the other.
-/
import Mathlib.Data.Finset.Card
import Mathlib.Order.Interval.Finset.Nat
import Mathlib.Algebra.Order.BigOperators.Group.Finset
import Mathlib.Tactic.Ring
import Eke.Storage.Spmm

namespace Eke

structure Entry where
  name : List Byte
  size : Nat
  start_block : Nat
  block_count : Nat

/-- The blocks an entry owns. -/
def Entry.extent (e : Entry) : Nat → Prop := Run e.start_block e.block_count

structure Volume where
  slot : Nat → Option Entry
  bit : Nat → Bool
  free : Nat

namespace Volume

/-- Clear blocks below `hi`. -/
def clear (v : Volume) (hi : Nat) : Nat := ((Finset.range hi).filter fun b => v.bit b = false).card

/--
The extent law of a volume whose data blocks are `[lo, hi)`.  A block is marked when
it is a metadata block or some entry owns it, and no two entries own a block.
-/
structure Extents (v : Volume) (lo hi : Nat) : Prop where
  inside : ∀ i e, v.slot i = some e →
    lo ≤ e.start_block ∧ e.start_block + e.block_count ≤ hi ∧ e.size ≤ SECTOR_SIZE * e.block_count
  disjoint : ∀ i j e f, v.slot i = some e → v.slot j = some f → i ≠ j →
    ∀ b, e.extent b → ¬ f.extent b
  bits : ∀ b, b < hi →
    (v.bit b = true ↔ b < lo ∨ ∃! i, ∃ e, v.slot i = some e ∧ e.extent b)
  free : v.free = v.clear hi

/-- No two slots have the same name. -/
def Distinct (v : Volume) : Prop :=
  ∀ i j e f, v.slot i = some e → v.slot j = some f → e.name = f.name → i = j

/-- The extent invariant: the extent law, and a name for each file. -/
structure ExtentInv (v : Volume) (lo hi : Nat) : Prop extends Extents v lo hi where
  names : v.Distinct

variable {v v' : Volume} {lo hi i : Nat} {e : Entry}

theorem clear_congr (h : ∀ b, b < hi → v.bit b = v'.bit b) : v.clear hi = v'.clear hi := by
  unfold clear
  congr 1
  refine Finset.filter_congr fun b hb => ?_
  rw [h b (Finset.mem_range.mp hb)]

/-- A block some entry owns is owned by exactly one. -/
theorem Extents.owner_unique (h : Extents v lo hi) {b : Nat} (hi' : v.slot i = some e)
    (hb : e.extent b) : ∃! i, ∃ e, v.slot i = some e ∧ e.extent b := by
  refine ⟨i, ⟨e, hi', hb⟩, ?_⟩
  rintro j ⟨f, hj, hf⟩
  by_contra hne
  exact h.disjoint j i f e hj hi' hne b hf hb

/-- Without the uniqueness, which the disjointness gives anyway. -/
theorem Extents.bit_iff (h : Extents v lo hi) {b : Nat} (hb : b < hi) :
    v.bit b = true ↔ b < lo ∨ ∃ i e, v.slot i = some e ∧ e.extent b := by
  rw [h.bits b hb]
  refine or_congr_right ⟨?_, ?_⟩
  · rintro ⟨i, ⟨e, he⟩, -⟩
    exact ⟨i, e, he⟩
  · rintro ⟨i, e, hi', he⟩
    exact h.owner_unique hi' he

/-- The invariant from the plain reading of the bits. -/
theorem Extents.of_bit_iff
    (inside : ∀ i e, v.slot i = some e →
      lo ≤ e.start_block ∧ e.start_block + e.block_count ≤ hi ∧
        e.size ≤ SECTOR_SIZE * e.block_count)
    (disjoint : ∀ i j e f, v.slot i = some e → v.slot j = some f → i ≠ j →
      ∀ b, e.extent b → ¬ f.extent b)
    (bits : ∀ b, b < hi → (v.bit b = true ↔ b < lo ∨ ∃ i e, v.slot i = some e ∧ e.extent b))
    (free : v.free = v.clear hi) : Extents v lo hi := by
  refine ⟨inside, disjoint, fun b hb => ?_, free⟩
  rw [bits b hb]
  refine or_congr_right ⟨?_, ?_⟩
  · rintro ⟨i, e, hi', he⟩
    refine ⟨i, ⟨e, hi', he⟩, ?_⟩
    rintro j ⟨f, hj, hf⟩
    by_contra hne
    exact disjoint j i f e hj hi' hne b hf he
  · rintro ⟨i, ⟨e, he⟩, -⟩
    exact ⟨i, e, he⟩

/-- The volume without slot `i`. -/
def erase (v : Volume) (i : Nat) : Volume :=
  { v with slot := fun j => if j = i then none else v.slot j }

/-- The volume with `e` in slot `i`. -/
def insert (v : Volume) (i : Nat) (e : Entry) : Volume :=
  { v with slot := fun j => if j = i then some e else v.slot j }

theorem slot_erase {j : Nat} {f : Entry} : (v.erase i).slot j = some f ↔ j ≠ i ∧ v.slot j = some f := by
  unfold erase
  by_cases hj : j = i <;> simp [hj]

/-- Erasing an empty slot changes nothing. -/
theorem erase_none (h : v.slot i = none) : v.erase i = v := by
  unfold erase
  congr 1
  funext j
  by_cases hj : j = i
  · rw [if_pos hj, hj, h]
  · rw [if_neg hj]

/-- An entry goes away together with the marks on its blocks. -/
theorem Extents.erase (h : Extents v lo hi) (hslot : v.slot i = some e)
    (hv : v'.slot = v.slot) (hin : ∀ b, e.extent b → v'.bit b = false)
    (hout : ∀ b, ¬ e.extent b → v'.bit b = v.bit b) (hfree : v'.free = v'.clear hi) :
    Extents (v'.erase i) lo hi := by
  have hs : ∀ {j f}, (v'.erase i).slot j = some f ↔ j ≠ i ∧ v.slot j = some f := by
    intro j f
    rw [slot_erase, hv]
  refine Extents.of_bit_iff ?_ ?_ ?_ hfree
  · intro j f hj
    exact h.inside j f (hs.mp hj).2
  · intro j k f g hj hk
    exact h.disjoint j k f g (hs.mp hj).2 (hs.mp hk).2
  · intro b hb
    show v'.bit b = true ↔ _
    obtain ⟨hlo, -, -⟩ := h.inside i e hslot
    by_cases he : e.extent b
    · rw [hin b he]
      simp only [Bool.false_eq_true, false_iff]
      rintro (hlt | ⟨j, f, hj, hf⟩)
      · have := he.1
        omega
      · exact h.disjoint j i f e (hs.mp hj).2 hslot (hs.mp hj).1 b hf he
    · rw [hout b he, h.bit_iff hb]
      refine or_congr_right ⟨?_, ?_⟩
      · rintro ⟨j, f, hj, hf⟩
        refine ⟨j, f, hs.mpr ⟨?_, hj⟩, hf⟩
        rintro rfl
        rw [hslot] at hj
        exact he (Option.some.inj hj ▸ hf)
      · rintro ⟨j, f, hj, hf⟩
        exact ⟨j, f, (hs.mp hj).2, hf⟩

/-- An entry comes in on a run of clear blocks. -/
theorem Extents.insert (h : Extents v lo hi) (hslot : v.slot i = none)
    (hpos : 0 < e.block_count) (hle : e.start_block + e.block_count ≤ hi)
    (hclear : ∀ b, e.extent b → v.bit b = false) (hsize : e.size ≤ SECTOR_SIZE * e.block_count)
    (hv : v'.slot = (v.insert i e).slot) (hin : ∀ b, e.extent b → v'.bit b = true)
    (hout : ∀ b, b < hi → ¬ e.extent b → v'.bit b = v.bit b) (hfree : v'.free = v'.clear hi) :
    Extents v' lo hi := by
  have hs : ∀ {j f}, v'.slot j = some f ↔ j = i ∧ f = e ∨ j ≠ i ∧ v.slot j = some f := by
    intro j f
    rw [hv]
    unfold Volume.insert
    by_cases hj : j = i <;> simp [hj, eq_comm]
  have hfirst : e.extent e.start_block := ⟨Nat.le_refl _, by omega⟩
  -- A metadata block is marked, so the run starts at or after the data area.
  have hlo : lo ≤ e.start_block := by
    by_contra hlt
    have := (h.bit_iff (b := e.start_block) (by omega)).mpr (Or.inl (by omega))
    rw [hclear _ hfirst] at this
    cases this
  have hnew : ∀ {j f b}, v.slot j = some f → f.extent b → ¬ e.extent b := by
    intro j f b hj hf he
    obtain ⟨-, hfhi, -⟩ := h.inside j f hj
    have := (h.bit_iff (b := b) (by have := hf.2; omega)).mpr (Or.inr ⟨j, f, hj, hf⟩)
    rw [hclear b he] at this
    cases this
  refine Extents.of_bit_iff ?_ ?_ ?_ hfree
  · intro j f hj
    rcases hs.mp hj with ⟨-, rfl⟩ | ⟨-, hj'⟩
    · exact ⟨hlo, hle, hsize⟩
    · exact h.inside j f hj'
  · intro j k f g hj hk hne b hf hg
    rcases hs.mp hj with ⟨rfl, rfl⟩ | ⟨-, hj'⟩ <;> rcases hs.mp hk with ⟨rfl, rfl⟩ | ⟨-, hk'⟩
    · exact hne rfl
    · exact hnew hk' hg hf
    · exact hnew hj' hf hg
    · exact h.disjoint j k f g hj' hk' hne b hf hg
  · intro b hb
    by_cases he : e.extent b
    · rw [hin b he]
      simp only [true_iff]
      exact Or.inr ⟨i, e, hs.mpr (Or.inl ⟨rfl, rfl⟩), he⟩
    · rw [hout b hb he, h.bit_iff hb]
      refine or_congr_right ⟨?_, ?_⟩
      · rintro ⟨j, f, hj, hf⟩
        refine ⟨j, f, hs.mpr (Or.inr ⟨?_, hj⟩), hf⟩
        rintro rfl
        rw [hslot] at hj
        cases hj
      · rintro ⟨j, f, hj, hf⟩
        rcases hs.mp hj with ⟨-, rfl⟩ | ⟨-, hj'⟩
        · exact absurd hf he
        · exact ⟨j, f, hj', hf⟩

/-- Names stay distinct when a slot is emptied. -/
theorem Distinct.erase (h : v.Distinct)
    (hv : ∀ j, v'.slot j = if j = i then none else v.slot j) : v'.Distinct := by
  intro j k f g hj hk
  rw [hv] at hj hk
  split at hj
  · cases hj
  · split at hk
    · cases hk
    · exact h j k f g hj hk

/-- Names stay distinct when a slot gets a name no other slot has. -/
theorem Distinct.insert (h : v.Distinct) (hname : ∀ j f, j ≠ i → v.slot j = some f → f.name ≠ e.name)
    (hv : ∀ j, v'.slot j = if j = i then some e else v.slot j) : v'.Distinct := by
  intro j k f g hj hk hfg
  rw [hv] at hj hk
  split at hj <;> split at hk
  · rename_i hji hki
    rw [hji, hki]
  · rename_i hki
    obtain rfl := Option.some.inj hj
    exact absurd hfg.symm (hname k g hki hk)
  · rename_i hji _
    obtain rfl := Option.some.inj hk
    exact absurd hfg (hname j f hji hj)
  · exact h j k f g hj hk hfg

/-! ### How far first fit can go

The blocks in use are those of at most 64 extents.  An extent of at most `W` blocks
touches at most two of the consecutive windows of `W` blocks behind the metadata, so
of 129 windows one is entirely clear, and a first fit of at most `W` blocks never
starts behind it.
-/

theorem Extents.first_run_le (h : Extents v lo hi) {W count r : Nat} (hlo : 1 ≤ lo)
    (hslots : ∀ i e, v.slot i = some e → i < 64)
    (hcounts : ∀ i e, v.slot i = some e → e.block_count ≤ W) (hcount : count ≤ W)
    (hr : r + count ≤ hi)
    (hleast : ∀ s, 1 ≤ s → s < r → ∃ k, k < count ∧ v.bit (s + k) = true) : r ≤ lo + 128 * W := by
  by_contra hc
  have hwin : ∀ j, j ∈ Finset.range 129 → ∃ i, i < 64 ∧ ∃ e b, v.slot i = some e ∧ e.extent b ∧
      lo + j * W ≤ b ∧ b < lo + j * W + W := by
    intro j hj
    have hj' : j * W ≤ 128 * W := Nat.mul_le_mul_right W (by have := Finset.mem_range.mp hj; omega)
    obtain ⟨k, hk, hbit⟩ := hleast (lo + j * W) (by omega) (by omega)
    rcases (h.bit_iff (b := lo + j * W + k) (by omega)).mp hbit with hlt | ⟨i, e, hi', he⟩
    · omega
    · exact ⟨i, hslots i e hi', e, _, hi', he, by omega, by omega⟩
  choose! σ hσ using hwin
  have hW : 0 < W := by
    obtain ⟨k, hk, -⟩ := hleast lo hlo (by omega)
    omega
  -- Two windows of one slot are next to each other.
  have hfiber : ∀ i ∈ (Finset.range 129).image σ,
      ((Finset.range 129).filter fun j => σ j = i).card ≤ 2 := by
    intro i hi'
    obtain ⟨j₀, hj₀, rfl⟩ := Finset.mem_image.mp hi'
    obtain ⟨-, e, -, he, -⟩ := hσ j₀ hj₀
    refine Nat.le_trans (Finset.card_le_card (t := {(e.start_block - lo) / W,
      (e.start_block - lo) / W + 1}) fun j hj => ?_) Finset.card_le_two
    obtain ⟨hjr, hji⟩ := Finset.mem_filter.mp hj
    obtain ⟨-, f, b, hf, hfb, hb1, hb2⟩ := hσ j hjr
    rw [hji, he] at hf
    obtain rfl := Option.some.inj hf
    obtain ⟨hel, -, -⟩ := h.inside _ e he
    have hec := hcounts _ e he
    obtain ⟨hbl, hbh⟩ := hfb
    have hdiv : (b - lo) / W = j := by
      rw [Nat.div_eq_iff hW]
      constructor
      · omega
      · have : (j + 1) * W = j * W + W := by ring
        omega
    have h1 : (e.start_block - lo) / W ≤ j := by
      rw [← hdiv]
      exact Nat.div_le_div_right (by omega)
    have h2 : j ≤ (e.start_block - lo) / W + 1 := by
      rw [← hdiv, ← Nat.add_div_right _ hW]
      exact Nat.div_le_div_right (by omega)
    simp only [Finset.mem_insert, Finset.mem_singleton]
    omega
  have hcard := Finset.card_le_mul_card_image (f := σ) (Finset.range 129) 2 hfiber
  have himage : ((Finset.range 129).image σ).card ≤ 64 := by
    refine Nat.le_trans (Finset.card_le_card (t := Finset.range 64) fun i hi' => ?_)
      (by simp)
    obtain ⟨j, hj, rfl⟩ := Finset.mem_image.mp hi'
    exact Finset.mem_range.mpr (hσ j hj).1
  rw [Finset.card_range] at hcard
  omega

end Volume

end Eke
