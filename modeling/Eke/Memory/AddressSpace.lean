/-
The kernel's address space.

`Space` is what it keeps: the tables are pages of the first gigabyte, the first gigabyte is mapped
to itself with large pages, and there are no other large pages.  The tables the boot code builds
are such a space, and it stays one where an empty table is linked or a page is mapped.
-/
import Eke.Memory.Vmm

namespace Eke

open Paging

namespace Vmm

variable {m m' : Store} {root n v T F : Nat}

/-! ### The address space -/

structure Space (m : Store) (root : Nat) : Prop where
  tree : Tree m root
  low : ∀ {n v T}, WalkedTo m root n v T → T < 2 ^ 30
  identity : ∀ v, v < 2 ^ 30 → ∃ T, WalkedTo m root 1 v T ∧ present (entryAt m 1 v T) = true ∧
    terminal 1 (entryAt m 1 v T) = true ∧ frame (entryAt m 1 v T) = v / 2 ^ 21 * 2 ^ 21
  large : ∀ {n v T}, WalkedTo m root (n + 1) v T → present (entryAt m (n + 1) v T) = true →
    terminal (n + 1) (entryAt m (n + 1) v T) = true → v % 2 ^ 48 < 2 ^ 30

/-- The first gigabyte is mapped to itself. -/
theorem Space.translate_low (h : Space m root) {a : Nat} (ha : a < 2 ^ 30) :
    translate m root a = some a := by
  obtain ⟨T, hT, hpresent, hterminal, hframe⟩ := h.identity a ha
  refine translate_iff.mpr ⟨Or.inl (by omega), 1, T, hT, hpresent, hterminal, ?_⟩
  unfold target
  rw [hframe]
  omega

theorem Space.slot_lt (h : Space m root) (hT : WalkedTo m root n v T) : slot n v T < 2 ^ 30 := by
  have haligned := h.tree.aligned hT
  have hlow := h.low hT
  have hindex := index_lt n v
  unfold slot
  omega

/-- The entries of the linked tables are the same. -/
def SameTables (m m' : Store) (root : Nat) : Prop :=
  ∀ n v T, WalkedTo m root n v T → entryAt m' n v T = entryAt m n v T

theorem Space.same (h : Space m root) (hsame : SameTables m m' root) : Space m' root := by
  refine ⟨h.tree.same hsame, fun hT => h.low ((linked_same hsame).mp hT), fun v hv => ?_,
    fun {n v T} hT hpresent hterminal => ?_⟩
  · obtain ⟨T, hT, hentry⟩ := h.identity v hv
    rw [← hsame 1 v T hT] at hentry
    exact ⟨T, (linked_same hsame).mpr hT, hentry⟩
  · have hT' := (linked_same hsame).mp hT
    rw [hsame _ _ _ hT'] at hpresent hterminal
    exact h.large hT' hpresent hterminal

/-- Writing to a page that is no table leaves the tables alone. -/
theorem Space.sameTables (h : Space m root) (hF : F % 4096 = 0) (hfree : ∀ n v, ¬ WalkedTo m root n v F)
    (hm : ∀ x, x < F ∨ F + 4096 ≤ x → m' x = m x) : SameTables m m' root := by
  intro n v T hT
  have haligned := h.tree.aligned hT
  have hindex := index_lt n v
  have hne : T ≠ F := by
    intro heq
    rw [heq] at hT
    exact hfree n v hT
  unfold entryAt slot
  refine Store.word_congr fun k hk => hm _ ?_
  omega

theorem Link.space (h : Link m m' root n v T F) (hs : Space m root) (hF : F % 4096 = 0)
    (hlow : F < 2 ^ 30) (hfree : ∀ k w, ¬ WalkedTo m root k w F) : Space m' root := by
  refine ⟨h.tree hs.tree hF hfree, fun {k w S} hS => ?_, fun w hw => ?_,
    fun {k w S} hS hpresent hterminal => ?_⟩
  · rcases h.linked_iff.mp hS with hS | ⟨-, -, rfl⟩
    · exact hs.low hS
    · exact hlow
  · obtain ⟨S, hS, hentry⟩ := hs.identity w hw
    rw [← h.unchanged hS hentry.1] at hentry
    exact ⟨S, h.linked_iff.mpr (Or.inl hS), hentry⟩
  · rcases h.linked_iff.mp hS with hS | ⟨rfl, -, rfl⟩
    · by_cases hnew : k + 1 = n + 1 ∧ block (n + 1) w = block (n + 1) v
      · -- the new entry leads to the next table
        obtain ⟨hk, hblock⟩ := hnew
        obtain rfl : k = n := by omega
        obtain ⟨hup, hidx⟩ := (block_congr hS.level).mp hblock
        obtain rfl := h.linked.unique (hS.congr hup)
        rw [entryAt_congr hidx, h.leads] at hterminal
        cases hterminal
      · rw [h.same _ _ _ hS hnew] at hpresent hterminal
        exact hs.large hS hpresent hterminal
    · rw [h.empty, present_zero] at hpresent
      cases hpresent

theorem MapsPage.space (h : MapsPage m m' root v T) (hs : Space m root) : Space m' root := by
  have hup : ∀ {k w S}, WalkedTo m root (k + 1) w S →
      entryAt m' (k + 1) w S = entryAt m (k + 1) w S :=
    fun hS => h.same _ _ _ hS fun heq => absurd heq.1 (Nat.succ_ne_zero _)
  refine ⟨h.tree hs.tree, fun hS => hs.low (h.linked_iff.mp hS), fun w hw => ?_,
    fun {k w S} hS hpresent hterminal => ?_⟩
  · obtain ⟨S, hS, hentry⟩ := hs.identity w hw
    rw [← hup hS] at hentry
    exact ⟨S, h.linked_iff.mpr hS, hentry⟩
  · have hS' := h.linked_iff.mp hS
    rw [hup hS'] at hpresent hterminal
    exact hs.large hS' hpresent hterminal

/-! ### The boot tables -/

/-- The .bss the tables of the boot code are in: pages of the first gigabyte, zero when loaded. -/
structure Loaded (m : Store) (pml4_table : Nat) : Prop where
  aligned : pml4_table % 4096 = 0
  low : pml4_table + 12288 ≤ 2 ^ 30
  zero : ∀ x, pml4_table ≤ x → x < pml4_table + 12288 → m x = 0

/-- What `boot` leaves in the three tables. -/
structure Booted (m : Store) (root : Nat) : Prop where
  pml4 : ∀ i, i < 512 →
    m.word (root + 8 * i) = if i = 0 then BitVec.ofNat 64 (root + 4096) ||| 3#64 else 0
  pdpt : ∀ i, i < 512 →
    m.word (root + 4096 + 8 * i) = if i = 0 then BitVec.ofNat 64 (root + 8192) ||| 3#64 else 0
  pd : ∀ i, i < 512 → m.word (root + 8192 + 8 * i) = BitVec.ofNat 64 (i * 2 ^ 21) ||| 0x83#64

/-- The `.fill_pd` loop after `k` rounds. -/
theorem fill_pd (m : Store) (pd : Nat) (k : Nat) (hk : k ≤ 512) :
    let m' := loop (fun ecx m =>
      (m.setLe (pd + 8 * ecx) 4 (ecx <<< 21 ||| 0x83)).setLe (pd + 8 * ecx + 4) 4 0) k m
    (∀ x, x < pd → m' x = m x) ∧
      ∀ i, i < k → m'.word (pd + 8 * i) = BitVec.ofNat 64 (i * 2 ^ 21) ||| 0x83 := by
  intro m'
  refine loop_induct (P := fun k (m' : Store) => k ≤ 512 → (∀ x, x < pd → m' x = m x) ∧
    ∀ i, i < k → m'.word (pd + 8 * i) = BitVec.ofNat 64 (i * 2 ^ 21) ||| 0x83#64) ?_ ?_ hk
  · intro _
    exact ⟨fun x _ => rfl, fun i hi => absurd hi (Nat.not_lt_zero i)⟩
  · intro j m₁ _ ih hj
    obtain ⟨hout, hwords⟩ := ih (by omega)
    refine ⟨fun x hx => ?_, fun i hi => ?_⟩
    · rw [Store.setLe_out (by omega), Store.setLe_out (by omega), hout x hx]
    · by_cases hij : i = j
      · subst hij
        have hbits : i <<< 21 ||| 0x83 < 256 ^ 4 := by
          rw [Nat.shiftLeft_eq]
          exact Nat.lt_of_lt_of_le (Nat.or_lt_two_pow (n := 30) (by omega) (by decide)) (by decide)
        rw [Store.word_of_half (Store.le_setLe_of_lt (by decide)), Store.le_setLe_out (by omega),
          Store.le_setLe_of_lt hbits, Nat.shiftLeft_eq, BitVec.ofNat_or]
      · rw [← hwords i (by omega)]
        refine Store.word_congr fun b hb => ?_
        rw [Store.setLe_out (by omega), Store.setLe_out (by omega)]

/-- A table of which only the lower half of the first entry was written. -/
theorem first_entry {page e : Nat} (hle : m.le page 4 = e)
    (hzero : ∀ x, page + 4 ≤ x → x < page + 4096 → m x = 0) :
    ∀ i, i < 512 → m.word (page + 8 * i) = if i = 0 then BitVec.ofNat 64 e else 0 := by
  intro i hi
  have hhigh : m.le (page + 8 * i + 4) 4 = 0 := Store.le_zero fun x hx hx' => hzero x (by omega) (by omega)
  rw [Store.word_of_half hhigh]
  by_cases hi0 : i = 0
  · rw [if_pos hi0, hi0, Nat.mul_zero, Nat.add_zero, hle]
  · rw [if_neg hi0, Store.le_zero fun x hx hx' => hzero x (by omega) (by omega)]
    rfl

/-- The tables as `boot` leaves them, in a .bss that was zero and below 1 GiB. -/
theorem boot_booted (hlow : root + 12288 ≤ 2 ^ 30)
    (hzero : ∀ x, root ≤ x → x < root + 12288 → m x = 0) : Booted (boot m root) root := by
  obtain ⟨hfilled, hpd⟩ := fill_pd ((m.setLe root 4 (root + 4096 ||| 0x03)).setLe (root + 4096) 4
    (root + 8192 ||| 0x03)) (root + 8192) 512 (Nat.le_refl 512)
  have hout : ∀ x, x < root + 8192 → boot m root x =
      ((m.setLe root 4 (root + 4096 ||| 0x03)).setLe (root + 4096) 4 (root + 8192 ||| 0x03)) x := hfilled
  have hbits : ∀ page, page ≤ 2 ^ 30 → page ||| 0x03 < 256 ^ 4 := fun page hpage =>
    Nat.or_lt_two_pow (n := 32) (by omega) (by decide)
  refine ⟨?_, ?_, hpd⟩
  · intro i hi
    rw [← BitVec.ofNat_or]
    refine first_entry ?_ (fun x hx hx' => ?_) i hi
    · rw [Store.le_congr fun x _ _ => hout x (by omega), Store.le_setLe_out (by omega),
        Store.le_setLe_of_lt (hbits _ (by omega))]
    · rw [hout x (by omega), Store.setLe_out (by omega),
        Store.setLe_out (by omega), hzero x (by omega) (by omega)]
  · intro i hi
    rw [← BitVec.ofNat_or]
    refine first_entry ?_ (fun x hx hx' => ?_) i hi
    · rw [Store.le_congr fun x _ _ => hout x (by omega), Store.le_setLe_of_lt (hbits _ (by omega))]
    · rw [hout x (by omega), Store.setLe_out (by omega),
        Store.setLe_out (by omega), hzero x (by omega) (by omega)]

theorem Booted.pml4_entry (h : Booted m root) (v : Nat) :
    entryAt m 3 v root = if index 3 v = 0 then BitVec.ofNat 64 (root + 4096) ||| 3#64 else 0 :=
  h.pml4 _ (index_lt 3 v)

theorem Booted.pdpt_entry (h : Booted m root) (v : Nat) :
    entryAt m 2 v (root + 4096) =
      if index 2 v = 0 then BitVec.ofNat 64 (root + 8192) ||| 3#64 else 0 :=
  h.pdpt _ (index_lt 2 v)

theorem Booted.pd_entry (h : Booted m root) (v : Nat) :
    entryAt m 1 v (root + 8192) = BitVec.ofNat 64 (index 1 v * 2 ^ 21) ||| 0x83#64 :=
  h.pd _ (index_lt 1 v)

theorem block_four (v : Nat) : block 4 v = 0 := by
  unfold block
  omega

/-- The tables of the boot code, by level. -/
theorem Booted.linked_iff (h : Booted m root) (hpage : root % 4096 = 0) (hlow : root + 12288 ≤ 2 ^ 30) :
    WalkedTo m root n v T ↔ n = 3 ∧ T = root ∨ n = 2 ∧ block 3 v = 0 ∧ T = root + 4096 ∨
      n = 1 ∧ block 2 v = 0 ∧ T = root + 8192 := by
  have h₃ : ∀ v, block 3 v = index 3 v := by
    intro v
    rw [block_succ (by decide), block_four, Nat.mul_zero, Nat.zero_add]
  have h₂ : ∀ v, block 2 v = 512 * block 3 v + index 2 v := block_succ (by decide)
  have hframe : ∀ {page}, page % 4096 = 0 → page < 2 ^ 30 →
      frame (BitVec.ofNat 64 page ||| 3#64) = page :=
    fun hp hlt => frame_or hp (by omega) (by decide)
  have hflag : ∀ {page i}, page % 4096 = 0 → i < 12 →
      (BitVec.ofNat 64 page ||| 3#64).getLsbD i = (3#64).getLsbD i := fun hp hi => entry_flag hp hi
  constructor
  · intro hT
    induction hT with
    | root v => exact Or.inl ⟨rfl, rfl⟩
    | @next k v S _ hpresent hleads ih =>
        rcases ih with ⟨hk, rfl⟩ | ⟨hk, hblock, rfl⟩ | ⟨hk, -, rfl⟩
        · obtain rfl : k = 2 := by omega
          rw [h.pml4_entry] at hpresent ⊢
          by_cases hidx : index 3 v = 0
          · rw [if_pos hidx, hframe (by omega) (by omega)]
            exact Or.inr (Or.inl ⟨rfl, by rw [h₃, hidx], rfl⟩)
          · rw [if_neg hidx, present_zero] at hpresent
            cases hpresent
        · obtain rfl : k = 1 := by omega
          rw [h.pdpt_entry] at hpresent ⊢
          by_cases hidx : index 2 v = 0
          · rw [if_pos hidx, hframe (by omega) (by omega)]
            exact Or.inr (Or.inr ⟨rfl, by rw [h₂, hblock, hidx], rfl⟩)
          · rw [if_neg hidx, present_zero] at hpresent
            cases hpresent
        · -- the entries of the page directory map large pages
          obtain rfl : k = 0 := by omega
          rw [h.pd_entry] at hleads
          unfold terminal at hleads
          rw [entry_flag (by omega) (by decide)] at hleads
          cases hleads
  · intro hT
    have hdown : ∀ v, block 3 v = 0 → WalkedTo m root 2 v (root + 4096) := by
      intro v hblock
      have hentry := h.pml4_entry v
      rw [if_pos (by rw [← h₃, hblock])] at hentry
      have hnext : WalkedTo m root 2 v (frame (entryAt m 3 v root)) := by
        refine .next (.root v) ?_ ?_
        · unfold present
          rw [hentry, hflag (by omega) (by decide)]
          rfl
        · rfl
      rwa [hentry, hframe (by omega) (by omega)] at hnext
    rcases hT with ⟨rfl, rfl⟩ | ⟨rfl, hblock, rfl⟩ | ⟨rfl, hblock, rfl⟩
    · exact .root v
    · exact hdown v hblock
    · have hup := h₂ v
      have hentry := h.pdpt_entry v
      rw [if_pos (by omega)] at hentry
      have hnext : WalkedTo m root 1 v (frame (entryAt m 2 v (root + 4096))) := by
        refine .next (hdown v (by omega)) ?_ ?_
        · unfold present
          rw [hentry, hflag (by omega) (by decide)]
          rfl
        · unfold terminal
          rw [hentry, hflag (by omega) (by decide)]
          rfl
      rwa [hentry, hframe (by omega) (by omega)] at hnext

theorem Booted.space (h : Booted m root) (hpage : root % 4096 = 0) (hlow : root + 12288 ≤ 2 ^ 30) :
    Space m root := by
  have hiff := fun {n v T} => h.linked_iff (n := n) (v := v) (T := T) hpage hlow
  refine ⟨⟨fun hT => ?_, fun {n v n' v' T} hT hT' => ?_⟩, fun hT => ?_, fun v hv => ?_,
    fun {n v T} hT _ hterminal => ?_⟩
  · have := hiff.mp hT
    omega
  · rcases hiff.mp hT with ⟨rfl, rfl⟩ | ⟨rfl, hb, rfl⟩ | ⟨rfl, hb, rfl⟩
    · obtain ⟨rfl, -⟩ | ⟨-, -, heq⟩ | ⟨-, -, heq⟩ := hiff.mp hT'
      · exact ⟨rfl, (block_four v).trans (block_four v').symm⟩
      · omega
      · omega
    · obtain ⟨-, heq⟩ | ⟨rfl, hb', -⟩ | ⟨-, -, heq⟩ := hiff.mp hT'
      · omega
      · exact ⟨rfl, hb.trans hb'.symm⟩
      · omega
    · obtain ⟨-, heq⟩ | ⟨-, -, heq⟩ | ⟨rfl, hb', -⟩ := hiff.mp hT'
      · omega
      · omega
      · exact ⟨rfl, hb.trans hb'.symm⟩
  · have := hiff.mp hT
    omega
  · have hblock : block 2 v = 0 := by
      unfold block
      omega
    refine ⟨root + 8192, hiff.mpr (Or.inr (Or.inr ⟨rfl, hblock, rfl⟩)), ?_, ?_, ?_⟩
    · unfold present
      rw [h.pd_entry, entry_flag (by omega) (by decide)]
      rfl
    · unfold terminal
      rw [h.pd_entry, entry_flag (by omega) (by decide)]
      rfl
    · have hidx := index_lt 1 v
      rw [h.pd_entry, frame_or (by omega) (by omega) (by decide)]
      unfold index
      omega
  · obtain ⟨hn, rfl⟩ | ⟨hn, -, rfl⟩ | ⟨hn, hblock, rfl⟩ := hiff.mp hT
    · obtain rfl : n = 2 := by omega
      cases hterminal
    · obtain rfl : n = 1 := by omega
      unfold terminal at hterminal
      rw [h.pdpt_entry] at hterminal
      by_cases hidx : index 2 v = 0
      · rw [if_pos hidx, entry_flag (by omega) (by decide)] at hterminal
        cases hterminal
      · rw [if_neg hidx] at hterminal
        cases hterminal
    · unfold block at hblock
      omega

end Vmm

end Eke
