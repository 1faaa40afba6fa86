/-
Four-level page tables.

A table is a page of 512 entries of 64 bits.  The walk starts at the root, on level 3, and takes
the entry for its level's nine bits of the address, until an entry maps a page: on level 0 one of
4 KiB, on levels 1 and 2 a large one if the entry says so.

`WalkedTo m root n v T` says that `T` is the table of level `n` the walk for `v` comes through.  What
an address translates to is a fact about the linked tables (`translate_iff`), so an update of one
entry is a fact about them too: linking an empty table changes no translation (`Link`), and
writing an entry of level 0 changes the translation of one page (`MapsPage`).
-/
import Eke.Lib.Bits

namespace Eke

namespace Paging

/-! ### Entries and addresses -/

/-- The page an entry points to. -/
def frame (e : BitVec 64) : Nat := (e &&& 0x000FFFFFFFFFF000#64).toNat

def present (e : BitVec 64) : Bool := e.getLsbD 0

/-- The entry maps a page itself: all do on level 0, large ones on levels 1 and 2. -/
def terminal (n : Nat) (e : BitVec 64) : Bool := n == 0 || (n == 1 || n == 2) && e.getLsbD 7

/-- The entry of a table of level `n` that serves `v`. -/
def index (n v : Nat) : Nat := v / 2 ^ (12 + 9 * n) % 512

/-- The addresses one entry of level `n` serves, numbered. -/
def block (n v : Nat) : Nat := v % 2 ^ 48 / 2 ^ (12 + 9 * n)

/-- The address of the entry for `v` in the table `T` of level `n`. -/
def slot (n v T : Nat) : Nat := T + 8 * index n v

def entryAt (m : Store) (n v T : Nat) : BitVec 64 := m.word (slot n v T)

/-- Where an entry that maps a page takes `v`. -/
def target (n : Nat) (e : BitVec 64) (v : Nat) : Nat :=
  frame e / 2 ^ (12 + 9 * n) * 2 ^ (12 + 9 * n) + v % 2 ^ (12 + 9 * n)

def canonical (v : Nat) : Prop := v < 2 ^ 47 ∨ 2 ^ 64 - 2 ^ 47 ≤ v ∧ v < 2 ^ 64

instance (v : Nat) : Decidable (canonical v) := inferInstanceAs (Decidable (_ ∨ _))

/-- The walk from a table of level `n` on. -/
def walk (m : Store) (v : Nat) : Nat → Nat → Option Nat
  | 0, T =>
    if present (entryAt m 0 v T) then some (target 0 (entryAt m 0 v T) v) else none
  | n + 1, T =>
    if present (entryAt m (n + 1) v T) = false then none
    else if terminal (n + 1) (entryAt m (n + 1) v T) then
      some (target (n + 1) (entryAt m (n + 1) v T) v)
    else walk m v n (frame (entryAt m (n + 1) v T))

def translate (m : Store) (root v : Nat) : Option Nat :=
  if canonical v then walk m v 3 root else none

theorem present_zero : present 0 = false := by decide

theorem index_lt (n v : Nat) : index n v < 512 := Nat.mod_lt _ (by decide)

/-- An address is known by the table it is in and its entry there. -/
theorem block_succ {n : Nat} (hn : n ≤ 3) (v : Nat) : block n v = 512 * block (n + 1) v + index n v := by
  have hpow : 2 ^ (12 + 9 * (n + 1)) = 2 ^ (12 + 9 * n) * 512 := by
    rw [show 12 + 9 * (n + 1) = 12 + 9 * n + 9 by omega, Nat.pow_add]
  have hidx : index n v = block n v % 512 := by
    unfold index block
    have h48 : (2 : Nat) ^ 48 = 2 ^ (12 + 9 * n) * (2 ^ (9 * (3 - n)) * 512) := by
      rw [show (512 : Nat) = 2 ^ 9 from rfl, ← Nat.pow_add, ← Nat.pow_add]
      congr 1
      omega
    rw [h48, Nat.mod_mul_right_div_self, Nat.mod_mul_left_mod]
  rw [hidx]
  unfold block
  rw [hpow, ← Nat.div_div_eq_div_mul]
  omega

theorem block_congr {n v v' : Nat} (hn : n ≤ 3) :
    block n v = block n v' ↔ block (n + 1) v = block (n + 1) v' ∧ index n v = index n v' := by
  have h := block_succ hn v
  have h' := block_succ hn v'
  have := index_lt n v
  have := index_lt n v'
  omega

theorem frame_eq (e : BitVec 64) : frame e = e.toNat % 2 ^ 52 / 2 ^ 12 * 2 ^ 12 := by
  have hmask : (0x000FFFFFFFFFF000#64).toNat = (2 ^ 40 - 1) * 2 ^ 12 := by decide
  unfold frame
  rw [BitVec.toNat_and, hmask]
  refine Nat.eq_of_testBit_eq fun i => ?_
  rw [Nat.testBit_and, Nat.testBit_mul_two_pow, Nat.testBit_two_pow_sub_one,
    Nat.testBit_mul_two_pow, Nat.testBit_div_two_pow, Nat.testBit_mod_two_pow]
  by_cases hi : 12 ≤ i
  · rw [Nat.sub_add_cancel hi, show decide (i - 12 < 40) = decide (i < 52) by
      refine decide_eq_decide.mpr ?_
      omega]
    cases decide (i < 52) <;> simp [hi]
  · simp [hi]

/-- The page of an entry put together from a page address and flags. -/
theorem frame_or {page : Nat} {flags : BitVec 64} (hpage : page % 4096 = 0) (hlt : page < 2 ^ 52)
    (hflags : flags.toNat < 4096) : frame (BitVec.ofNat 64 page ||| flags) = page := by
  have hor : 2 ^ 12 * (page / 2 ^ 12) + flags.toNat = page ||| flags.toNat := by
    rw [Nat.two_pow_add_eq_or_of_lt hflags, show 2 ^ 12 * (page / 2 ^ 12) = page by omega]
  have h64 : page % 2 ^ 64 = page := Nat.mod_eq_of_lt (by omega)
  rw [frame_eq, BitVec.toNat_or, BitVec.toNat_ofNat, h64, ← hor]
  omega

/-! ### Linked tables -/

/-- The walk for `v` comes through the table `T` on level `n`. -/
inductive WalkedTo (m : Store) (root : Nat) : Nat → Nat → Nat → Prop
  | root (v : Nat) : WalkedTo m root 3 v root
  | next {n v T : Nat} : WalkedTo m root (n + 1) v T → present (entryAt m (n + 1) v T) = true →
      terminal (n + 1) (entryAt m (n + 1) v T) = false →
      WalkedTo m root n v (frame (entryAt m (n + 1) v T))

variable {m m' : Store} {root n n' v v' T T' : Nat}

theorem WalkedTo.level (h : WalkedTo m root n v T) : n ≤ 3 := by
  induction h with
  | root v => exact Nat.le_refl 3
  | next _ _ _ ih => omega

/-- There is one table on each level. -/
theorem WalkedTo.unique (h : WalkedTo m root n v T) (h' : WalkedTo m root n v T') : T = T' := by
  induction h generalizing T' with
  | root v =>
      cases h' with
      | root => rfl
      | next hup => exact absurd hup.level (by omega)
  | next hup _ _ ih =>
      cases h' with
      | root => exact absurd hup.level (by omega)
      | next hup' => rw [ih hup']

/-- The tables above the last one have an entry that leads on. -/
theorem WalkedTo.through (h : WalkedTo m root n' v T') (h' : WalkedTo m root n v T) (hlt : n' < n) :
    present (entryAt m n v T) = true ∧ terminal n (entryAt m n v T) = false := by
  induction h with
  | root v => exact absurd h'.level (by omega)
  | @next k v S hup hpresent hleads ih =>
      by_cases hk : k + 1 = n
      · subst hk
        rw [← hup.unique h']
        exact ⟨hpresent, hleads⟩
      · exact ih h' (by omega)

theorem entryAt_congr (h : index n v = index n v') : entryAt m n v T = entryAt m n v' T := by
  unfold entryAt slot
  rw [h]

/-- Addresses that a table serves together come through it together. -/
theorem WalkedTo.congr (h : WalkedTo m root n v T) (hblock : block (n + 1) v = block (n + 1) v') :
    WalkedTo m root n v' T := by
  induction h with
  | root v => exact .root v'
  | @next k v S hup hpresent hleads ih =>
      obtain ⟨hblock', hindex⟩ := (block_congr (by have := hup.level; omega)).mp hblock
      rw [entryAt_congr hindex] at hpresent hleads ⊢
      exact .next (ih hblock') hpresent hleads

/-- The entry that maps the page of `v`. -/
structure Leaf (m : Store) (n v T a : Nat) : Prop where
  present : present (entryAt m n v T) = true
  terminal : terminal n (entryAt m n v T) = true
  target : a = target n (entryAt m n v T) v

theorem walk_iff {a : Nat} : ∀ {n T : Nat}, WalkedTo m root n v T →
    (walk m v n T = some a ↔ ∃ n' T', n' ≤ n ∧ WalkedTo m root n' v T' ∧ Leaf m n' v T' a) := by
  intro n
  induction n with
  | zero =>
      intro T h
      rw [walk]
      constructor
      · intro hw
        by_cases hp : present (entryAt m 0 v T) = true
        · rw [if_pos hp] at hw
          exact ⟨0, T, Nat.le_refl 0, h, hp, rfl, (Option.some.inj hw).symm⟩
        · rw [if_neg hp] at hw
          cases hw
      · intro hleaf
        obtain ⟨n', T', hle, h', hleaf⟩ := hleaf
        obtain rfl : n' = 0 := by omega
        obtain rfl := h.unique h'
        rw [if_pos hleaf.present, hleaf.target]
  | succ n ih =>
      intro T h
      rw [walk]
      by_cases hp : present (entryAt m (n + 1) v T) = false
      · rw [if_pos hp]
        constructor
        · intro hw
          cases hw
        · intro hleaf
          obtain ⟨n', T', hle, h', hleaf⟩ := hleaf
          by_cases hn : n' = n + 1
          · subst hn
            obtain rfl := h.unique h'
            rw [hleaf.present] at hp
            cases hp
          · rw [(h'.through h (by omega)).1] at hp
            cases hp
      rw [if_neg hp]
      have hp' := Bool.eq_true_of_not_eq_false hp
      by_cases ht : terminal (n + 1) (entryAt m (n + 1) v T) = true
      · rw [if_pos ht]
        constructor
        · intro hw
          exact ⟨n + 1, T, Nat.le_refl _, h, hp', ht, (Option.some.inj hw).symm⟩
        · intro hleaf
          obtain ⟨n', T', hle, h', hleaf⟩ := hleaf
          by_cases hn : n' = n + 1
          · subst hn
            obtain rfl := h.unique h'
            rw [hleaf.target]
          · rw [(h'.through h (by omega)).2] at ht
            cases ht
      · rw [if_neg ht]
        have ht' := Bool.eq_false_of_not_eq_true ht
        rw [ih (.next h hp' ht')]
        constructor
        · intro hleaf
          obtain ⟨n', T', hle, h', hleaf⟩ := hleaf
          exact ⟨n', T', by omega, h', hleaf⟩
        · intro hleaf
          obtain ⟨n', T', hle, h', hleaf⟩ := hleaf
          refine ⟨n', T', ?_, h', hleaf⟩
          by_contra hn
          obtain rfl : n' = n + 1 := by omega
          obtain rfl := h.unique h'
          exact ht hleaf.terminal

/-- What an address translates to, by the linked tables. -/
theorem translate_iff {a : Nat} : translate m root v = some a ↔
    canonical v ∧ ∃ n T, WalkedTo m root n v T ∧ Leaf m n v T a := by
  unfold translate
  by_cases hv : canonical v
  · rw [if_pos hv, walk_iff (.root v)]
    constructor
    · intro h
      obtain ⟨n, T, -, hlinked, hleaf⟩ := h
      exact ⟨hv, n, T, hlinked, hleaf⟩
    · intro h
      obtain ⟨-, n, T, hlinked, hleaf⟩ := h
      exact ⟨n, T, hlinked.level, hlinked, hleaf⟩
  · rw [if_neg hv]
    constructor
    · intro h
      cases h
    · intro h
      exact absurd h.1 hv

/-! ### Trees of tables -/

/-- Tables are pages, and no two of them are at one place. -/
structure Tree (m : Store) (root : Nat) : Prop where
  aligned : ∀ {n v T}, WalkedTo m root n v T → T % 4096 = 0
  apart : ∀ {n v n' v' T}, WalkedTo m root n v T → WalkedTo m root n' v' T →
    n = n' ∧ block (n + 1) v = block (n + 1) v'

/-- Entries of linked tables are the same entry or do not overlap. -/
theorem Tree.slots (h : Tree m root) (hT : WalkedTo m root n v T) (hT' : WalkedTo m root n' v' T') :
    (n = n' ∧ block n v = block n v') ∨ slot n v T + 8 ≤ slot n' v' T' ∨
      slot n' v' T' + 8 ≤ slot n v T := by
  have ha := h.aligned hT
  have ha' := h.aligned hT'
  have hi := index_lt n v
  have hi' := index_lt n' v'
  unfold slot
  by_cases hTT : T = T'
  · subst hTT
    obtain ⟨rfl, hblock⟩ := h.apart hT hT'
    by_cases hidx : index n v = index n v'
    · exact Or.inl ⟨rfl, (block_congr hT.level).mpr ⟨hblock, hidx⟩⟩
    · omega
  · omega

/-- Nothing changes while the entries of the linked tables are the same. -/
theorem linked_same (hsame : ∀ n v T, WalkedTo m root n v T → entryAt m' n v T = entryAt m n v T) :
    WalkedTo m' root n v T ↔ WalkedTo m root n v T := by
  constructor
  · intro h
    induction h with
    | root v => exact .root v
    | next _ hpresent hleads ih =>
        rw [hsame _ _ _ ih] at hpresent hleads ⊢
        exact .next ih hpresent hleads
  · intro h
    induction h with
    | root v => exact .root v
    | next hup hpresent hleads ih =>
        rw [← hsame _ _ _ hup] at hpresent hleads ⊢
        exact .next ih hpresent hleads

theorem Leaf.congr {a : Nat} (h : entryAt m' n v T = entryAt m n v T) :
    Leaf m' n v T a ↔ Leaf m n v T a := by
  constructor
  · intro hleaf
    obtain ⟨h₁, h₂, h₃⟩ := hleaf
    rw [h] at h₁ h₂ h₃
    exact ⟨h₁, h₂, h₃⟩
  · intro hleaf
    obtain ⟨h₁, h₂, h₃⟩ := hleaf
    rw [← h] at h₁ h₂ h₃
    exact ⟨h₁, h₂, h₃⟩

/-- Translations agree where the leaves do. -/
theorem translate_congr (h : ∀ a, (∃ n T, WalkedTo m' root n v T ∧ Leaf m' n v T a) ↔
    ∃ n T, WalkedTo m root n v T ∧ Leaf m n v T a) : translate m' root v = translate m root v := by
  refine Option.ext fun a => ?_
  rw [translate_iff, translate_iff, h a]

theorem translate_same (hsame : ∀ n v T, WalkedTo m root n v T → entryAt m' n v T = entryAt m n v T)
    (v : Nat) : translate m' root v = translate m root v := by
  refine translate_congr fun a => ?_
  constructor
  · intro h
    obtain ⟨n, T, hT, hleaf⟩ := h
    have hT' := (linked_same hsame).mp hT
    exact ⟨n, T, hT', (Leaf.congr (hsame n v T hT')).mp hleaf⟩
  · intro h
    obtain ⟨n, T, hT, hleaf⟩ := h
    exact ⟨n, T, (linked_same hsame).mpr hT, (Leaf.congr (hsame n v T hT)).mpr hleaf⟩

theorem Tree.same (h : Tree m root)
    (hsame : ∀ n v T, WalkedTo m root n v T → entryAt m' n v T = entryAt m n v T) : Tree m' root :=
  ⟨fun hT => h.aligned ((linked_same hsame).mp hT),
    fun hT hT' => h.apart ((linked_same hsame).mp hT) ((linked_same hsame).mp hT')⟩

/-! ### Linking an empty table -/

/-- The entry for `v` in `T`, which was absent, now leads to the empty table `F`. -/
structure Link (m m' : Store) (root n v T F : Nat) : Prop where
  linked : WalkedTo m root (n + 1) v T
  absent : present (entryAt m (n + 1) v T) = false
  present : present (entryAt m' (n + 1) v T) = true
  leads : terminal (n + 1) (entryAt m' (n + 1) v T) = false
  frame : frame (entryAt m' (n + 1) v T) = F
  empty : ∀ v', entryAt m' n v' F = 0
  same : ∀ n' v' T', WalkedTo m root n' v' T' →
    ¬ (n' = n + 1 ∧ block (n + 1) v' = block (n + 1) v) → entryAt m' n' v' T' = entryAt m n' v' T'

variable {F : Nat}

/-- An entry that is there is not the one that was absent. -/
theorem Link.unchanged (h : Link m m' root n v T F) (hT' : WalkedTo m root n' v' T')
    (hp : Paging.present (entryAt m n' v' T') = true) :
    entryAt m' n' v' T' = entryAt m n' v' T' := by
  refine h.same n' v' T' hT' fun heq => ?_
  obtain ⟨rfl, hblock⟩ := heq
  have hlevel := hT'.level
  obtain ⟨hup, hidx⟩ := (block_congr hlevel).mp hblock
  obtain rfl := h.linked.unique (hT'.congr hup)
  rw [entryAt_congr hidx, h.absent] at hp
  cases hp

theorem Link.linked_iff (h : Link m m' root n v T F) {k w S : Nat} :
    WalkedTo m' root k w S ↔
      WalkedTo m root k w S ∨ k = n ∧ block (n + 1) w = block (n + 1) v ∧ S = F := by
  have hkeep : ∀ {k w S}, WalkedTo m root k w S → WalkedTo m' root k w S := by
    intro k w S hS
    induction hS with
    | root w => exact .root w
    | next hup hpresent hleads ih =>
        have hsame := h.unchanged hup hpresent
        rw [← hsame] at hpresent hleads ⊢
        exact .next ih hpresent hleads
  constructor
  · intro hS
    induction hS with
    | root w => exact Or.inl (.root w)
    | @next k w S _ hpresent hleads ih =>
        rcases ih with hS | ⟨rfl, -, rfl⟩
        · by_cases heq : k + 1 = n + 1 ∧ block (n + 1) w = block (n + 1) v
          · obtain ⟨hk, hblock⟩ := heq
            obtain rfl : k = n := by omega
            obtain ⟨hup, hidx⟩ := (block_congr hS.level).mp hblock
            obtain rfl := h.linked.unique (hS.congr hup)
            refine Or.inr ⟨rfl, hblock, ?_⟩
            rw [entryAt_congr hidx, h.frame]
          · rw [h.same _ _ _ hS heq] at hpresent hleads ⊢
            exact Or.inl (.next hS hpresent hleads)
        · -- nothing is linked in the empty table
          rw [h.empty, present_zero] at hpresent
          cases hpresent
  · intro hS
    rcases hS with hS | ⟨rfl, hblock, rfl⟩
    · exact hkeep hS
    · have hnew := WalkedTo.next (hkeep h.linked) h.present h.leads
      rw [h.frame] at hnew
      exact hnew.congr hblock.symm

theorem Link.translate_eq (h : Link m m' root n v T F) (w : Nat) :
    translate m' root w = translate m root w := by
  refine translate_congr fun a => ?_
  constructor
  · intro hex
    obtain ⟨k, S, hS, hleaf⟩ := hex
    rcases h.linked_iff.mp hS with hS' | ⟨rfl, -, rfl⟩
    · refine ⟨k, S, hS', (Leaf.congr ?_).mp hleaf⟩
      refine h.same k w S hS' fun heq => ?_
      -- the new entry leads on, so it is no leaf
      obtain ⟨rfl, hblock⟩ := heq
      obtain ⟨hup, hidx⟩ := (block_congr hS'.level).mp hblock
      obtain rfl := h.linked.unique (hS'.congr hup)
      have hterminal := hleaf.terminal
      rw [entryAt_congr hidx, h.leads] at hterminal
      cases hterminal
    · have hpresent := hleaf.present
      rw [h.empty, present_zero] at hpresent
      cases hpresent
  · intro hex
    obtain ⟨k, S, hS, hleaf⟩ := hex
    exact ⟨k, S, h.linked_iff.mpr (Or.inl hS), (Leaf.congr (h.unchanged hS hleaf.present)).mpr hleaf⟩

theorem Link.tree (h : Link m m' root n v T F) (htree : Tree m root) (hF : F % 4096 = 0)
    (hfresh : ∀ k w, ¬ WalkedTo m root k w F) : Tree m' root := by
  refine ⟨fun {k w S} hS => ?_, fun {k w k' w' S} hS hS' => ?_⟩
  · rcases h.linked_iff.mp hS with hS | ⟨-, -, rfl⟩
    · exact htree.aligned hS
    · exact hF
  · rcases h.linked_iff.mp hS with hS | ⟨rfl, hw, rfl⟩
    · rcases h.linked_iff.mp hS' with hS' | ⟨-, -, rfl⟩
      · exact htree.apart hS hS'
      · exact absurd hS (hfresh k w)
    · rcases h.linked_iff.mp hS' with hS' | ⟨rfl, hw', -⟩
      · exact absurd hS' (hfresh k' w')
      · exact ⟨rfl, hw.trans hw'.symm⟩

/-! ### Mapping a page -/

/-- The entry of level 0 for `v` was written, and no other. -/
structure MapsPage (m m' : Store) (root v T : Nat) : Prop where
  linked : WalkedTo m root 0 v T
  present : present (entryAt m' 0 v T) = true
  same : ∀ n' v' T', WalkedTo m root n' v' T' → ¬ (n' = 0 ∧ block 0 v' = block 0 v) →
    entryAt m' n' v' T' = entryAt m n' v' T'

theorem MapsPage.linked_iff (h : MapsPage m m' root v T) {k w S : Nat} :
    WalkedTo m' root k w S ↔ WalkedTo m root k w S := by
  constructor
  · intro hS
    induction hS with
    | root w => exact .root w
    | next _ hpresent hleads ih =>
        rw [h.same _ _ _ ih fun heq => absurd heq.1 (Nat.succ_ne_zero _)] at hpresent hleads ⊢
        exact .next ih hpresent hleads
  · intro hS
    induction hS with
    | root w => exact .root w
    | next hup hpresent hleads ih =>
        rw [← h.same _ _ _ hup fun heq => absurd heq.1 (Nat.succ_ne_zero _)] at hpresent hleads ⊢
        exact .next ih hpresent hleads

theorem MapsPage.tree (h : MapsPage m m' root v T) (htree : Tree m root) : Tree m' root :=
  ⟨fun hS => htree.aligned (h.linked_iff.mp hS),
    fun hS hS' => htree.apart (h.linked_iff.mp hS) (h.linked_iff.mp hS')⟩

theorem MapsPage.translate_other (h : MapsPage m m' root v T) {w : Nat}
    (hw : block 0 w ≠ block 0 v) : translate m' root w = translate m root w := by
  refine translate_congr fun a => ?_
  constructor
  · intro hex
    obtain ⟨k, S, hS, hleaf⟩ := hex
    have hS' := h.linked_iff.mp hS
    exact ⟨k, S, hS', (Leaf.congr (h.same k w S hS' fun heq => hw heq.2)).mp hleaf⟩
  · intro hex
    obtain ⟨k, S, hS, hleaf⟩ := hex
    exact ⟨k, S, h.linked_iff.mpr hS, (Leaf.congr (h.same k w S hS fun heq => hw heq.2)).mpr hleaf⟩

end Paging

end Eke
