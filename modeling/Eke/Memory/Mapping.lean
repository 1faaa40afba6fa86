/-
Mapping a page.

A call of `vmm_map_page` for an address behind the first gigabyte goes down the tables, links an
empty page where one is missing, which changes no translation, and writes one entry of level 0:
the page is mapped, every other address translates as before, and no memory changes but the
entries on the way and the pages that became tables.

For an address in the first gigabyte the entry of the page directory maps a large page, and the
function takes that page for a table: the address stays where it was mapped to, and the entry for
the new page is written into the data of the large one.
-/
import Eke.Memory.AddressSpace

namespace Eke

open Paging

namespace Vmm

variable {m m' : Store} {root n v T F : Nat} {pmm pmm' : Pmm}

/-! ### Accesses in the first gigabyte -/

theorem Space.readWord (h : Space m root) {a : Nat} (ha : a < 2 ^ 30) :
    readWord m root a = some (m.word a) := by
  unfold Vmm.readWord
  rw [h.translate_low ha]
  rfl

theorem Space.writeWord (h : Space m root) {a : Nat} (ha : a < 2 ^ 30) (w : BitVec 64) :
    writeWord m root a w = some (m.setWord a w) := by
  unfold Vmm.writeWord
  rw [h.translate_low ha]
  rfl

/-- Clearing a page that is no table: its words are zero, and nothing else changes. -/
theorem clear_table_spec (h : Space m root) (hF : F % 4096 = 0) (hlow : F < 2 ^ 30)
    (hfree : ∀ n v, ¬ WalkedTo m root n v F) : ∀ k, k ≤ 512 → ∃ m', clear_table root F k m = some m' ∧
      (∀ x, x < F ∨ F + 4096 ≤ x → m' x = m x) ∧ ∀ i, i < k → m'.word (F + 8 * i) = 0 := by
  intro k
  induction k with
  | zero => intro _; exact ⟨m, rfl, fun _ _ => rfl, fun i hi => absurd hi (Nat.not_lt_zero i)⟩
  | succ k ih =>
      intro hk
      obtain ⟨m₁, hm₁, hout, hwords⟩ := ih (by omega)
      have hspace := h.same (h.sameTables hF hfree hout)
      refine ⟨m₁.setWord (F + 8 * k) 0, ?_, fun x hx => ?_, fun i hi => ?_⟩
      · rw [clear_table, hm₁, Option.bind_some, hspace.writeWord (by omega)]
      · rw [Store.setWord_out (by omega), hout x hx]
      · by_cases hik : i = k
        · rw [hik, Store.word_setWord]
        · rw [Store.word_setWord_out (by omega), hwords i (by omega)]

/-! ### What a call adds -/

/-- No page of a table can be handed out: the search is past it, or it is in use. -/
def Fresh (m : Store) (root : Nat) (pmm : Pmm) : Prop :=
  ∀ n v T, WalkedTo m root n v T → T / 4096 < pmm.last_free_page ∨ pmm.used (T / 4096) = true

/-- The next `k` pages that are asked for are there, in the first gigabyte. -/
def Supplies : Pmm → Nat → Prop
  | _, 0 => True
  | pmm, k + 1 => (pmm.alloc_page 1).1 ≠ 0 ∧ (pmm.alloc_page 1).1 < 2 ^ 30 ∧
      Supplies (pmm.alloc_page 1).2 k

/-- How many tables are missing for `v` from a table of level `n` on. -/
def missing (m : Store) (v : Nat) : Nat → Nat → Nat
  | 0, _ => 0
  | n + 1, T =>
    if present (entryAt m (n + 1) v T) then missing m v n (frame (entryAt m (n + 1) v T)) else n + 1

/-- The byte belongs to an entry on the way to `v`. -/
def OnPath (m : Store) (root v x : Nat) : Prop :=
  ∃ n T, WalkedTo m root n v T ∧ slot n v T ≤ x ∧ x < slot n v T + 8

/-- The byte belongs to a page that was handed out. -/
def Taken (pmm pmm' : Pmm) (x : Nat) : Prop :=
  pmm.used (x / 4096) = false ∧ pmm'.used (x / 4096) = true

/-- On the way to `v` tables were added: nothing translates differently. -/
structure Extended (root v : Nat) (m : Store) (pmm : Pmm) (m' : Store) (pmm' : Pmm) : Prop where
  space : Space m' root
  fresh : Fresh m' root pmm'
  translate : ∀ w, translate m' root w = translate m root w
  linked : ∀ {n w T}, WalkedTo m root n w T → WalkedTo m' root n w T
  used : ∀ i, pmm.used i = true → pmm'.used i = true
  memory : ∀ x, ¬ OnPath m' root v x → ¬ Taken pmm pmm' x → m' x = m x

theorem Extended.refl (hs : Space m root) (hf : Fresh m root pmm) (v : Nat) :
    Extended root v m pmm m pmm :=
  ⟨hs, hf, fun _ => rfl, id, fun _ => id, fun _ _ _ => rfl⟩

theorem Extended.trans {m₁ m₂ m₃ : Store} {p₁ p₂ p₃ : Pmm} (h : Extended root v m₁ p₁ m₂ p₂)
    (h' : Extended root v m₂ p₂ m₃ p₃) : Extended root v m₁ p₁ m₃ p₃ := by
  refine ⟨h'.space, h'.fresh, fun w => (h'.translate w).trans (h.translate w),
    fun hT => h'.linked (h.linked hT), fun i hi => h'.used i (h.used i hi), fun x hx htaken => ?_⟩
  rw [h'.memory x hx fun ht => htaken ⟨?_, ht.2⟩, h.memory x (fun hpath => hx ?_) fun ht =>
    htaken ⟨ht.1, h'.used _ ht.2⟩]
  · obtain ⟨n, T, hT, hslot⟩ := hpath
    exact ⟨n, T, h'.linked hT, hslot⟩
  · refine Bool.eq_false_of_not_eq_true fun hused => ?_
    have hfalse := ht.1
    rw [h.used _ hused] at hfalse
    cases hfalse

/-- A page that is asked for and there. -/
theorem alloc_one (hne : (pmm.alloc_page 1).1 ≠ 0) :
    (pmm.alloc_page 1).1 % 4096 = 0 ∧ pmm.last_free_page ≤ (pmm.alloc_page 1).1 / 4096 ∧
      pmm.used ((pmm.alloc_page 1).1 / 4096) = false ∧
      pmm.last_free_page ≤ (pmm.alloc_page 1).2.last_free_page ∧
      ∀ i, (pmm.alloc_page 1).2.used i =
        if i = (pmm.alloc_page 1).1 / 4096 then true else pmm.used i := by
  rcases Pmm.alloc_page_spec pmm 1 with ⟨hzero, -⟩ | ⟨s, ha⟩
  · exact absurd hzero hne
  have haddr := ha.addr_eq
  have hdiv : (pmm.alloc_page 1).1 / 4096 = s := by omega
  have hhint := ha.hint
  have hhint' := ha.hint'
  refine ⟨by omega, by omega, ?_, by omega, fun i => ?_⟩
  · rw [hdiv]
    exact (ha.free 0 (by decide)).1
  · rw [hdiv, ha.marked]
    by_cases hi : i = s
    · have hin : s ≤ i ∧ i < s + (1 : Int).toNat := ⟨by omega, by omega⟩
      rw [if_pos hi, decide_eq_true hin, Bool.true_or]
    · have hout : ¬ (s ≤ i ∧ i < s + (1 : Int).toNat) := by omega
      rw [if_neg hi, decide_eq_false hout, Bool.false_or]

theorem missing_empty (h : ∀ n v, entryAt m n v F = 0) (n v : Nat) : missing m v n F = n := by
  cases n with
  | zero => rfl
  | succ n =>
      rw [missing, h, present_zero]
      rfl

/-- Writing the entry of an empty page into a table that has none for `v`. -/
theorem Space.link (h : Space m root) (hT : WalkedTo m root (n + 1) v T)
    (habsent : present (entryAt m (n + 1) v T) = false) (hF : F % 4096 = 0) (hlow : F < 2 ^ 30)
    (hfree : ∀ k w, ¬ WalkedTo m root k w F) (hempty : ∀ i, i < 512 → m.word (F + 8 * i) = 0) :
    let m' := m.setWord (slot (n + 1) v T) (BitVec.ofNat 64 F ||| PTE_P ||| PTE_W)
    Link m m' root n v T F ∧ ∀ k w, entryAt m' k w F = 0 := by
  intro m'
  have hentry : entryAt m' (n + 1) v T = BitVec.ofNat 64 F ||| 3#64 := by
    show (m.setWord (slot (n + 1) v T) _).word (slot (n + 1) v T) = _
    rw [Store.word_setWord, BitVec.or_assoc]
    rfl
  have hzero : ∀ k w, entryAt m' k w F = 0 := by
    intro k w
    have hne : T ≠ F := by
      intro heq
      rw [heq] at hT
      exact hfree _ _ hT
    have haligned := h.tree.aligned hT
    have hidx := index_lt k w
    have hidx' := index_lt (n + 1) v
    show (m.setWord (slot (n + 1) v T) _).word (slot k w F) = 0
    rw [Store.word_setWord_out (by unfold slot; omega)]
    exact hempty _ hidx
  refine ⟨⟨hT, habsent, ?_, ?_, ?_, fun w => hzero n w, fun k w S hS hnot => ?_⟩, hzero⟩
  · unfold present
    rw [hentry, entry_flag hF (by decide)]
    rfl
  · unfold terminal
    rw [hentry, entry_flag hF (by decide)]
    simp
  · rw [hentry, frame_or hF (by omega) (by decide)]
  · rcases h.tree.slots hT hS with ⟨hk, hblock⟩ | hapart
    · subst hk
      exact absurd ⟨rfl, hblock.symm⟩ hnot
    · exact Store.word_setWord_out (by omega)

theorem next_table_present (hs : Space m root) (hT : WalkedTo m root (n + 1) v T)
    (hp : present (entryAt m (n + 1) v T) = true) (pmm : Pmm) :
    next_table root m pmm T (index (n + 1) v) = some (frame (entryAt m (n + 1) v T), m, pmm) := by
  unfold next_table
  rw [show T + 8 * index (n + 1) v = slot (n + 1) v T from rfl, hs.readWord (hs.slot_lt hT),
    Option.bind_some, show m.word (slot (n + 1) v T) = entryAt m (n + 1) v T from rfl,
    if_neg (by rw [present_iff, hp]; simp)]
  rfl

/-- The next table on the way to an address behind the first gigabyte. -/
theorem next_table_spec (hs : Space m root) (hf : Fresh m root pmm) (hT : WalkedTo m root (n + 1) v T)
    (hv : 2 ^ 30 ≤ v % 2 ^ 48) (hsup : Supplies pmm (missing m v (n + 1) T)) :
    ∃ T' m' pmm', next_table root m pmm T (index (n + 1) v) = some (T', m', pmm') ∧
      Extended root v m pmm m' pmm' ∧ WalkedTo m' root n v T' ∧ Supplies pmm' (missing m' v n T') := by
  have hslot := hs.slot_lt hT
  rw [missing] at hsup
  by_cases hp : present (entryAt m (n + 1) v T) = true
  · rw [if_pos hp] at hsup
    rw [next_table_present hs hT hp]
    have hleads : terminal (n + 1) (entryAt m (n + 1) v T) = false := by
      refine Bool.eq_false_of_not_eq_true fun ht => ?_
      have hlarge := hs.large hT hp ht
      omega
    exact ⟨_, m, pmm, rfl, .refl hs hf v, .next hT hp hleads, hsup⟩
  · rw [if_neg hp] at hsup
    have habsent := Bool.eq_false_of_not_eq_true hp
    unfold next_table
    rw [show T + 8 * index (n + 1) v = slot (n + 1) v T from rfl, hs.readWord hslot, Option.bind_some,
      show m.word (slot (n + 1) v T) = entryAt m (n + 1) v T from rfl,
      if_pos ((present_iff _).mpr habsent)]
    obtain ⟨hne, hlow, hsup⟩ := hsup
    obtain ⟨hF, hahead, hfreeF, hhint, hmarked⟩ := alloc_one hne
    dsimp only
    generalize (pmm.alloc_page 1).1 = F at *
    generalize (pmm.alloc_page 1).2 = pmm' at *
    have hnew : ∀ k w, ¬ WalkedTo m root k w F := by
      intro k w hlinked
      rcases hf k w F hlinked with hbehind | hused
      · omega
      · rw [hused] at hfreeF
        cases hfreeF
    obtain ⟨m₁, hclear, hout, hwords⟩ := clear_table_spec hs hF hlow hnew 512 (Nat.le_refl 512)
    have hsame := hs.sameTables hF hnew hout
    have hs₁ := hs.same hsame
    have hT₁ := (linked_same hsame).mpr hT
    have hnew₁ : ∀ k w, ¬ WalkedTo m₁ root k w F := fun k w hl => hnew k w ((linked_same hsame).mp hl)
    obtain ⟨hlink, hzero⟩ := hs₁.link hT₁ (by rw [hsame _ _ _ hT, habsent]) hF hlow hnew₁ hwords
    rw [hclear, Option.bind_some, hs₁.writeWord hslot]
    have hmem : ∀ x, x < slot (n + 1) v T ∨ slot (n + 1) v T + 8 ≤ x →
        (m₁.setWord (slot (n + 1) v T) (BitVec.ofNat 64 F ||| PTE_P ||| PTE_W)) x = m₁ x :=
      fun x hx => Store.setWord_out hx
    generalize m₁.setWord (slot (n + 1) v T) (BitVec.ofNat 64 F ||| PTE_P ||| PTE_W) = m₂ at *
    have hold : ∀ {k w S}, WalkedTo m root k w S → WalkedTo m₂ root k w S :=
      fun hS => hlink.linked_iff.mpr (Or.inl ((linked_same hsame).mpr hS))
    refine ⟨F, m₂, pmm', rfl, ⟨Link.space hlink hs₁ hF hlow hnew₁, fun k w S hS => ?_, fun w => ?_,
      hold, fun i hi => ?_, fun x hx htaken => ?_⟩, hlink.linked_iff.mpr (Or.inr ⟨rfl, rfl, rfl⟩), ?_⟩
    · rcases hlink.linked_iff.mp hS with hS | ⟨-, -, rfl⟩
      · rcases hf k w S ((linked_same hsame).mp hS) with hbehind | hused
        · exact Or.inl (by omega)
        · exact Or.inr (by rw [hmarked, hused, ite_self])
      · exact Or.inr (by rw [hmarked, if_pos rfl])
    · rw [hlink.translate_eq, translate_same hsame]
    · rw [hmarked, hi, ite_self]
    · have hoff : ¬ (slot (n + 1) v T ≤ x ∧ x < slot (n + 1) v T + 8) :=
        fun hin => hx ⟨n + 1, T, hold hT, hin⟩
      have hpage : x / 4096 ≠ F / 4096 := by
        intro heq
        refine htaken ⟨by rw [heq, hfreeF], ?_⟩
        rw [hmarked, if_pos heq]
      rw [hmem x (by omega), hout x (by omega)]
    · rw [missing_empty hzero]
      exact hsup

/-- Writing the entry of a page. -/
theorem Space.mapsPage (h : Space m root) (hT : WalkedTo m root 0 v T) {e : BitVec 64}
    (hp : present e = true) : MapsPage m (m.setWord (slot 0 v T) e) root v T := by
  refine ⟨hT, ?_, fun k w S hS hnot => ?_⟩
  · show present ((m.setWord (slot 0 v T) e).word (slot 0 v T)) = true
    rw [Store.word_setWord, hp]
  · rcases h.tree.slots hT hS with ⟨hk, hblock⟩ | hapart
    · subst hk
      exact absurd ⟨rfl, hblock.symm⟩ hnot
    · exact Store.word_setWord_out (by omega)

/-! ### Calls -/

/-- One call of `vmm_map_page`, with the page allocator as it is then. -/
structure MapCall where
  pmm : Pmm
  virt : Nat
  phys : Nat
  flags : BitVec 64

/-- What a call is given: pages, at addresses the machine has, and the flags a caller may choose. -/
structure MapCall.Valid (c : MapCall) : Prop where
  canonical : canonical c.virt
  virt : c.virt % 4096 = 0
  phys : c.phys % 4096 = 0
  physical : c.phys < 2 ^ 52
  flags : c.flags &&& (PTE_W ||| PTE_U) = c.flags

def MapCall.run (c : MapCall) (cr3 : BitVec 64) (m : Store) : Option (Store × Pmm) :=
  vmm_map_page cr3 m c.pmm c.virt c.phys c.flags

/-- The page is behind the first gigabyte, and the pages its missing tables need are in it. -/
def MapCall.Fits (c : MapCall) (m : Store) (root : Nat) : Prop :=
  2 ^ 30 ≤ c.virt ∧ Supplies c.pmm (missing m c.virt 3 root)

/-- What a call is for: the page is mapped, every other address translates as before, and no
memory changes but the entries on the way and the pages that were handed out. -/
structure MapsOnly (c : MapCall) (root : Nat) (m m' : Store) (pmm' : Pmm) : Prop where
  maps : ∀ k, k < 4096 → translate m' root (c.virt + k) = some (c.phys + k)
  others : ∀ w, w / 4096 ≠ c.virt / 4096 → translate m' root w = translate m root w
  memory : ∀ x, ¬ OnPath m' root c.virt x → ¬ Taken c.pmm pmm' x → m' x = m x

/-- Canonical addresses are told apart by the bits the walk looks at. -/
theorem block_zero {v w : Nat} (hv : canonical v) (hw : canonical w)
    (h : block 0 w = block 0 v) : w / 4096 = v / 4096 := by
  unfold canonical at hv hw
  unfold block at h
  omega

theorem MapCall.Valid.entry {c : MapCall} (h : c.Valid) :
    present (BitVec.ofNat 64 c.phys &&& 0x000FFFFFFFFFF000#64 ||| c.flags ||| PTE_P) = true ∧
      frame (BitVec.ofNat 64 c.phys &&& 0x000FFFFFFFFFF000#64 ||| c.flags ||| PTE_P) = c.phys := by
  have hphys : BitVec.ofNat 64 c.phys &&& 0x000FFFFFFFFFF000#64 = BitVec.ofNat 64 c.phys := by
    have hframe : frame (BitVec.ofNat 64 c.phys ||| 0#64) = c.phys :=
      frame_or h.phys h.physical (by decide)
    rw [BitVec.or_zero] at hframe
    refine BitVec.eq_of_toNat_eq ?_
    have hlt := h.physical
    rw [BitVec.toNat_ofNat, Nat.mod_eq_of_lt (by omega)]
    exact hframe
  have hsmall : (c.flags ||| PTE_P).toNat < 4096 := by
    have hflags : c.flags.toNat ≤ (PTE_W ||| PTE_U).toNat := by
      rw [← h.flags, BitVec.toNat_and]
      exact Nat.and_le_right
    rw [BitVec.toNat_or]
    exact Nat.or_lt_two_pow (n := 12) (Nat.lt_of_le_of_lt hflags (by decide)) (by decide)
  rw [hphys, BitVec.or_assoc]
  constructor
  · unfold present
    rw [entry_flag h.phys (by decide), BitVec.getLsbD_or]
    simp [PTE_P]
  · exact frame_or h.phys h.physical hsmall

/-- A call that fits does what it is for, and leaves an address space. -/
theorem map_page_spec {c : MapCall} {cr3 : BitVec 64} (hroot : frame cr3 = root) (hs : Space m root)
    (hf : Fresh m root c.pmm) (hc : c.Valid) (hfits : c.Fits m root) :
    ∃ m' pmm', c.run cr3 m = some (m', pmm') ∧ MapsOnly c root m m' pmm' ∧ Space m' root := by
  have hv : 2 ^ 30 ≤ c.virt % 2 ^ 48 := by
    have hcanonical := hc.canonical
    have hlow := hfits.1
    unfold canonical at hcanonical
    omega
  obtain ⟨T₂, m₂, p₂, hnext₂, hext₂, hT₂, hsup₂⟩ := next_table_spec hs hf (.root c.virt) hv hfits.2
  obtain ⟨T₁, m₁, p₁, hnext₁, hext₁, hT₁, hsup₁⟩ :=
    next_table_spec hext₂.space hext₂.fresh hT₂ hv hsup₂
  obtain ⟨T₀, m₀, p₀, hnext₀, hext₀, hT₀, -⟩ :=
    next_table_spec hext₁.space hext₁.fresh hT₁ hv hsup₁
  have hext := (hext₂.trans hext₁).trans hext₀
  have hslot := hext.space.slot_lt hT₀
  obtain ⟨hpresent, hframe⟩ := hc.entry
  have hmap := hext.space.mapsPage hT₀ hpresent
  have hentry : entryAt (m₀.setWord (slot 0 c.virt T₀) (BitVec.ofNat 64 c.phys &&&
      0x000FFFFFFFFFF000#64 ||| c.flags ||| PTE_P)) 0 c.virt T₀ =
      BitVec.ofNat 64 c.phys &&& 0x000FFFFFFFFFF000#64 ||| c.flags ||| PTE_P := Store.word_setWord
  refine ⟨m₀.setWord (slot 0 c.virt T₀)
    (BitVec.ofNat 64 c.phys &&& 0x000FFFFFFFFFF000#64 ||| c.flags ||| PTE_P), p₀, ?_, ⟨fun k hk => ?_,
      fun w hw => ?_, fun x hx htaken => ?_⟩, MapsPage.space hmap hext.space⟩
  · have hpml4 : (cr3 &&& 0x000FFFFFFFFFF000#64).toNat = root := hroot
    unfold MapCall.run vmm_map_page
    simp only [hpml4]
    rw [index_eq (n := 3) rfl, index_eq (n := 2) rfl, index_eq (n := 1) rfl, index_eq (n := 0) rfl,
      hnext₂, Option.bind_some]
    dsimp only
    rw [hnext₁, Option.bind_some]
    dsimp only
    rw [hnext₀, Option.bind_some]
    dsimp only
    rw [show T₀ + 8 * index 0 c.virt = slot 0 c.virt T₀ from rfl, hext.space.writeWord hslot]
    rfl
  · -- the bytes of a page share its entry
    have haligned := hc.virt
    have haligned' := hc.phys
    have hcanonical := hc.canonical
    have hblock : block 0 c.virt = block 0 (c.virt + k) := by
      unfold block
      omega
    have hidx := (block_congr (Nat.zero_le 3)).mp hblock
    have hcanonical' : canonical (c.virt + k) := by
      unfold canonical at hcanonical ⊢
      omega
    refine translate_iff.mpr ⟨hcanonical', 0, T₀, (hmap.linked_iff.mpr hT₀).congr hidx.1, ?_, rfl, ?_⟩
    · rw [← entryAt_congr hidx.2]
      exact hmap.present
    · rw [← entryAt_congr hidx.2, hentry]
      unfold target
      rw [hframe]
      omega
  · by_cases hcanonical : canonical w
    · rw [hmap.translate_other fun heq => hw (block_zero hc.canonical hcanonical heq), hext.translate]
    · unfold Paging.translate
      rw [if_neg hcanonical, if_neg hcanonical]
  · have hpath : ∀ x, OnPath m₀ root c.virt x → OnPath (m₀.setWord (slot 0 c.virt T₀)
        (BitVec.ofNat 64 c.phys &&& 0x000FFFFFFFFFF000#64 ||| c.flags ||| PTE_P)) root c.virt x := by
      intro x hx
      obtain ⟨n, T, hT, hin⟩ := hx
      exact ⟨n, T, hmap.linked_iff.mpr hT, hin⟩
    have hoff : ¬ (slot 0 c.virt T₀ ≤ x ∧ x < slot 0 c.virt T₀ + 8) :=
      fun hin => hx (hpath x ⟨0, T₀, hT₀, hin⟩)
    rw [Store.setWord_out (by omega), hext.memory x (fun h => hx (hpath x h)) htaken]

/-! ### Addresses in the first gigabyte -/

/-- What a call writes for an address in the first gigabyte: an entry, into its large page. -/
theorem map_page_low {c : MapCall} {cr3 : BitVec 64} (hroot : frame cr3 = root) (hs : Space m root)
    (hlow : c.virt < 2 ^ 30) : c.run cr3 m = some
      (m.setWord (c.virt / 2 ^ 21 * 2 ^ 21 + 8 * index 0 c.virt)
        (BitVec.ofNat 64 c.phys &&& 0x000FFFFFFFFFF000#64 ||| c.flags ||| PTE_P), c.pmm) := by
  obtain ⟨T, hT, hpresent, -, hframe⟩ := hs.identity c.virt hlow
  cases hT with
  | @next _ _ T₂ hT₂ hpresent₂ hleads₂ =>
      cases hT₂ with
      | @next _ _ T₃ hT₃ hpresent₃ hleads₃ =>
          obtain rfl : T₃ = root := hT₃.unique (.root _)
          have hpml4 : (cr3 &&& 0x000FFFFFFFFFF000#64).toNat = T₃ := hroot
          unfold MapCall.run vmm_map_page
          simp only [hpml4]
          rw [index_eq (n := 3) rfl, index_eq (n := 2) rfl, index_eq (n := 1) rfl,
            index_eq (n := 0) rfl, next_table_present hs hT₃ hpresent₃, Option.bind_some]
          dsimp only
          rw [next_table_present hs (.next hT₃ hpresent₃ hleads₃) hpresent₂, Option.bind_some]
          dsimp only
          rw [next_table_present hs (.next (.next hT₃ hpresent₃ hleads₃) hpresent₂ hleads₂) hpresent,
            Option.bind_some]
          dsimp only
          have hidx := index_lt 0 c.virt
          rw [hframe, hs.writeWord (by omega)]
          rfl

/-- It changes no translation, unless the large page starts with a table. -/
theorem low_unmapped {c : MapCall} {e : BitVec 64} (hs : Space m root)
    (hdata : ∀ n v, ¬ WalkedTo m root n v (c.virt / 2 ^ 21 * 2 ^ 21)) (w : Nat) :
    translate (m.setWord (c.virt / 2 ^ 21 * 2 ^ 21 + 8 * index 0 c.virt) e) root w =
      translate m root w := by
  have hidx := index_lt 0 c.virt
  have hpage : c.virt / 2 ^ 21 * 2 ^ 21 % 4096 = 0 := by omega
  generalize c.virt / 2 ^ 21 * 2 ^ 21 = page at *
  refine translate_same (hs.sameTables hpage hdata fun x hx => Store.setWord_out ?_) w
  omega

/-- So the address is not mapped to another page. -/
theorem low_not_mapped {c : MapCall} {cr3 : BitVec 64} (hroot : frame cr3 = root) (hs : Space m root)
    (hlow : c.virt < 2 ^ 30) (hne : c.phys ≠ c.virt)
    (hdata : ∀ n v, ¬ WalkedTo m root n v (c.virt / 2 ^ 21 * 2 ^ 21)) :
    ¬ ∃ m' pmm', c.run cr3 m = some (m', pmm') ∧ MapsOnly c root m m' pmm' := by
  intro hex
  obtain ⟨m', pmm', hrun, honly⟩ := hex
  rw [map_page_low hroot hs hlow] at hrun
  obtain ⟨rfl, rfl⟩ := Prod.mk.inj (Option.some.inj hrun)
  have hmaps := honly.maps 0 (by decide)
  rw [low_unmapped hs hdata, Nat.add_zero, hs.translate_low hlow] at hmaps
  exact hne (Option.some.inj hmaps).symm

/-! ### Runs -/

/-- A call that fits, with an allocator whose pages are fresh. -/
def MapStep (cr3 : BitVec 64) (m m' : Store) : Prop :=
  ∃ c : MapCall, c.Valid ∧ Fresh m (frame cr3) c.pmm ∧ c.Fits m (frame cr3) ∧
    ∃ pmm', c.run cr3 m = some (m', pmm')

/-- The memories such calls lead to from the boot code on. -/
def Mapped (m₀ : Store) (pml4_table : Nat) : Store → Prop :=
  Relation.ReflTransGen (MapStep (BitVec.ofNat 64 pml4_table)) (boot m₀ pml4_table)

theorem frame_cr3 {pml4_table : Nat} (hpage : pml4_table % 4096 = 0) (hlow : pml4_table + 12288 ≤ 2 ^ 30) :
    frame (BitVec.ofNat 64 pml4_table) = pml4_table := by
  have hframe : frame (BitVec.ofNat 64 pml4_table ||| 0#64) = pml4_table :=
    frame_or hpage (by omega) (by decide)
  rwa [BitVec.or_zero] at hframe

theorem Mapped.space {m₀ : Store} {pml4_table : Nat} (hload : Loaded m₀ pml4_table)
    (h : Mapped m₀ pml4_table m) : Space m pml4_table := by
  have hcr3 := frame_cr3 hload.aligned hload.low
  induction h with
  | refl => exact (boot_booted hload.low hload.zero).space hload.aligned hload.low
  | tail _ hstep ih =>
      obtain ⟨c, hc, hf, hfits, pmm', hrun⟩ := hstep
      rw [hcr3] at hf hfits
      obtain ⟨m', p', hrun', -, hspace⟩ := map_page_spec hcr3 ih hf hc hfits
      rw [hrun] at hrun'
      obtain ⟨rfl, rfl⟩ := Prod.mk.inj (Option.some.inj hrun')
      exact hspace

/-- **Mapping.**  In every run of calls that fit, each call maps its page and nothing else.  A call
for an address of the first gigabyte never maps it to another page, unless what it overwrites at
the start of the large page is a table. -/
theorem mapping_exact (m₀ : Store) (pml4_table : Nat) (hload : Loaded m₀ pml4_table) (m : Store)
    (hm : Mapped m₀ pml4_table m) (c : MapCall) (hc : c.Valid) (hf : Fresh m pml4_table c.pmm) :
    (c.Fits m pml4_table → ∃ m' pmm', c.run (BitVec.ofNat 64 pml4_table) m = some (m', pmm') ∧
      MapsOnly c pml4_table m m' pmm') ∧
    (c.virt < 2 ^ 30 → c.phys ≠ c.virt →
      (∀ n v, ¬ WalkedTo m pml4_table n v (c.virt / 2 ^ 21 * 2 ^ 21)) →
      ¬ ∃ m' pmm', c.run (BitVec.ofNat 64 pml4_table) m = some (m', pmm') ∧
        MapsOnly c pml4_table m m' pmm') := by
  have hspace := hm.space hload
  have hcr3 := frame_cr3 hload.aligned hload.low
  constructor
  · intro hfits
    obtain ⟨m', pmm', hrun, honly, -⟩ := map_page_spec hcr3 hspace hf hc hfits
    exact ⟨m', pmm', hrun, honly⟩
  · intro hlow hne hdata
    exact low_not_mapped hcr3 hspace hlow hne hdata

/-- Free pages behind the hint are supplied. -/
theorem supplies_of_free : ∀ k (pmm : Pmm), 0 < pmm.last_free_page → pmm.last_free_page + k ≤ 2 ^ 18 →
    (∀ i, pmm.last_free_page ≤ i → pmm.used i = false) → Supplies pmm k := by
  intro k
  induction k with
  | zero => intro pmm _ _ _; trivial
  | succ k ih =>
      intro pmm hpos hend hfree
      have hmax : MAX_PAGES = 2 ^ 20 := rfl
      have hrun : Pmm.FreeRun pmm 1 pmm.last_free_page :=
        Pmm.freeRun_one (hfree _ (Nat.le_refl _)) (by omega)
      have halloc := Pmm.alloc_page_eq (by decide) (Finds.here (by omega) hrun)
      rw [Supplies, halloc]
      refine ⟨?_, ?_, ih _ (Nat.succ_pos _) ?_ fun i hi => ?_⟩
      · show pmm.last_free_page * 4096 ≠ 0
        omega
      · show pmm.last_free_page * 4096 < 2 ^ 30
        omega
      · show pmm.last_free_page + 1 + k ≤ 2 ^ 18
        omega
      · have hi' : pmm.last_free_page + 1 ≤ i := hi
        have hout : ¬ (pmm.last_free_page ≤ i ∧ i < pmm.last_free_page + 1) := by omega
        show (Pmm.mark pmm pmm.last_free_page 1).used i = false
        rw [Pmm.used_mark, decide_eq_false hout, Bool.false_or, hfree i (by omega)]

/-- A kernel with its tables at 1 MiB + 4 KiB that ends at 1 MiB + 64 KiB. -/
theorem loaded_zero : Loaded (fun _ => 0) 0x101000 := ⟨by decide, by decide, fun _ _ _ => rfl⟩

theorem booted_zero : Booted (boot (fun _ => 0) 0x101000) 0x101000 :=
  boot_booted loaded_zero.low loaded_zero.zero

theorem tables_zero {n v T : Nat} (hT : WalkedTo (boot (fun _ => 0) 0x101000) 0x101000 n v T) :
    0x101000 ≤ T ∧ T < 0x104000 := by
  have htables := (booted_zero.linked_iff loaded_zero.aligned loaded_zero.low).mp hT
  omega

theorem fresh_zero : Fresh (boot (fun _ => 0) 0x101000) 0x101000 (Pmm.init_pmm 0x110000) := by
  intro n v T hT
  have htables := tables_zero hT
  refine Or.inl ?_
  show T / 4096 < (0x110000 + 4095) / 4096
  omega

/-- Its first call maps the page behind the first gigabyte to the one at 2 MiB. -/
def firstCall : MapCall := ⟨Pmm.init_pmm 0x110000, 2 ^ 30, 0x200000, PTE_W⟩

theorem firstCall_valid : firstCall.Valid :=
  ⟨Or.inl (by decide), by decide, by decide, by decide, by decide⟩

theorem firstCall_fits : firstCall.Fits (boot (fun _ => 0) 0x101000) 0x101000 := by
  refine ⟨by decide, ?_⟩
  have hmissing : missing (boot (fun _ => 0) 0x101000) firstCall.virt 3 0x101000 = 2 := by
    have hpml4 := booted_zero.pml4_entry firstCall.virt
    have hpdpt := booted_zero.pdpt_entry firstCall.virt
    rw [if_pos (by decide)] at hpml4
    rw [if_neg (by decide)] at hpdpt
    rw [missing, hpml4, if_pos (by decide), frame_or (by decide) (by decide) (by decide), missing,
      hpdpt, if_neg (by decide)]
  rw [hmissing]
  refine supplies_of_free 2 _ (by decide) (by decide) fun i hi => ?_
  have hword : ¬ i / 64 < 272 / 64 := by
    have hi' : 272 ≤ i := hi
    omega
  show BitVec.getLsbD (if i / 64 < 272 / 64 then BitVec.allOnes 64 else 0) (i % 64) = false
  rw [if_neg hword]
  simp

theorem mapping_exact_first : ∃ m' pmm',
    firstCall.run (BitVec.ofNat 64 0x101000) (boot (fun _ => 0) 0x101000) = some (m', pmm') ∧
      MapsOnly firstCall 0x101000 (boot (fun _ => 0) 0x101000) m' pmm' :=
  (mapping_exact (fun _ => 0) 0x101000 loaded_zero _ .refl firstCall firstCall_valid fresh_zero).1
    firstCall_fits

/-- A first call that asks for the page at 2 MiB to be mapped to the one at 3 MiB leaves it where
it is, and writes the entry over its first word. -/
theorem low_page_kept :
    let m := boot (fun _ => 0) 0x101000
    let c : MapCall := ⟨Pmm.init_pmm 0x110000, 0x200000, 0x300000, PTE_W⟩
    c.Valid ∧ Fresh m 0x101000 c.pmm ∧
      (∃ m', c.run (BitVec.ofNat 64 0x101000) m = some (m', c.pmm) ∧
        translate m' 0x101000 0x200000 = some 0x200000 ∧ m'.word 0x200000 = 0x300003#64) ∧
      ¬ ∃ m' pmm', c.run (BitVec.ofNat 64 0x101000) m = some (m', pmm') ∧
        MapsOnly c 0x101000 m m' pmm' := by
  intro m c
  have hcr3 := frame_cr3 loaded_zero.aligned loaded_zero.low
  have hspace : Space m 0x101000 := booted_zero.space loaded_zero.aligned loaded_zero.low
  have hdata : ∀ n v, ¬ WalkedTo m 0x101000 n v (c.virt / 2 ^ 21 * 2 ^ 21) :=
    fun n v hT => absurd (tables_zero hT) (by decide)
  have hlow : c.virt < 2 ^ 30 := by decide
  have haddr : c.virt / 2 ^ 21 * 2 ^ 21 + 8 * index 0 c.virt = 0x200000 := by decide
  have hentry : BitVec.ofNat 64 c.phys &&& 0x000FFFFFFFFFF000#64 ||| c.flags ||| PTE_P = 0x300003#64 := by
    decide
  have hrun := map_page_low hcr3 hspace hlow
  have hkept := low_unmapped (e := 0x300003#64) hspace hdata 0x200000
  rw [haddr, hentry] at hrun
  rw [haddr, hspace.translate_low (by decide)] at hkept
  exact ⟨⟨Or.inl (by decide), by decide, by decide, by decide, by decide⟩, fresh_zero,
    ⟨_, hrun, hkept, Store.word_setWord⟩, low_not_mapped hcr3 hspace hlow (by decide) hdata⟩

end Vmm

end Eke
