/-
The finished bytes.

Patching writes into the holes of the fixups and nowhere else (`emit_patched`).  Code
emitted between two points of the traversal lies outside every hole, before and after
it, so it is found unchanged in the finished bytes (`bytes_at`); a hole holds the
distance to its label (`fixup_at`).
-/
import Eke.Compiler.Emission

namespace Eke

open Gen Store

variable {g g' G : Gen} {bs : List Byte} {F : Store}

/-- The holes so far lie in the code so far. -/
structure Tidy (g : Gen) : Prop where
  code : 64 ≤ g.code_len
  hole : ∀ i, i < g.num_fixups → (g.fixups i).patch_pos + 4 ≤ g.code_len
  strHole : ∀ i, i < g.num_str_fixups → (g.str_fixups i).lea_disp_pos + 4 ≤ g.code_len

theorem Tidy.grown (ht : Tidy g) (h : Grown g g') (hl : g'.lost = false) : Tidy g' where
  code := Nat.le_trans ht.code h.len
  hole i hi := by
    rcases Nat.lt_or_ge i g.num_fixups with hlt | hge
    · rw [h.fix i hlt]
      exact Nat.le_trans (ht.hole i hlt) h.len
    · exact (h.hole hl i hge hi).2
  strHole i hi := by
    rcases Nat.lt_or_ge i g.num_str_fixups with hlt | hge
    · rw [h.strFix i hlt]
      exact Nat.le_trans (ht.strHole i hlt) h.len
    · exact (h.strHole hl i hge hi).2

/-- Four bytes at `a` and four at `b` do not meet. -/
def Apart (a b : Nat) : Prop := a + 4 ≤ b ∨ b + 4 ≤ a

/-- Where a fixup leads, if that is known. -/
def Gen.target (g : Gen) (f : Fixup) : Option Int :=
  if f.is_func_call then
    if g.find_func_offset f.func_name ≠ -1 then some (g.find_func_offset f.func_name) else none
  else if f.label_id < MAX_LABELS ∧ g.label_pos f.label_id ≠ -1 then some (g.label_pos f.label_id)
  else none

/-- `F` is the code of `G` with its holes filled, the strings starting at `start`. -/
structure Patched (G : Gen) (start : Nat) (F : Store) : Prop where
  plain : ∀ x, 64 ≤ x →
    (∀ i, i < G.num_fixups → x < (G.fixups i).patch_pos ∨ (G.fixups i).patch_pos + 4 ≤ x) →
    (∀ i, i < G.num_str_fixups →
      x < (G.str_fixups i).lea_disp_pos ∨ (G.str_fixups i).lea_disp_pos + 4 ≤ x) →
    F x = G.code_buf x
  hole : ∀ i, i < G.num_fixups → 64 ≤ (G.fixups i).patch_pos →
    (∀ j, j < G.num_fixups → j ≠ i → Apart (G.fixups j).patch_pos (G.fixups i).patch_pos) →
    (∀ j, j < G.num_str_fixups → Apart (G.str_fixups j).lea_disp_pos (G.fixups i).patch_pos) →
    ∀ t, G.target (G.fixups i) = some t →
    F.le (G.fixups i).patch_pos 4 = (rel32 t (G.fixups i).patch_pos).toNat
  lea : ∀ i, i < G.num_str_fixups → 64 ≤ (G.str_fixups i).lea_disp_pos →
    (∀ j, j < G.num_str_fixups → j ≠ i →
      Apart (G.str_fixups j).lea_disp_pos (G.str_fixups i).lea_disp_pos) →
    F.le (G.str_fixups i).lea_disp_pos 4
      = (rel32 (start + (G.str_fixups i).str_pool_offset : Nat) (G.str_fixups i).lea_disp_pos).toNat

/-! ### Reading the finished bytes -/

variable {start : Nat}

/-- Bytes emitted on the way to `G`. -/
theorem bytes_at (hF : Patched G start F) (hl : G.lost = false) (ht : Tidy g)
    (bs : List Byte) (hG : Grown (g.emit_bytes bs) G) {i : Nat} (hi : i < bs.length) :
    F (g.code_len + i) = bs[i] := by
  have hlost := hG.lost hl
  have hlen := emit_bytes_len hlost
  have hcode := ht.code
  rw [hF.plain _ (by omega), hG.buf _ (by omega), emit_bytes_at hlost hi]
  · intro j hj
    rcases Nat.lt_or_ge j g.num_fixups with hlt | hge
    · rw [hG.fix j (by simpa using hlt), emit_bytes_fixups]
      have := ht.hole j hlt
      omega
    · have := (hG.hole hl j (by simpa using hge) hj).1
      omega
  · intro j hj
    rcases Nat.lt_or_ge j g.num_str_fixups with hlt | hge
    · rw [hG.strFix j (by simpa using hlt), emit_bytes_str_fixups]
      have := ht.strHole j hlt
      omega
    · have := (hG.strHole hl j (by simpa using hge) hj).1
      omega

/-- The hole of a jump or a call whose target is known in the end. -/
theorem fixup_at {f : Fixup → Fixup} (hF : Patched G start F) (hl : G.lost = false) (ht : Tidy g)
    (hG : Grown ((g.add_fixup f).emit_u32 0) G) {t : Int}
    (htarget : G.target { f (g.fixups g.num_fixups) with patch_pos := g.code_len } = some t) :
    F.le g.code_len 4 = (rel32 t g.code_len).toNat := by
  rw [emit_u32_eq] at hG
  have hlost := hG.lost hl
  have hroom := add_fixup_room (emit_bytes_lost hlost)
  have hlen := emit_bytes_len hlost
  rw [add_fixup_len, length_leBytes] at hlen
  have hnum : (emit_bytes (leBytes 4 (0 : BitVec 32).toNat) (g.add_fixup f)).num_fixups
      = g.num_fixups + 1 := by
    rw [emit_bytes_num, hroom]
  have hfix : G.fixups g.num_fixups = { f (g.fixups g.num_fixups) with patch_pos := g.code_len } := by
    rw [hG.fix _ (by omega), emit_bytes_fixups, hroom]
    exact if_pos rfl
  have hGnum := hG.num
  have h := hF.hole g.num_fixups (by omega)
  simp only [hfix] at h
  refine h ht.code (fun j hj hne => ?_) (fun j hj => ?_) t htarget
  · rcases Nat.lt_or_ge j g.num_fixups with hlt | hge
    · rw [hG.fix j (by omega), emit_bytes_fixups, add_fixup_old hlt]
      exact Or.inl (ht.hole j hlt)
    · have := (hG.hole hl j (by omega) hj).1
      exact Or.inr (by omega)
  · rcases Nat.lt_or_ge j g.num_str_fixups with hlt | hge
    · rw [hG.strFix j (by simpa using hlt), emit_bytes_str_fixups, add_fixup_str_fixups]
      exact Or.inl (ht.strHole j hlt)
    · have := (hG.strHole hl j (by simpa using hge) hj).1
      exact Or.inr (by omega)

/-- The hole of a reference to a string that found room. -/
theorem str_fixup_at {off : Nat} (hF : Patched G start F) (hl : G.lost = false) (ht : Tidy g)
    (hG : Grown ((g.add_str_fixup off).emit_u32 0) G) (hroom : g.num_str_fixups < MAX_STR_FIXUPS) :
    F.le g.code_len 4 = (rel32 (start + off : Nat) g.code_len).toNat := by
  rw [emit_u32_eq] at hG
  have hadd : g.add_str_fixup off =
      { g with
        str_fixups := fun i => if i = g.num_str_fixups then ⟨g.code_len, off⟩ else g.str_fixups i
        num_str_fixups := g.num_str_fixups + 1 } := by
    unfold add_str_fixup
    rw [if_pos hroom]
  have hlen := emit_bytes_len (hG.lost hl)
  rw [add_str_fixup_len, length_leBytes] at hlen
  have hnum : (emit_bytes (leBytes 4 (0 : BitVec 32).toNat) (g.add_str_fixup off)).num_str_fixups
      = g.num_str_fixups + 1 := by
    rw [emit_bytes_str_num, hadd]
  have hfix : G.str_fixups g.num_str_fixups = ⟨g.code_len, off⟩ := by
    rw [hG.strFix _ (by omega), emit_bytes_str_fixups, hadd]
    exact if_pos rfl
  have hGnum := hG.strNum
  have h := hF.lea g.num_str_fixups (by omega)
  simp only [hfix] at h
  refine h ht.code fun j hj hne => ?_
  rcases Nat.lt_or_ge j g.num_str_fixups with hlt | hge
  · rw [hG.strFix j (by omega), emit_bytes_str_fixups, add_str_fixup_old hlt]
    exact Or.inl (ht.strHole j hlt)
  · have := (hG.strHole hl j (by omega) hj).1
    exact Or.inr (by omega)

/-! ### Patching -/

theorem patch_fixup_eq (i : Nat) : g.patch_fixup i =
    match g.target (g.fixups i) with
    | some t => { g with
        code_buf := g.code_buf.setLe (g.fixups i).patch_pos 4 (rel32 t (g.fixups i).patch_pos).toNat }
    | none => g := by
  unfold patch_fixup Gen.target
  simp only
  split_ifs <;> rfl

/-- What patching leaves alone: everything but the code. -/
structure Unpatched (g g' : Gen) : Prop where
  len : g'.code_len = g.code_len
  labels : g'.label_pos = g.label_pos
  fixups : g'.fixups = g.fixups
  num : g'.num_fixups = g.num_fixups
  funcs : g'.func_table = g.func_table
  strs : g'.str_fixups = g.str_fixups
  strNum : g'.num_str_fixups = g.num_str_fixups

theorem Unpatched.target (h : Unpatched g g') (f : Fixup) : g'.target f = g.target f := by
  unfold Gen.target Gen.find_func_offset
  rw [h.labels, h.funcs]

theorem Unpatched.trans {g'' : Gen} (h : Unpatched g g') (h' : Unpatched g' g'') : Unpatched g g'' :=
  ⟨h'.len.trans h.len, h'.labels.trans h.labels, h'.fixups.trans h.fixups, h'.num.trans h.num,
    h'.funcs.trans h.funcs, h'.strs.trans h.strs, h'.strNum.trans h.strNum⟩

theorem patch_fixup_unpatched (i : Nat) : Unpatched g (g.patch_fixup i) := by
  rw [patch_fixup_eq]
  split <;> exact ⟨rfl, rfl, rfl, rfl, rfl, rfl, rfl⟩

theorem patch_fixup_out {i x : Nat}
    (hx : x < (g.fixups i).patch_pos ∨ (g.fixups i).patch_pos + 4 ≤ x) :
    (g.patch_fixup i).code_buf x = g.code_buf x := by
  rw [patch_fixup_eq]
  split
  · exact setLe_out hx
  · rfl

theorem patch_fixup_hole {i : Nat} {t : Int} (ht : g.target (g.fixups i) = some t) :
    (g.patch_fixup i).code_buf.le (g.fixups i).patch_pos 4
      = (rel32 t (g.fixups i).patch_pos).toNat := by
  rw [patch_fixup_eq, ht]
  exact le_setLe_of_lt (BitVec.isLt _)

/-- What `k` rounds of patching have done to `G`. -/
structure Rounds (G : Gen) (k : Nat) (g : Gen) : Prop where
  same : Unpatched G g
  out : ∀ x, (∀ i, i < k → x < (G.fixups i).patch_pos ∨ (G.fixups i).patch_pos + 4 ≤ x) →
    g.code_buf x = G.code_buf x
  hole : ∀ i, i < k →
    (∀ j, j < G.num_fixups → j ≠ i → Apart (G.fixups j).patch_pos (G.fixups i).patch_pos) →
    ∀ t, G.target (G.fixups i) = some t →
    g.code_buf.le (G.fixups i).patch_pos 4 = (rel32 t (G.fixups i).patch_pos).toNat

theorem Rounds.step {k : Nat} (h : Rounds G k g) (hk : k < G.num_fixups) :
    Rounds G (k + 1) (g.patch_fixup k) where
  same := h.same.trans (patch_fixup_unpatched k)
  out x hx := by
    rw [patch_fixup_out (by rw [h.same.fixups]; exact hx k (Nat.lt_succ_self k))]
    exact h.out x fun i hi => hx i (Nat.lt_succ_of_lt hi)
  hole i hi hapart t ht := by
    rcases Nat.lt_succ_iff_lt_or_eq.mp hi with hlt | rfl
    · rw [← h.hole i hlt hapart t ht]
      refine le_congr fun x hx hx' => patch_fixup_out ?_
      have := hapart k hk (Nat.ne_of_gt hlt)
      unfold Apart at this
      rw [h.same.fixups]
      omega
    · have := patch_fixup_hole (g := g) (i := i) (t := t) (by rw [h.same.fixups, h.same.target, ht])
      rwa [h.same.fixups] at this

theorem patch_fixups_rounds (G : Gen) : Rounds G G.num_fixups G.patch_fixups := by
  refine loop_induct (P := Rounds G) ?_ fun i t hi h => h.step hi
  exact ⟨⟨rfl, rfl, rfl, rfl, rfl, rfl, rfl⟩, fun _ _ => rfl, fun i hi => absurd hi (Nat.not_lt_zero i)⟩

/-- What `k` rounds of patching the strings have done to `G`. -/
structure StrRounds (start : Nat) (G : Gen) (k : Nat) (g : Gen) : Prop where
  same : Unpatched G g
  out : ∀ x, (∀ i, i < k →
      x < (G.str_fixups i).lea_disp_pos ∨ (G.str_fixups i).lea_disp_pos + 4 ≤ x) →
    g.code_buf x = G.code_buf x
  hole : ∀ i, i < k →
    (∀ j, j < G.num_str_fixups → j ≠ i →
      Apart (G.str_fixups j).lea_disp_pos (G.str_fixups i).lea_disp_pos) →
    g.code_buf.le (G.str_fixups i).lea_disp_pos 4
      = (rel32 (start + (G.str_fixups i).str_pool_offset : Nat) (G.str_fixups i).lea_disp_pos).toNat

theorem StrRounds.step {k : Nat} (h : StrRounds start G k g) (hk : k < G.num_str_fixups) :
    StrRounds start G (k + 1) (g.patch_str_fixup start k) where
  same := h.same.trans ⟨rfl, rfl, rfl, rfl, rfl, rfl, rfl⟩
  out x hx := by
    have hout : (g.patch_str_fixup start k).code_buf x = g.code_buf x := by
      refine setLe_out ?_
      rw [h.same.strs]
      exact hx k (Nat.lt_succ_self k)
    rw [hout]
    exact h.out x fun i hi => hx i (Nat.lt_succ_of_lt hi)
  hole i hi hapart := by
    rcases Nat.lt_succ_iff_lt_or_eq.mp hi with hlt | rfl
    · rw [← h.hole i hlt hapart]
      refine le_congr fun x hx hx' => setLe_out ?_
      have := hapart k hk (Nat.ne_of_gt hlt)
      unfold Apart at this
      rw [h.same.strs]
      omega
    · have : (g.patch_str_fixup start i).code_buf.le (g.str_fixups i).lea_disp_pos 4
          = (rel32 (start + (g.str_fixups i).str_pool_offset : Nat)
            (g.str_fixups i).lea_disp_pos).toNat := le_setLe_of_lt (BitVec.isLt _)
      rwa [h.same.strs] at this

theorem patch_str_fixups_rounds (start : Nat) (G : Gen) :
    StrRounds start G G.num_str_fixups (G.patch_str_fixups start) := by
  refine loop_induct (P := StrRounds start G) ?_ fun i t hi h => h.step hi
  exact ⟨⟨rfl, rfl, rfl, rfl, rfl, rfl, rfl⟩, fun _ _ => rfl, fun i hi => absurd hi (Nat.not_lt_zero i)⟩

/-- The header covers the bytes before the code. -/
theorem write_header_out {mod_name : Option Name} {mod_type : BitVec 32} {x : Nat} (hx : 64 ≤ x) :
    write_header mod_name mod_type g x = g.code_buf x := by
  unfold write_header
  rw [setLe_out (by omega), setLe_out (by omega), setLe_out (by omega), setLe_out (by omega)]
  rw [if_neg (by omega), setLe_out (by omega)]

/-- Patching and the header, over the code of `G`. -/
theorem patched (G : Gen) (start : Nat) (mod_name : Option Name) (mod_type : BitVec 32) :
    Patched G start (write_header mod_name mod_type (G.patch_fixups.patch_str_fixups start)) := by
  have h := patch_fixups_rounds G
  have hs := patch_str_fixups_rounds start G.patch_fixups
  have hout := hs.out
  have hhole := hs.hole
  rw [h.same.strNum, h.same.strs] at hout hhole
  refine ⟨fun x hx hfix hsfix => ?_, fun i hi hcode hapart hsapart t ht => ?_,
    fun i hi hcode hapart => ?_⟩
  · rw [write_header_out hx, hout x hsfix]
    exact h.out x hfix
  · rw [← h.hole i hi hapart t ht]
    refine le_congr fun x hx hx' => ?_
    rw [write_header_out (by omega)]
    refine hout x fun j hj => ?_
    have := hsapart j hj
    unfold Apart at this
    omega
  · rw [← hhole i hi hapart]
    exact le_congr fun x hx hx' => write_header_out (by omega)

/-! ### The whole module -/

theorem nop_align_grown : ∀ (n : Nat) (g : Gen), Grown g (nop_align n g) := by
  intro n
  induction n with
  | zero => intro g; exact .refl
  | succ n ih =>
      intro g
      simp only [nop_align]
      split
      · exact (@emit_bytes_grown _ [0x90]).trans (ih _)
      · exact .refl

/-- The code and the strings of a module, before anything is resolved. -/
def module_code (A : Addresses) (global_table : List Node) (g : Gen) : Gen :=
  let g := nop_align 7 (emit_entries A global_table g.reset)
  g.emit_bytes g.str_pool

/-- Where the strings of a module start. -/
def string_start (A : Addresses) (global_table : List Node) (g : Gen) : Nat :=
  (nop_align 7 (emit_entries A global_table g.reset)).code_len

theorem codegen_patched (A : Addresses) (global_table : List Node) (mod_name : Option Name)
    (mod_type : BitVec 32) (g : Gen) :
    Patched (module_code A global_table g) (string_start A global_table g)
      (codegen_x86_emit A global_table mod_name mod_type g).1 ∧
    (codegen_x86_emit A global_table mod_name mod_type g).2.1
      = (module_code A global_table g).code_len := by
  refine ⟨patched _ _ mod_name mod_type, ?_⟩
  change (Gen.patch_str_fixups _ _).code_len = _
  rw [(patch_str_fixups_rounds _ _).same.len, (patch_fixups_rounds _).same.len]
  rfl

theorem reset_tidy (g : Gen) : Tidy g.reset :=
  ⟨Nat.le_refl _, fun i hi => absurd hi (Nat.not_lt_zero i),
    fun i hi => absurd hi (Nat.not_lt_zero i)⟩

end Eke
