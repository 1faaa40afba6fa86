/-
What emitting code leaves alone.

Emitting only appends: the code and the fixups there were before stay (`Grown`).  A
fixup's hole, the four bytes it patches, lies in the code emitted since, so no later
fixup touches earlier code.
-/
import Eke.Compiler.Codegen
import Eke.Lib.X86

namespace Eke

open Gen Store

variable {g g' g'' : Gen} {bs cs : List Byte}

/-! ### Emitting bytes -/

/-- A part of the state that one byte leaves alone is left alone by any number. -/
theorem emit_bytes_keeps {α : Type} (part : Gen → α)
    (h : ∀ b (g : Gen), part (g.emit_byte b) = part g) : part (g.emit_bytes bs) = part g := by
  induction bs generalizing g with
  | nil => rfl
  | cons b bs ih => exact (ih (g := g.emit_byte b)).trans (h b g)

section

variable (g bs)

@[simp] theorem emit_bytes_label_pos : (g.emit_bytes bs).label_pos = g.label_pos :=
  emit_bytes_keeps Gen.label_pos fun b g => by unfold emit_byte; split <;> rfl

@[simp] theorem emit_bytes_next : (g.emit_bytes bs).next_label_id = g.next_label_id :=
  emit_bytes_keeps Gen.next_label_id fun b g => by unfold emit_byte; split <;> rfl

@[simp] theorem emit_bytes_fixups : (g.emit_bytes bs).fixups = g.fixups :=
  emit_bytes_keeps Gen.fixups fun b g => by unfold emit_byte; split <;> rfl

@[simp] theorem emit_bytes_num : (g.emit_bytes bs).num_fixups = g.num_fixups :=
  emit_bytes_keeps Gen.num_fixups fun b g => by unfold emit_byte; split <;> rfl

@[simp] theorem emit_bytes_str_fixups : (g.emit_bytes bs).str_fixups = g.str_fixups :=
  emit_bytes_keeps Gen.str_fixups fun b g => by unfold emit_byte; split <;> rfl

@[simp] theorem emit_bytes_str_num : (g.emit_bytes bs).num_str_fixups = g.num_str_fixups :=
  emit_bytes_keeps Gen.num_str_fixups fun b g => by unfold emit_byte; split <;> rfl

end

theorem emit_bytes_append : g.emit_bytes (bs ++ cs) = (g.emit_bytes bs).emit_bytes cs :=
  List.foldl_append

theorem emit_bytes_lost (h : (g.emit_bytes bs).lost = false) : g.lost = false := by
  induction bs generalizing g with
  | nil => exact h
  | cons b bs ih =>
      have hb := ih (g := g.emit_byte b) h
      unfold emit_byte at hb
      split at hb
      · exact hb
      · cases hb

theorem emit_bytes_len_le : g.code_len ≤ (g.emit_bytes bs).code_len := by
  induction bs generalizing g with
  | nil => exact Nat.le_refl _
  | cons b bs ih =>
      refine Nat.le_trans ?_ (ih (g := g.emit_byte b))
      unfold emit_byte
      split
      · exact Nat.le_succ _
      · exact Nat.le_refl _

theorem emit_byte_of_room {b : Byte} (h : (g.emit_byte b).lost = false) : g.emit_byte b =
    { g with code_buf := g.code_buf.set g.code_len b, code_len := g.code_len + 1 } := by
  unfold emit_byte at h ⊢
  split
  · rfl
  · rename_i hlt
    rw [if_neg hlt] at h
    cases h

theorem emit_bytes_len (h : (g.emit_bytes bs).lost = false) :
    (g.emit_bytes bs).code_len = g.code_len + bs.length := by
  induction bs generalizing g with
  | nil => rfl
  | cons b bs ih =>
      have hb : (g.emit_byte b).lost = false := @emit_bytes_lost _ bs h
      have hlen : (g.emit_byte b).code_len = g.code_len + 1 := by rw [emit_byte_of_room hb]
      have := ih (g := g.emit_byte b) h
      rw [hlen] at this
      change (emit_bytes bs (emit_byte b g)).code_len = _
      rw [this, List.length_cons]
      omega

theorem emit_bytes_buf {x : Nat} (hx : x < g.code_len) :
    (g.emit_bytes bs).code_buf x = g.code_buf x := by
  induction bs generalizing g with
  | nil => rfl
  | cons b bs ih =>
      change (emit_bytes bs (emit_byte b g)).code_buf x = _
      unfold emit_byte
      split
      · rw [ih (Nat.lt_succ_of_lt hx)]
        exact set_out (by omega)
      · exact ih hx

/-- The bytes stand where the code ended. -/
theorem emit_bytes_at (h : (g.emit_bytes bs).lost = false) {i : Nat} (hi : i < bs.length) :
    (g.emit_bytes bs).code_buf (g.code_len + i) = bs[i] := by
  induction bs generalizing g i with
  | nil => simp at hi
  | cons b bs ih =>
      have hb : (g.emit_byte b).lost = false := @emit_bytes_lost _ bs h
      have hlen : (g.emit_byte b).code_len = g.code_len + 1 := by rw [emit_byte_of_room hb]
      change (emit_bytes bs (emit_byte b g)).code_buf _ = _
      cases i with
      | zero =>
          rw [emit_bytes_buf (by omega), emit_byte_of_room hb]
          exact set_same
      | succ i =>
          have := ih (g := emit_byte b g) h (i := i) (by simpa using hi)
          rw [hlen, Nat.add_assoc, Nat.add_comm 1 i] at this
          rw [this, List.getElem_cons_succ]

/-- A 32-bit number goes out little-endian. -/
theorem emit_u32_eq (v : BitVec 32) : g.emit_u32 v = g.emit_bytes (leBytes 4 v.toNat) := by
  have hbyte : ∀ w : BitVec 32, (w &&& 0xFF).setWidth 8 = BitVec.ofNat 8 w.toNat := by
    intro w
    apply BitVec.eq_of_toNat_eq
    simp only [BitVec.toNat_setWidth, BitVec.toNat_and, BitVec.toNat_ofNat]
    rw [show BitVec.toNat (255 : BitVec 32) = 2 ^ 8 - 1 by rfl, Nat.and_two_pow_sub_one_eq_mod]
    omega
  unfold emit_u32
  rw [hbyte, hbyte, hbyte, hbyte]
  simp only [leBytes, BitVec.toNat_ushiftRight, Nat.shiftRight_eq_div_pow, Nat.div_div_eq_div_mul]

theorem emit_u64_eq (v : BitVec 64) : g.emit_u64 v = g.emit_bytes (leBytes 8 v.toNat) := by
  have hlow : ((v &&& 0xFFFFFFFF).setWidth 32).toNat = v.toNat % 2 ^ 32 := by
    simp only [BitVec.toNat_setWidth, BitVec.toNat_and]
    rw [show BitVec.toNat (4294967295 : BitVec 64) = 2 ^ 32 - 1 by rfl, Nat.and_two_pow_sub_one_eq_mod]
    omega
  have hhigh : (((v >>> 32) &&& 0xFFFFFFFF).setWidth 32).toNat = v.toNat / 2 ^ 32 := by
    have := v.isLt
    simp only [BitVec.toNat_setWidth, BitVec.toNat_and, BitVec.toNat_ushiftRight,
      Nat.shiftRight_eq_div_pow]
    rw [show BitVec.toNat (4294967295 : BitVec 64) = 2 ^ 32 - 1 by rfl, Nat.and_two_pow_sub_one_eq_mod]
    omega
  unfold emit_u64
  rw [emit_u32_eq, emit_u32_eq, ← emit_bytes_append, hlow, hhigh]
  congr 1
  have hmod : ∀ a b : Nat, a % 256 = b % 256 → BitVec.ofNat 8 a = BitVec.ofNat 8 b := by
    intro a b hab
    apply BitVec.eq_of_toNat_eq
    simpa using hab
  simp only [leBytes, List.cons_append, List.nil_append, Nat.div_div_eq_div_mul]
  refine List.cons_eq_cons.mpr ⟨hmod _ _ (by omega), ?_⟩
  refine List.cons_eq_cons.mpr ⟨hmod _ _ (by omega), ?_⟩
  refine List.cons_eq_cons.mpr ⟨hmod _ _ (by omega), ?_⟩
  refine List.cons_eq_cons.mpr ⟨hmod _ _ (by omega), rfl⟩

/-! ### What the code so far keeps -/

/-- The code, the fixups and the strings of `g` are still there in `g'`, and what was added
lies behind them. -/
structure Grown (g g' : Gen) : Prop where
  lost : g'.lost = false → g.lost = false
  len : g.code_len ≤ g'.code_len
  buf : ∀ x, x < g.code_len → g'.code_buf x = g.code_buf x
  num : g.num_fixups ≤ g'.num_fixups
  fix : ∀ i, i < g.num_fixups → g'.fixups i = g.fixups i
  hole : g'.lost = false → ∀ i, g.num_fixups ≤ i → i < g'.num_fixups →
    g.code_len ≤ (g'.fixups i).patch_pos ∧ (g'.fixups i).patch_pos + 4 ≤ g'.code_len
  strNum : g.num_str_fixups ≤ g'.num_str_fixups
  strFix : ∀ i, i < g.num_str_fixups → g'.str_fixups i = g.str_fixups i
  strHole : g'.lost = false → ∀ i, g.num_str_fixups ≤ i → i < g'.num_str_fixups →
    g.code_len ≤ (g'.str_fixups i).lea_disp_pos ∧
      (g'.str_fixups i).lea_disp_pos + 4 ≤ g'.code_len

theorem Grown.trans (h : Grown g g') (h' : Grown g' g'') : Grown g g'' where
  lost hl := h.lost (h'.lost hl)
  len := Nat.le_trans h.len h'.len
  buf x hx := (h'.buf x (Nat.lt_of_lt_of_le hx h.len)).trans (h.buf x hx)
  num := Nat.le_trans h.num h'.num
  fix i hi := (h'.fix i (Nat.lt_of_lt_of_le hi h.num)).trans (h.fix i hi)
  hole hl i hi hi' := by
    rcases Nat.lt_or_ge i g'.num_fixups with hlt | hge
    · rw [h'.fix i hlt]
      exact ⟨(h.hole (h'.lost hl) i hi hlt).1,
        Nat.le_trans (h.hole (h'.lost hl) i hi hlt).2 h'.len⟩
    · exact ⟨Nat.le_trans h.len (h'.hole hl i hge hi').1, (h'.hole hl i hge hi').2⟩
  strNum := Nat.le_trans h.strNum h'.strNum
  strFix i hi := (h'.strFix i (Nat.lt_of_lt_of_le hi h.strNum)).trans (h.strFix i hi)
  strHole hl i hi hi' := by
    rcases Nat.lt_or_ge i g'.num_str_fixups with hlt | hge
    · rw [h'.strFix i hlt]
      exact ⟨(h.strHole (h'.lost hl) i hi hlt).1,
        Nat.le_trans (h.strHole (h'.lost hl) i hi hlt).2 h'.len⟩
    · exact ⟨Nat.le_trans h.len (h'.strHole hl i hge hi').1, (h'.strHole hl i hge hi').2⟩

/-- A change that touches none of the parts. -/
theorem Grown.of_eq (hbuf : g'.code_buf = g.code_buf) (hlen : g'.code_len = g.code_len)
    (hfix : g'.fixups = g.fixups) (hnum : g'.num_fixups = g.num_fixups)
    (hsfix : g'.str_fixups = g.str_fixups) (hsnum : g'.num_str_fixups = g.num_str_fixups)
    (hlost : g'.lost = g.lost) : Grown g g' where
  lost h := hlost ▸ h
  len := Nat.le_of_eq hlen.symm
  buf x _ := by rw [hbuf]
  num := Nat.le_of_eq hnum.symm
  fix i _ := by rw [hfix]
  hole _ i hi hi' := by omega
  strNum := Nat.le_of_eq hsnum.symm
  strFix i _ := by rw [hsfix]
  strHole _ i hi hi' := by omega

theorem Grown.refl : Grown g g := .of_eq rfl rfl rfl rfl rfl rfl rfl

theorem visit_grown : Grown g g.visit := .of_eq rfl rfl rfl rfl rfl rfl rfl
theorem drop_grown : Grown g g.drop := .of_eq rfl rfl rfl rfl rfl rfl rfl
theorem skipStore_grown : Grown g g.skipStore := .of_eq rfl rfl rfl rfl rfl rfl rfl

theorem register_grown (name : Name) (offset : Nat) : Grown g (g.register_func name offset) := by
  unfold register_func
  split
  · exact .of_eq rfl rfl rfl rfl rfl rfl rfl
  · exact .refl

theorem emit_bytes_grown : Grown g (g.emit_bytes bs) where
  lost := emit_bytes_lost
  len := emit_bytes_len_le
  buf _ hx := emit_bytes_buf hx
  num := by simp
  fix _ _ := by simp
  hole _ i hi hi' := by simp only [emit_bytes_num] at hi'; omega
  strNum := by simp
  strFix _ _ := by simp
  strHole _ i hi hi' := by simp only [emit_bytes_str_num] at hi'; omega

theorem emit_u32_grown (v : BitVec 32) : Grown g (g.emit_u32 v) := by
  rw [emit_u32_eq]
  exact emit_bytes_grown

@[simp] theorem alloc_label_fst : g.alloc_label.1 = g.next_label_id := by
  unfold alloc_label
  split <;> rfl

theorem alloc_grown : Grown g g.alloc_label.2 := by
  unfold alloc_label
  split
  · exact .of_eq rfl rfl rfl rfl rfl rfl rfl
  · exact ⟨nofun, Nat.le_refl _, fun _ _ => rfl, Nat.le_refl _, fun _ _ => rfl,
      fun _ i hi hi' => absurd hi (Nat.not_le.mpr hi'), Nat.le_refl _, fun _ _ => rfl,
      fun _ i hi hi' => absurd hi (Nat.not_le.mpr hi')⟩

section

variable (g) (f : Fixup → Fixup) (off : Nat)

@[simp] theorem add_fixup_buf : (g.add_fixup f).code_buf = g.code_buf := by
  unfold add_fixup; split <;> rfl

@[simp] theorem add_fixup_len : (g.add_fixup f).code_len = g.code_len := by
  unfold add_fixup; split <;> rfl

@[simp] theorem add_fixup_label_pos : (g.add_fixup f).label_pos = g.label_pos := by
  unfold add_fixup; split <;> rfl

@[simp] theorem add_fixup_next : (g.add_fixup f).next_label_id = g.next_label_id := by
  unfold add_fixup; split <;> rfl

@[simp] theorem add_fixup_str_fixups : (g.add_fixup f).str_fixups = g.str_fixups := by
  unfold add_fixup; split <;> rfl

@[simp] theorem add_fixup_str_num : (g.add_fixup f).num_str_fixups = g.num_str_fixups := by
  unfold add_fixup; split <;> rfl

@[simp] theorem add_str_fixup_buf : (g.add_str_fixup off).code_buf = g.code_buf := by
  unfold add_str_fixup; split <;> rfl

@[simp] theorem add_str_fixup_len : (g.add_str_fixup off).code_len = g.code_len := by
  unfold add_str_fixup; split <;> rfl

@[simp] theorem add_str_fixup_label_pos : (g.add_str_fixup off).label_pos = g.label_pos := by
  unfold add_str_fixup; split <;> rfl

@[simp] theorem add_str_fixup_next : (g.add_str_fixup off).next_label_id = g.next_label_id := by
  unfold add_str_fixup; split <;> rfl

@[simp] theorem add_str_fixup_fixups : (g.add_str_fixup off).fixups = g.fixups := by
  unfold add_str_fixup; split <;> rfl

@[simp] theorem add_str_fixup_num : (g.add_str_fixup off).num_fixups = g.num_fixups := by
  unfold add_str_fixup; split <;> rfl

@[simp] theorem add_str_fixup_lost : (g.add_str_fixup off).lost = g.lost := by
  unfold add_str_fixup; split <;> rfl

end

/-- A fixup that found room. -/
theorem add_fixup_room {f : Fixup → Fixup} (h : (g.add_fixup f).lost = false) : g.add_fixup f =
    { g with
      fixups := fun i => if i = g.num_fixups then
          { f (g.fixups i) with patch_pos := g.code_len } else g.fixups i
      num_fixups := g.num_fixups + 1 } := by
  unfold add_fixup at h ⊢
  split
  · rfl
  · rename_i hlt
    rw [if_neg hlt] at h
    cases h

theorem add_fixup_lost {f : Fixup → Fixup} (h : (g.add_fixup f).lost = false) :
    g.lost = false := by
  rw [add_fixup_room h] at h
  exact h

theorem add_fixup_old {f : Fixup → Fixup} {i : Nat} (hi : i < g.num_fixups) :
    (g.add_fixup f).fixups i = g.fixups i := by
  unfold add_fixup
  split
  · exact if_neg (Nat.ne_of_lt hi)
  · rfl

theorem add_fixup_num_le {f : Fixup → Fixup} :
    g.num_fixups ≤ (g.add_fixup f).num_fixups ∧ (g.add_fixup f).num_fixups ≤ g.num_fixups + 1 := by
  unfold add_fixup
  split
  · exact ⟨Nat.le_succ _, Nat.le_refl _⟩
  · exact ⟨Nat.le_refl _, Nat.le_succ _⟩

/-- A fixup with the placeholder behind it. -/
theorem fixup_grown (f : Fixup → Fixup) : Grown g ((g.add_fixup f).emit_u32 0) := by
  rw [emit_u32_eq]
  have hnum := add_fixup_num_le (g := g) (f := f)
  refine ⟨fun h => add_fixup_lost (emit_bytes_lost h), ?_, fun x hx => ?_, ?_, fun i hi => ?_,
    fun hl i hi hi' => ?_, ?_, fun i _ => ?_, fun _ i hi hi' => ?_⟩
  · have := @emit_bytes_len_le (g.add_fixup f) (leBytes 4 (0 : BitVec 32).toNat)
    rwa [add_fixup_len] at this
  · rw [emit_bytes_buf (by rwa [add_fixup_len]), add_fixup_buf]
  · rw [emit_bytes_num]
    exact hnum.1
  · rw [emit_bytes_fixups, add_fixup_old hi]
  · rw [emit_bytes_num] at hi'
    have heq : i = g.num_fixups := by omega
    have hlen := emit_bytes_len hl
    rw [add_fixup_len, length_leBytes] at hlen
    rw [emit_bytes_fixups, hlen, add_fixup_room (emit_bytes_lost hl)]
    simp [heq]
  · simp
  · simp
  · rw [emit_bytes_str_num, add_fixup_str_num] at hi'
    omega

theorem add_str_fixup_old {off i : Nat} (hi : i < g.num_str_fixups) :
    (g.add_str_fixup off).str_fixups i = g.str_fixups i := by
  unfold add_str_fixup
  split
  · exact if_neg (Nat.ne_of_lt hi)
  · rfl

theorem add_str_fixup_new {off i : Nat} (hi : g.num_str_fixups ≤ i)
    (hi' : i < (g.add_str_fixup off).num_str_fixups) :
    ((g.add_str_fixup off).str_fixups i).lea_disp_pos = g.code_len := by
  unfold add_str_fixup at hi' ⊢
  split
  · rename_i hlt
    rw [if_pos hlt] at hi'
    exact congrArg StrFixup.lea_disp_pos (if_pos (by simp only at hi'; omega))
  · rename_i hlt
    rw [if_neg hlt] at hi'
    omega

theorem add_str_fixup_num_le {off : Nat} : g.num_str_fixups ≤ (g.add_str_fixup off).num_str_fixups := by
  unfold add_str_fixup
  split
  · exact Nat.le_succ _
  · exact Nat.le_refl _

/-- A string reference with the placeholder behind it. -/
theorem str_fixup_grown (off : Nat) : Grown g ((g.add_str_fixup off).emit_u32 0) := by
  rw [emit_u32_eq]
  refine ⟨fun h => by simpa using emit_bytes_lost h, ?_, fun x hx => ?_, ?_, fun i _ => ?_,
    fun _ i hi hi' => ?_, ?_, fun i hi => ?_, fun hl i hi hi' => ?_⟩
  · have := @emit_bytes_len_le (g.add_str_fixup off) (leBytes 4 (0 : BitVec 32).toNat)
    rwa [add_str_fixup_len] at this
  · rw [emit_bytes_buf (by rwa [add_str_fixup_len]), add_str_fixup_buf]
  · simp
  · simp
  · rw [emit_bytes_num, add_str_fixup_num] at hi'
    omega
  · rw [emit_bytes_str_num]
    exact add_str_fixup_num_le
  · rw [emit_bytes_str_fixups, add_str_fixup_old hi]
  · rw [emit_bytes_str_num] at hi'
    have hlen := emit_bytes_len hl
    rw [add_str_fixup_len, length_leBytes] at hlen
    rw [emit_bytes_str_fixups, hlen, add_str_fixup_new hi hi']
    exact ⟨Nat.le_refl _, Nat.le_refl _⟩

theorem add_to_string_pool_grown (s : Name) : Grown g (g.add_to_string_pool s).2 :=
  .of_eq rfl rfl rfl rfl rfl rfl rfl

theorem emit_call_rel_grown (name : Name) : Grown g (g.emit_call_rel name) := by
  unfold emit_call_rel
  simp only
  split
  · exact emit_bytes_grown.trans (emit_u32_grown _)
  · exact emit_bytes_grown.trans (fixup_grown _)

end Eke
