/-
The registers a caller keeps.

A function of a compiled program saves the frame pointer and takes it back in front of its return;
of the other registers that belong to the caller, rbx is the only one its code names, and that is never
saved.  The main result is about runs of a whole program from its entry point: what the calls and the
prologues have saved and not yet taken back is kept beside the run, as a list of addresses, and a run
that leaves those words and rbx alone returns with the registers of its caller.
-/
import Eke.Compiler.Bodies

namespace Eke

open Gen Store X86

variable {bin m m' : Store} {len base p : Nat} {Y : Symbols} {c d : Cpu} {op : Op} {imm : Nat}
  {T : Nat → Prop} {C : Name → Prop}

/-! ### Runs, with what was saved on the way -/

/-- An address of the binary. -/
def Within (base len : Nat) (a : BitVec 64) : Prop := base ≤ a.toNat ∧ a.toNat < base + len

instance (base len : Nat) (a : BitVec 64) : Decidable (Within base len a) :=
  inferInstanceAs (Decidable (_ ∧ _))

/-- The address a function returns to, when it is entered. -/
def X86.Cpu.link (c : Cpu) : BitVec 64 := c.mem.word c.rsp.toNat

/-- The instruction in front of the processor. -/
def X86.Cpu.next (c : Cpu) : Option Instr := decode c.mem c.rip.toNat

/-- The addresses of what was saved and not yet taken back, after the next instruction: calls save
return addresses, prologues frame pointers. -/
def saves (c : Cpu) (g : List (BitVec 64)) : List (BitVec 64) :=
  match c.next.map Instr.op with
  | some .call => (c.rsp - 8) :: g
  | some .call_rbx => (c.rsp - 8) :: g
  | some .push_rbp => (c.rsp - 8) :: g
  | some .leave => g.tail
  | some .ret => g.tail
  | _ => g

/-- A run inside the binary, each of whose steps satisfies `P`. -/
inductive Walk (base len : Nat) (P : Cpu → List (BitVec 64) → Prop) :
    Cpu → List (BitVec 64) → Cpu → List (BitVec 64) → Prop
  | refl {c : Cpu} {g : List (BitVec 64)} : Walk base len P c g c g
  | step {c d e : Cpu} {g g' : List (BitVec 64)} : Within base len c.rip → P c g → c.step = some d →
      Walk base len P d (saves c g) e g' → Walk base len P c g e g'

def X86.Op.writesRbx : Op → Bool
  | .pop_rbx | .movabs_rbx => true
  | _ => false

/-- The next instruction writes neither to rbx nor to what was saved nor to the binary. -/
structure Careful (base len : Nat) (c : Cpu) (g : List (BitVec 64)) : Prop where
  rbx : ∀ i, c.next = some i → i.op.writesRbx = false
  kept : ∀ d, c.step = some d → ∀ s ∈ g, d.mem.word s.toNat = c.mem.word s.toNat
  code : ∀ d, c.step = some d → ∀ x < len, d.mem (base + x) = c.mem (base + x)

instance (base len : Nat) (c : Cpu) (g : List (BitVec 64)) : Decidable (Careful base len c g) :=
  decidable_of_iff ((c.next.all fun i => !i.op.writesRbx) = true ∧ (c.step.all fun d =>
      (g.all fun s => d.mem.word s.toNat == c.mem.word s.toNat) &&
        (List.range len).all fun x => d.mem (base + x) == c.mem (base + x)) = true) (by
    constructor
    · rintro ⟨hrbx, hboth⟩
      refine ⟨fun i hi => ?_, fun d hd s hs => ?_, fun d hd x hx => ?_⟩
      · rw [hi] at hrbx
        simpa using hrbx
      · rw [hd] at hboth
        exact eq_of_beq (List.all_eq_true.mp (Bool.and_eq_true_iff.mp hboth).1 s hs)
      · rw [hd] at hboth
        exact eq_of_beq (List.all_eq_true.mp (Bool.and_eq_true_iff.mp hboth).2 x (List.mem_range.mpr hx))
    · intro h
      constructor
      · cases hi : c.next with
        | none => rfl
        | some i => simpa using h.rbx i hi
      · cases hd : c.step with
        | none => rfl
        | some d =>
            have hkept := h.kept d hd
            have hcode := h.code d hd
            exact Bool.and_eq_true_iff.mpr ⟨List.all_eq_true.mpr fun s hs => beq_iff_eq.mpr (hkept s hs),
              List.all_eq_true.mpr fun x hx => beq_iff_eq.mpr (hcode x (List.mem_range.mp hx))⟩)

/-- The run of `n` steps, if each of them satisfies `P`. -/
def walkFor (base len : Nat) (P : Cpu → List (BitVec 64) → Prop) [∀ c g, Decidable (P c g)] :
    Nat → Cpu → List (BitVec 64) → Option (Cpu × List (BitVec 64))
  | 0, c, g => some (c, g)
  | n + 1, c, g =>
      if Within base len c.rip ∧ P c g then c.step.bind fun d => walkFor base len P n d (saves c g)
      else none

theorem walk_of_walkFor {P : Cpu → List (BitVec 64) → Prop} [∀ c g, Decidable (P c g)] :
    ∀ {n : Nat} {c : Cpu} {g : List (BitVec 64)} {r : Cpu × List (BitVec 64)},
      walkFor base len P n c g = some r → Walk base len P c g r.1 r.2 := by
  intro n
  induction n with
  | zero =>
      intro c g r h
      cases h
      exact .refl
  | succ n ih =>
      intro c g r h
      unfold walkFor at h
      split at h
      · rename_i hboth
        obtain ⟨d, hd, h⟩ := Option.bind_eq_some_iff.mp h
        exact .step hboth.1 hboth.2 hd (ih h)
      · cases h

/-- The registers of the caller, behind its call. -/
structure Preserved (c d : Cpu) : Prop where
  rbx : d.rbx = c.rbx
  rbp : d.rbp = c.rbp
  rsp : d.rsp = c.rsp + 8

/-! ### What a step keeps -/

section

variable (bin : Store) (len base : Nat) (Y : Symbols) (T : Nat → Prop) (C : Name → Prop) (c₀ : Cpu)

/-- A return address `r` saved at `s`: it leads out of the program, or into a function whose frame
pointer is `b`; under `b` lie the frame pointer and the return address of that function. -/
inductive Back (m : Store) : BitVec 64 → BitVec 64 → List (BitVec 64) → BitVec 64 → Prop
  | out : Back m c₀.rsp (c₀.link) [] c₀.rbp
  | inner {q : Nat} {s b : BitVec 64} {g : List (BitVec 64)} : InBody bin len Y T C q →
      Back m (b + 8) (m.word (b + 8).toNat) g (m.word b.toNat) →
      Back m s (place base q) (b :: (b + 8) :: g) b

/-- Where the processor is between the entry and the return, and what was saved. -/
inductive Phase (c : Cpu) : List (BitVec 64) → Prop
  | called {p : Nat} {g : List (BitVec 64)} : Entrance bin len Y T C p → c.rip = place base p →
      Back bin len base Y T C c₀ c.mem c.rsp (c.mem.word c.rsp.toNat) g c.rbp → Phase c (c.rsp :: g)
  | pushed {p : Nat} {g : List (BitVec 64)} : Entrance bin len Y T C p → c.rip = place base (p + 1) →
      Back bin len base Y T C c₀ c.mem (c.rsp + 8) (c.mem.word (c.rsp + 8).toNat) g
        (c.mem.word c.rsp.toNat) →
      Phase c (c.rsp :: (c.rsp + 8) :: g)
  | body {p : Nat} {g : List (BitVec 64)} : InBody bin len Y T C p → c.rip = place base p →
      Back bin len base Y T C c₀ c.mem (c.rbp + 8) (c.mem.word (c.rbp + 8).toNat) g
        (c.mem.word c.rbp.toNat) →
      Phase c (c.rbp :: (c.rbp + 8) :: g)
  | left {p : Nat} {g : List (BitVec 64)} : Code bin len Y p [.op .ret] → c.rip = place base p →
      Back bin len base Y T C c₀ c.mem c.rsp (c.mem.word c.rsp.toNat) g c.rbp → Phase c (c.rsp :: g)
  | returned : c.rip = c₀.link → c.rbp = c₀.rbp → c.rsp = c₀.rsp + 8 → Phase c []

/-- What holds throughout a careful run from `c₀`. -/
structure Intact (c : Cpu) (g : List (BitVec 64)) : Prop where
  loaded : Loaded bin len base c.mem
  rbx : c.rbx = c₀.rbx
  phase : Phase bin len base Y T C c₀ c g

end

variable {c₀ : Cpu} {g : List (BitVec 64)}

theorem Back.congr {r b : BitVec 64} {s : BitVec 64} (h : Back bin len base Y T C c₀ m s r g b)
    (hm : ∀ a ∈ g, m'.word a.toNat = m.word a.toNat) : Back bin len base Y T C c₀ m' s r g b := by
  induction h with
  | out => exact .out
  | inner hq _ ih =>
      have h1 := hm _ (List.mem_cons_self ..)
      have h2 := hm _ (List.mem_cons_of_mem _ (List.mem_cons_self ..))
      have ih := ih fun a ha => hm a (List.mem_cons_of_mem _ (List.mem_cons_of_mem _ ha))
      rw [← h1, ← h2] at ih
      exact .inner hq ih

theorem Back.leads {r s b : BitVec 64} (h : Back bin len base Y T C c₀ m s r g b) :
    (s = c₀.rsp ∧ r = c₀.link ∧ g = [] ∧ b = c₀.rbp) ∨
    ∃ q g', r = place base q ∧ InBody bin len Y T C q ∧ g = b :: (b + 8) :: g' ∧
      Back bin len base Y T C c₀ m (b + 8) (m.word (b + 8).toNat) g' (m.word b.toNat) := by
  cases h with
  | out => exact .inl ⟨rfl, rfl, rfl, rfl⟩
  | inner hq hb => exact .inr ⟨_, _, rfl, hq, rfl, hb⟩

theorem Loaded.next {i : Instr} (h : Loaded bin len base c.mem) (hrip : c.rip = place base p)
    (hi : At bin p i) (hlen : p + i.size ≤ len) : c.next = some i := by
  have hroom := h.room
  have hp : c.rip.toNat = base + p := by
    rw [hrip]
    exact place_toNat (by omega)
  refine decode_of_at (hi.congr fun k hk => ?_)
  rw [hp, Nat.add_assoc, h.bytes _ (by omega)]

/-- What an instruction between prologue and return does to `rip`, `rbp` and `rbx`. -/
theorem inner_exec (hop : op.plain = true ∨ op = .add_rsp ∨ op = .sub_rsp) (hrbx : op.writesRbx = false)
    (h : c.exec ⟨op, imm⟩ = some d) : d.rip = c.rip ∧ d.rbp = c.rbp ∧ d.rbx = c.rbx := by
  have hpop : ∀ {f : BitVec 64 × Cpu → Cpu}, c.pop.map f = some d → (∀ v e, (f (v, e)).rip = e.rip) →
      (∀ v e, (f (v, e)).rbp = e.rbp) → (∀ v e, (f (v, e)).rbx = e.rbx) →
      d.rip = c.rip ∧ d.rbp = c.rbp ∧ d.rbx = c.rbx := by
    intro f hf hrip hrbp hrbx
    obtain ⟨⟨v, e⟩, he, rfl⟩ := Option.map_eq_some_iff.mp hf
    rw [hrip, hrbp, hrbx, (Cpu.pop_some he).2]
    exact ⟨rfl, rfl, rfl⟩
  have hite : ∀ {b : Bool} {e : Cpu}, (if b then some e else none) = some d → e.rip = c.rip →
      e.rbp = c.rbp → e.rbx = c.rbx → d.rip = c.rip ∧ d.rbp = c.rbp ∧ d.rbx = c.rbx := by
    intro b e hb hrip hrbp hrbx
    split at hb
    · cases hb
      exact ⟨hrip, hrbp, hrbx⟩
    · cases hb
  cases op with
  | push_rax => exact hite h rfl rfl rfl
  | pop_rbx | movabs_rbx => cases hrbx
  | pop_rax | pop_rcx | pop_rdx | pop_rsi | pop_rdi | pop_r8 | pop_r9 =>
      exact hpop h (fun _ _ => rfl) (fun _ _ => rfl) fun _ _ => rfl
  | mov_rbp_rax | mov_rbp_eax | mov_rax_rbp | mov_eax_rbp | mov_at_rbx_rax | mov_rax_at_rbx =>
      exact hite h rfl rfl rfl
  | idiv_rbx =>
      unfold Cpu.exec Cpu.idiv at h
      simp only at h
      split at h
      · cases h
      split at h
      · cases h
      · cases h
        exact ⟨rfl, rfl, rfl⟩
  | movabs_rax | add_rbx_rax | sub_rbx_rax | imul_rbx_rax | cqo | cmp_rbx_rax | test_rax_rax | xor_eax_eax
  | xor_rdi_rdi | lea_rip_rax | add_rsp | sub_rsp =>
      cases h
      exact ⟨rfl, rfl, rfl⟩
  | _ => rcases hop with h | h | h <;> cases h

theorem inner_saves {i : Instr} (hop : i.op.plain = true ∨ i.op = .add_rsp ∨ i.op = .sub_rsp)
    (hnext : c.next = some i) : saves c g = g := by
  unfold saves
  rw [hnext]
  obtain ⟨op, imm⟩ := i
  cases op with
  | call | call_rbx | push_rbp | leave | ret => rcases hop with h | h | h <;> cases h
  | _ => rfl

theorem sub_add_word (a : BitVec 64) : a - 8 + 8 = a := BitVec.sub_add_cancel a 8

section

variable (hl : Loaded bin len base c.mem) (hd : c.step = some d)
include hl hd

/-- In front of the frame pointer of a function that starts. -/
theorem called_step {g' : List (BitVec 64)} (hcare : Careful base len c g) (hg : g = c.rsp :: g')
    (hp : Entrance bin len Y T C p) (hrip : c.rip = place base p)
    (hb : Back bin len base Y T C c₀ c.mem c.rsp (c.mem.word c.rsp.toNat) g' c.rbp) :
    d.rbx = c.rbx ∧ Phase bin len base Y T C c₀ d (saves c g) := by
  obtain ⟨hat, hlen, -⟩ := hp.code.at
  have hsaves : saves c g = (c.rsp - 8) :: g := by
    unfold saves
    rw [hl.next hrip hat hlen]
    rfl
  have hkept := hcare.kept d hd
  rw [hg] at hkept hsaves
  rw [hl.step hrip hat hlen] at hd
  have hslot := hkept c.rsp (List.mem_cons_self ..)
  have hback := hb.congr fun a ha => hkept a (List.mem_cons_of_mem _ ha)
  obtain rfl := Cpu.push_some hd
  refine ⟨rfl, ?_⟩
  rw [hg, hsaves]
  have hphase := Phase.pushed (g := g') hp (c := { c with
    rip := place base (p + 1), rsp := c.rsp - 8, mem := c.mem.setWord (c.rsp - 8).toNat c.rbp }) rfl
    (by
      simp only [sub_add_word]
      rw [word_setWord, hslot]
      exact hback)
  simp only [sub_add_word] at hphase
  exact hphase

/-- In front of the second instruction of a prologue. -/
theorem pushed_step {g' : List (BitVec 64)} (hg : g = c.rsp :: (c.rsp + 8) :: g')
    (hp : Entrance bin len Y T C p) (hrip : c.rip = place base (p + 1))
    (hb : Back bin len base Y T C c₀ c.mem (c.rsp + 8) (c.mem.word (c.rsp + 8).toNat) g'
      (c.mem.word c.rsp.toNat)) :
    d.rbx = c.rbx ∧ Phase bin len base Y T C c₀ d (saves c g) := by
  obtain ⟨hat, hlen, -⟩ := hp.code.tail.at
  have hsaves : saves c g = g := by
    unfold saves
    rw [hl.next hrip hat hlen]
    rfl
  rw [hl.step hrip hat hlen] at hd
  cases hd
  rw [hsaves, hg]
  exact ⟨rfl, .body hp.body rfl hb⟩

/-- In front of a return. -/
theorem left_step {g' : List (BitVec 64)} (hg : g = c.rsp :: g') (hp : Code bin len Y p [.op .ret])
    (hrip : c.rip = place base p)
    (hb : Back bin len base Y T C c₀ c.mem c.rsp (c.mem.word c.rsp.toNat) g' c.rbp) :
    d.rbx = c.rbx ∧ Phase bin len base Y T C c₀ d (saves c g) := by
  obtain ⟨hat, hlen, -⟩ := hp.at
  have hsaves : saves c g = g' := by
    unfold saves
    rw [hl.next hrip hat hlen, hg]
    rfl
  rw [hl.step hrip hat hlen] at hd
  obtain ⟨⟨v, e⟩, he, rfl⟩ := Option.map_eq_some_iff.mp hd
  obtain ⟨rfl, rfl⟩ := Cpu.pop_some he
  refine ⟨rfl, ?_⟩
  rw [hsaves]
  rcases hb.leads with ⟨hslot, hword, rfl, hrbp⟩ | ⟨q, g'', hword, hq, rfl, hb'⟩
  · exact .returned hword hrbp (congrArg (· + 8) hslot)
  · exact .body hq hword hb'

/-- In the body of a function. -/
theorem body_step {g' : List (BitVec 64)} (hw : Wired bin len Y T C) (hcare : Careful base len c g)
    (hg : g = c.rbp :: (c.rbp + 8) :: g') (hp : InBody bin len Y T C p) (hrip : c.rip = place base p)
    (hb : Back bin len base Y T C c₀ c.mem (c.rbp + 8) (c.mem.word (c.rbp + 8).toNat) g'
      (c.mem.word c.rbp.toNat)) :
    d.rbx = c.rbx ∧ Phase bin len base Y T C c₀ d (saves c g) := by
  have hkept := hcare.kept d hd
  rw [hg] at hkept
  have hframe := hkept c.rbp (List.mem_cons_self ..)
  have hslot := hkept (c.rbp + 8) (List.mem_cons_of_mem _ (List.mem_cons_self ..))
  have hback := hb.congr fun a ha => hkept a (List.mem_cons_of_mem _ (List.mem_cons_of_mem _ ha))
  rw [← hframe, ← hslot] at hback
  -- a step to another place of a body, in the same frame
  have hstay : ∀ t, InBody bin len Y T C t → d.rip = place base t → d.rbp = c.rbp →
      Phase bin len base Y T C c₀ d g := by
    intro t ht hrip' hrbp
    rw [← hrbp] at hback hg
    rw [hg]
    exact .body ht hrip' hback
  cases hp.does hw with
  | on i hat hlen hop hq =>
      obtain ⟨op, imm⟩ := i
      have hnext := hl.next hrip hat hlen
      rw [hl.step hrip hat hlen] at hd
      obtain ⟨hrip', hrbp, hrbx⟩ := inner_exec hop (hcare.rbx _ hnext) hd
      rw [inner_saves hop hnext]
      exact ⟨hrbx, hstay _ hq hrip' hrbp⟩
  | address i hat hlen hop =>
      have hnot := hcare.rbx i (hl.next hrip hat hlen)
      rw [hop] at hnot
      cases hnot
  | jump t hrel hlen ht =>
      have hsaves : saves c g = g := by
        unfold saves
        rw [hl.next hrip (hrel.at rfl) hlen]
        rfl
      rw [step_jmp hl hrip hrel hlen hw.small ht.inside] at hd
      rw [hsaves]
      cases hd
      exact ⟨rfl, hstay t ht rfl rfl⟩
  | branch k t hrel hlen ht hq =>
      have hsize : Instr.size ⟨.jcc k, (rel32 t (p + (Op.jcc k).opcode.length)).toNat⟩ = 6 := by
        cases k <;> rfl
      have hsaves : saves c g = g := by
        unfold saves
        rw [hl.next hrip (hrel.at rfl) (by rw [hsize]; exact hlen)]
        rfl
      rw [step_jcc hl hrip hrel hlen hw.small ht.inside] at hd
      rw [hsaves]
      cases hd
      refine ⟨rfl, ?_⟩
      by_cases hk : c.holds k = true
      · exact hstay t ht (if_pos hk) rfl
      · exact hstay _ hq (if_neg hk) rfl
  | call t hrel hlen ht hq =>
      have hsaves : saves c g = (c.rsp - 8) :: g := by
        unfold saves
        rw [hl.next hrip (hrel.at rfl) hlen]
        rfl
      have htl : t ≤ len := Nat.le_trans (Nat.le_add_right _ _) ht.code.inside
      rw [step_call hl hrip hrel hlen hw.small htl] at hd
      obtain ⟨e, he, rfl⟩ := Option.map_eq_some_iff.mp hd
      obtain rfl := Cpu.push_some he
      rw [hsaves, hg]
      refine ⟨rfl, .called ht rfl ?_⟩
      have hret : (c.mem.setWord (c.rsp - 8).toNat (place base (p + 5))).word (c.rsp - 8).toNat =
          place base (p + 5) := word_setWord
      simp only [hret]
      exact .inner hq hback
  | leave hc =>
      obtain ⟨hat, hlen, -⟩ := hc.at
      have hsaves : saves c g = g.tail := by
        unfold saves
        rw [hl.next hrip hat hlen]
        rfl
      rw [hl.step hrip hat hlen] at hd
      obtain ⟨⟨v, e⟩, he, rfl⟩ := Option.map_eq_some_iff.mp hd
      obtain ⟨rfl, rfl⟩ := Cpu.pop_some he
      rw [hsaves, hg]
      exact ⟨rfl, .left hc.tail rfl hb⟩

end

/-- **One step of a careful run.** -/
theorem Intact.step (hw : Wired bin len Y T C) (hret : ¬ Within base len c₀.link)
    (h : Intact bin len base Y T C c₀ c g) (hin : Within base len c.rip) (hcare : Careful base len c g)
    (hd : c.step = some d) :
    Intact bin len base Y T C c₀ d (saves c g) := by
  obtain ⟨hl, hrbx, hphase⟩ := h
  have hl' : Loaded bin len base d.mem :=
    ⟨fun x hx => (hcare.code d hd x hx).trans (hl.bytes x hx), hl.room⟩
  have hboth : d.rbx = c.rbx ∧ Phase bin len base Y T C c₀ d (saves c g) := by
    cases hphase with
    | called hp hrip hb => exact called_step hl hd hcare rfl hp hrip hb
    | pushed hp hrip hb => exact pushed_step hl hd rfl hp hrip hb
    | body hp hrip hb => exact body_step hl hd hw hcare rfl hp hrip hb
    | left hp hrip hb => exact left_step hl hd rfl hp hrip hb
    | returned hrip _ _ =>
        rw [hrip] at hin
        exact absurd hin hret
  exact ⟨hl', hboth.1.trans hrbx, hboth.2⟩

theorem Intact.walk (hw : Wired bin len Y T C) (hret : ¬ Within base len c₀.link) {g' : List (BitVec 64)}
    (h : Intact bin len base Y T C c₀ c g) (hrun : Walk base len (Careful base len) c g d g') :
    Intact bin len base Y T C c₀ d g' := by
  induction hrun with
  | refl => exact h
  | step hin hcare hd _ ih => exact ih (h.step hw hret hin hcare hd)

/-- Behind the return, the registers are those of the caller. -/
theorem Intact.preserved (hret : ¬ Within base len c₀.link) (h : Intact bin len base Y T C c₀ c g)
    (hdone : c.rip = c₀.link) : Preserved c₀ c := by
  obtain ⟨hl, hrbx, hphase⟩ := h
  have hroom := hl.room
  have hinside : ∀ {p : Nat} {P : Prop}, c.rip = place base p → p < len → P := by
    intro p P hrip hp
    rw [hrip] at hdone
    unfold Within at hret
    rw [← hdone, place_toNat (by omega)] at hret
    omega
  cases hphase with
  | called hp hrip _ =>
      have hin := hp.code.inside
      exact hinside hrip (Nat.lt_of_lt_of_le (Nat.lt_add_of_pos_right (by decide)) hin)
  | pushed hp hrip _ =>
      have hin := hp.code.tail.inside
      exact hinside hrip (Nat.lt_of_lt_of_le (Nat.lt_add_of_pos_right (by decide)) hin)
  | body hp hrip _ =>
      obtain ⟨ys, -, -, -, hc⟩ := hp
      have hin := hc.inside
      have hsize : size epilogue_items = 2 := rfl
      rw [size_append, hsize] at hin
      exact hinside hrip (by omega)
  | left hp hrip _ =>
      exact hinside hrip (Nat.lt_of_lt_of_le (Nat.lt_add_of_pos_right (by decide)) hp.inside)
  | returned _ hrbp hrsp => exact ⟨hrbx, hrbp, hrsp⟩

/-! ### A program that is called -/

/-- The entry point of a binary is called. -/
structure EntryCalled (bin : Store) (len base : Nat) (c : Cpu) : Prop where
  loaded : Loaded bin len base c.mem
  rip : c.rip = place base (bin.le 40 4)
  outside : ¬ Within base len c.link

/-- **The registers of the caller.**  In a program that fits, with a function in it, called at its entry
point: a run that returns has left rbp and rsp as they were, and rbx too, if none of its steps writes to
rbx, to what was saved or to the code. -/
theorem registers_preserved (A : Addresses) (gt : List Node) (mod_name : Option Name) (mod_type : BitVec 32)
    (g : Gen) (h : Fits (listing A gt))
    (hclean : noTest (listing A gt) ∨ ∀ i, (g.fixups i).is_func_call = false)
    (hfun : ∃ q ∈ gt, Function q) (base : Nat) (c d : Cpu) (saved : List (BitVec 64))
    (hcall : EntryCalled (codegen_x86_emit A gt mod_name mod_type g).1
      (codegen_x86_emit A gt mod_name mod_type g).2.1 base c)
    (hrun : Walk base (codegen_x86_emit A gt mod_name mod_type g).2.1
      (Careful base (codegen_x86_emit A gt mod_name mod_type g).2.1) c [c.rsp] d saved)
    (hdone : d.rip = c.link) : Preserved c d := by
  obtain ⟨hwired, hentries⟩ := program_wired mod_name mod_type g h hclean
  obtain ⟨e, he, hoff⟩ := entry_entrance mod_name mod_type g h hfun
  have hentry := hentries e he
  rw [hoff] at hentry
  have hstart : Intact _ _ base _ _ _ c c [c.rsp] :=
    ⟨hcall.loaded, rfl, .called hentry hcall.rip .out⟩
  exact (hstart.walk hwired hcall.outside hrun).preserved hcall.outside hdone

/-- A function without parameters. -/
def procedure (name : Name) (body : Node) : Node := .mk 0 (.func name .null body K_VOID 0 0) .null .null

/-- `void f() {} void main() { f(); }` -/
def callMain : List Node :=
  [procedure ['f'] .null, procedure ['m', 'a', 'i', 'n']
    (.mk 0 (.block (.mk 0 (.call ['f'] .null 0) .null .null)) .null .null)]

/-- `void main() { 1 + 2; }` -/
def sumMain : List Node :=
  [procedure ['m', 'a', 'i', 'n']
    (.mk 0 (.block (.mk 0 (.bin '+'.toNat (.mk 0 (.int 1) .null .null) (.mk 0 (.int 2) .null .null))
      .null .null)) .null .null)]

/-- A call of the entry point of a binary at address 0, with a return address far behind. -/
def entryCpu (bin : Store) : Cpu :=
  { rax := 0, rbx := 77, rcx := 0, rdx := 0, rsi := 0, rdi := 0, rbp := 131000, rsp := 130000, r8 := 0
    r9 := 0, rip := place 0 (bin.le 40 4), zf := false, sf := false, of := false
    mem := bin.setWord 130000 200000 }

theorem entryCpu_link : (entryCpu bin).link = 200000 := word_setWord

theorem entryCpu_called (hlen : len ≤ 65536) : EntryCalled bin len 0 (entryCpu bin) where
  loaded := ⟨fun x hx => by rw [Nat.zero_add]; exact setWord_out (Or.inl (by omega)), by omega⟩
  rip := rfl
  outside h := by
    have hlt := h.2
    rw [entryCpu_link] at hlt
    have htop : (200000 : BitVec 64).toNat = 200000 := rfl
    omega

theorem callMain_listing : listing .zero callMain =
    [.func ['f'], .op .push_rbp, .op .mov_rsp_rbp, .ins ⟨.sub_rsp, 32⟩, .op .leave, .op .ret,
      .func ['m', 'a', 'i', 'n'], .op .push_rbp, .op .mov_rsp_rbp, .ins ⟨.sub_rsp, 32⟩, .visit, .visit,
      .call ['f'], .op .push_rax, .op .leave, .op .ret] := rfl

theorem callMain_fits : Fits (listing .zero callMain) where
  rooms := by decide
  strings := by decide
  calls name hname := by
    rw [callMain_listing] at hname ⊢
    have hf : name = ['f'] := by simpa using hname
    rw [hf]
    exact ⟨64, List.mem_cons_self ..⟩

theorem sumMain_listing : listing .zero sumMain =
    [.func ['m', 'a', 'i', 'n'], .op .push_rbp, .op .mov_rsp_rbp, .ins ⟨.sub_rsp, 32⟩, .visit, .visit,
      .visit, .ins ⟨.movabs_rax, 1⟩, .op .push_rax, .visit, .ins ⟨.movabs_rax, 2⟩, .op .push_rax,
      .op .pop_rbx, .op .pop_rax, .op .add_rbx_rax, .op .push_rax, .op .leave, .op .ret] := rfl

theorem sumMain_fits : Fits (listing .zero sumMain) where
  rooms := by decide
  strings := by decide
  calls name hname := by
    rw [sumMain_listing] at hname
    simp at hname

/-- A call of a function on the way is careful. -/
theorem callMain_preserved : ∃ d, d.rip = 200000 ∧
    Preserved (entryCpu (codegen_x86_emit .zero callMain none 0 .zero).1) d := by
  have hend : (walkFor 0 (codegen_x86_emit .zero callMain none 0 .zero).2.1
      (Careful 0 (codegen_x86_emit .zero callMain none 0 .zero).2.1) 12
      (entryCpu (codegen_x86_emit .zero callMain none 0 .zero).1) [130000]).map (fun r => r.1.rip) =
      some 200000 := by
    decide +kernel
  obtain ⟨r, hrun, hrip⟩ := Option.map_eq_some_iff.mp hend
  exact ⟨r.1, hrip, registers_preserved .zero callMain none 0 .zero callMain_fits (Or.inr fun _ => rfl)
    ⟨_, List.mem_cons_self .., rfl⟩ 0 _ r.1 r.2 (entryCpu_called (binary_len ..)) (walk_of_walkFor hrun)
    (hrip.trans entryCpu_link.symm)⟩

/-- The sum takes the register of its caller. -/
theorem rbx_lost : ¬ ∀ (A : Addresses) (gt : List Node) (mod_name : Option Name) (mod_type : BitVec 32)
    (g : Gen), Fits (listing A gt) → (noTest (listing A gt) ∨ ∀ i, (g.fixups i).is_func_call = false) →
    (∃ q ∈ gt, Function q) → ∀ (base : Nat) (c d : Cpu) (saved : List (BitVec 64)),
    EntryCalled (codegen_x86_emit A gt mod_name mod_type g).1
      (codegen_x86_emit A gt mod_name mod_type g).2.1 base c →
    Walk base (codegen_x86_emit A gt mod_name mod_type g).2.1 (fun _ _ => True) c [c.rsp] d saved →
    d.rip = c.link → Preserved c d := by
  intro hall
  have hend : (walkFor 0 (codegen_x86_emit .zero sumMain none 0 .zero).2.1 (fun _ _ => True) 13
      (entryCpu (codegen_x86_emit .zero sumMain none 0 .zero).1) [130000]).map
        (fun r => (r.1.rip, r.1.rbx)) = some (200000, 2) := by
    decide +kernel
  obtain ⟨r, hrun, hr⟩ := Option.map_eq_some_iff.mp hend
  obtain ⟨hrip, hrbx⟩ := Prod.mk.inj hr
  have hkept := hall .zero sumMain none 0 .zero sumMain_fits (Or.inr fun _ => rfl)
    ⟨_, List.mem_cons_self .., rfl⟩ 0 _ r.1 r.2 (entryCpu_called (binary_len ..)) (walk_of_walkFor hrun)
    (hrip.trans entryCpu_link.symm)
  have hsame : r.1.rbx = 77 := hkept.rbx
  rw [hrbx] at hsame
  exact absurd hsame (by decide)

end Eke
