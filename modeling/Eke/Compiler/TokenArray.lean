/-
The array of the tokens.

`pushToken` writes four `int`s behind the last token and, when there is room for one more only,
has the array copied into one of twice the capacity.  The old array stays where it is, as the arena
gives nothing back.  When there is no room for the new one `tokens` is the null pointer, and the next
push would write through it; there is no value then.
-/
import Eke.Compiler.Arena
import Eke.Compiler.Lexer

namespace Eke

/-- A `Token` of `lexer.h`. -/
structure IntToken where
  type : BitVec 32
  ind : BitVec 32
  len : BitVec 32
  line : BitVec 32
  deriving DecidableEq

/-- The variables of `lexer.c`; no capacity that can be allocated comes near the end of `int`. -/
structure TokenArray where
  arena : Arena
  tokens : Option Nat
  tp : Nat
  cap : Nat

namespace TokenArray

open Store

def writeToken (m : Store) (a : Nat) (t : IntToken) : Store :=
  (((m.setLe a 4 t.type.toNat).setLe (a + 4) 4 t.ind.toNat).setLe (a + 8) 4 t.len.toNat).setLe (a + 12) 4
    t.line.toNat

def readToken (m : Store) (a : Nat) : IntToken where
  type := BitVec.ofNat 32 (m.le a 4)
  ind := BitVec.ofNat 32 (m.le (a + 4) 4)
  len := BitVec.ofNat 32 (m.le (a + 8) 4)
  line := BitVec.ofNat 32 (m.le (a + 12) 4)

def pushToken (s : TokenArray) (t : IntToken) : Option TokenArray :=
  match s.tokens with
  | none => none
  | some o =>
      let arena := { s.arena with comp_arena := writeToken s.arena.comp_arena (o + 16 * s.tp) t }
      let tp := s.tp + 1
      if s.cap ≤ tp + 1 then
        let cap := s.cap * 2
        let r := arena.comp_realloc s.tokens (BitVec.ofNat 64 (16 * cap))
        some ⟨r.2, r.1, tp, cap⟩
      else some ⟨arena, s.tokens, tp, s.cap⟩

/-- What `init_lexer` does in front of its loop. -/
def empty (a : Arena) : TokenArray :=
  let cap := 128
  let r := a.comp_calloc 1 (BitVec.ofNat 64 (16 * cap))
  ⟨r.2, r.1, 0, cap⟩

/-- `tokens[0]` to `tokens[tp - 1]` -/
def list (s : TokenArray) (o : Nat) : List IntToken :=
  (List.range s.tp).map fun i => readToken s.arena.comp_arena (o + 16 * i)

variable {m m' : Store} {a b o : Nat} {s s' : TokenArray} {t : IntToken} {ts : List IntToken}

/-! ### One token -/

theorem writeToken_out {x : Nat} (h : x < a ∨ a + 16 ≤ x) : writeToken m a t x = m x := by
  unfold writeToken
  rw [setLe_out (by omega), setLe_out (by omega), setLe_out (by omega), setLe_out (by omega)]

theorem readToken_congr (h : ∀ i < 16, m (a + i) = m' (b + i)) : readToken m a = readToken m' b := by
  have hpart : ∀ j, j + 4 ≤ 16 → m.le (a + j) 4 = m'.le (b + j) 4 := by
    intro j hj
    refine le_congr_at fun i hi => ?_
    have hbyte := h (j + i) (by omega)
    rwa [← Nat.add_assoc, ← Nat.add_assoc] at hbyte
  have hfirst := hpart 0 (by omega)
  rw [Nat.add_zero, Nat.add_zero] at hfirst
  unfold readToken
  rw [hfirst, hpart 4 (by omega), hpart 8 (by omega), hpart 12 (by omega)]

theorem read_int {v : BitVec 32} : BitVec.ofNat 32 ((m.setLe a 4 v.toNat).le a 4) = v := by
  rw [le_setLe_of_lt v.isLt, BitVec.ofNat_toNat, BitVec.setWidth_eq]

theorem readToken_writeToken : readToken (writeToken m a t) a = t := by
  unfold readToken writeToken
  congr 1
  · rw [le_setLe_out (by omega), le_setLe_out (by omega), le_setLe_out (by omega), read_int]
  · rw [le_setLe_out (by omega), le_setLe_out (by omega), read_int]
  · rw [le_setLe_out (by omega), read_int]
  · rw [read_int]

/-! ### Pushing -/

/-- The array is at `o`, holds `ts` and has room for one more; nothing else goes where it is. -/
structure Stores (s : TokenArray) (o : Nat) (ts : List IntToken) : Prop where
  tokens : s.tokens = some o
  count : s.tp = ts.length
  room : s.tp + 1 < s.cap
  block : o + 16 * s.cap ≤ s.arena.comp_arena_offset.toNat
  bound : s.arena.comp_arena_offset.toNat ≤ 524288
  read : ∀ i (h : i < ts.length), readToken s.arena.comp_arena (o + 16 * i) = ts[i]

/-- The array is empty when there is one. -/
theorem empty_stores {a : Arena} (hbound : a.comp_arena_offset.toNat ≤ 524288)
    (h : (empty a).tokens = some o) : (empty a).Stores o [] := by
  have hempty : empty a = ⟨(a.comp_calloc 1 2048).2, (a.comp_calloc 1 2048).1, 0, 128⟩ := rfl
  have hup : Arena.roundUp ((1 : BitVec 64).toNat * (2048 : BitVec 64).toNat) = 2048 := rfl
  have hcases := Arena.calloc_cases 1 2048 hbound (by decide)
  rw [hup] at hcases
  rw [hempty] at h ⊢
  rcases hcases with ⟨-, hno⟩ | ⟨hroom, o', ho', hyes⟩
  · rw [hno] at h
    cases h
  · rw [hyes] at h ⊢
    obtain rfl := Option.some.inj h
    refine ⟨rfl, rfl, ?_, Nat.le_of_eq ho'.symm, ho'.trans_le hroom, ?_⟩
    · show 0 + 1 < 128
      decide
    intro i hi
    exact absurd hi (Nat.not_lt_zero i)

/-- A token that is written behind the others leaves them. -/
theorem Stores.write (h : s.Stores o ts) : ∀ i (hi : i < (ts ++ [t]).length),
    readToken (writeToken s.arena.comp_arena (o + 16 * s.tp) t) (o + 16 * i) = (ts ++ [t])[i] := by
  intro i hi
  have hcount := h.count
  rw [List.length_append, List.length_singleton] at hi
  rcases Nat.lt_succ_iff_lt_or_eq.mp hi with hlt | rfl
  · rw [List.getElem_append_left hlt, ← h.read i hlt]
    exact readToken_congr fun j hj => writeToken_out (by omega)
  · rw [List.getElem_append_right (Nat.le_refl _), hcount]
    simp [readToken_writeToken]

/-- The array is copied into one of twice the capacity, if there is room for it. -/
theorem Stores.grow {A : Arena} {off c : Nat} (hA : A.comp_arena_offset.toNat = off) (hoff : off ≤ 524288)
    (hblock : o + 16 * c ≤ off) (hlen : ts.length < c)
    (hread : ∀ i (h : i < ts.length), readToken A.comp_arena (o + 16 * i) = ts[i]) :
    let r := A.comp_realloc (some o) (BitVec.ofNat 64 (16 * (c * 2)))
    r.1 = none ∨ ∃ o', Stores ⟨r.2, r.1, ts.length, c * 2⟩ o' ts := by
  have hsize : (BitVec.ofNat 64 (16 * (c * 2))).toNat = 16 * (c * 2) := by
    rw [BitVec.toNat_ofNat]
    exact Nat.mod_eq_of_lt (by omega)
  have hup : Arena.roundUp (16 * (c * 2)) = 16 * (c * 2) := by
    unfold Arena.roundUp
    omega
  have hcases := Arena.realloc_cases (some o) (BitVec.ofNat 64 (16 * (c * 2)))
    (hA.trans_le hoff) (by rw [hsize]; unfold Arena.LARGEST; omega)
  rw [hsize, hup, hA] at hcases
  rcases hcases with ⟨-, hno⟩ | ⟨hroom, o', ho', hyes⟩
  · exact .inl (by rw [hno])
  · rw [hyes]
    refine .inr ⟨off, rfl, rfl, ?_, Nat.le_of_eq ho'.symm, ho'.trans_le hroom, ?_⟩
    · show ts.length + 1 < c * 2
      omega
    · intro i hi
      rw [← hread i hi]
      refine readToken_congr fun j hj => ?_
      rw [Nat.add_assoc, Nat.add_assoc]
      exact Arena.copied_in (by omega) (by omega)

/-- A push writes one token, and moves the array if it does not fail. -/
theorem Stores.push (h : s.Stores o ts) (hpush : s.pushToken t = some s') :
    s'.tokens = none ∨ ∃ o', s'.Stores o' (ts ++ [t]) := by
  have hcount : s.tp + 1 = (ts ++ [t]).length := by
    rw [List.length_append, List.length_singleton, h.count]
  have hroom := h.room
  unfold pushToken at hpush
  rw [h.tokens] at hpush
  simp only [] at hpush
  split_ifs at hpush with hfull
  · obtain rfl := Option.some.inj hpush
    rw [hcount]
    exact Stores.grow rfl h.bound h.block (by omega) h.write
  · obtain rfl := Option.some.inj hpush
    exact .inr ⟨o, rfl, hcount, Nat.lt_of_not_le hfull, h.block, h.bound, h.write⟩

/-- Pushes one after the other; only the last one can have failed. -/
theorem Stores.pushes : ∀ {ts front : List IntToken} {s : TokenArray} {o : Nat}, s.Stores o front →
    ts.foldlM pushToken s = some s' → s'.tokens = none ∨ ∃ o', s'.Stores o' (front ++ ts) := by
  intro ts
  induction ts with
  | nil =>
      intro front s o h hs
      obtain rfl := Option.some.inj hs
      rw [List.append_nil]
      exact .inr ⟨o, h⟩
  | cons t ts ih =>
      intro front s o h hs
      rw [List.foldlM_cons] at hs
      obtain ⟨s₁, hpush, hrest⟩ := Option.bind_eq_some_iff.mp hs
      rcases h.push hpush with hnone | ⟨o₁, h₁⟩
      · -- the next push would have no value
        cases ts with
        | nil =>
            obtain rfl := Option.some.inj hrest
            exact .inl hnone
        | cons t' ts =>
            rw [List.foldlM_cons] at hrest
            obtain ⟨s₂, hpush, -⟩ := Option.bind_eq_some_iff.mp hrest
            unfold pushToken at hpush
            rw [hnone] at hpush
            cases hpush
      · have hall := ih h₁ hrest
        rwa [List.append_assoc] at hall

/-- What is stored is read back. -/
theorem Stores.list (h : s.Stores o ts) : s.list o = ts := by
  unfold TokenArray.list
  rw [h.count]
  refine List.ext_getElem (by simp) fun i hi hi' => ?_
  rw [List.getElem_map, List.getElem_range]
  exact h.read i hi'

/-! ### The tokens of a text -/

/-- The `int`s that are pushed for a token. -/
def ints (t : LexToken) : IntToken :=
  ⟨BitVec.ofInt 32 t.type, BitVec.ofNat 32 t.ind, BitVec.ofNat 32 t.len, BitVec.ofNat 32 t.line⟩

/-- The loop of `init_lexer` pushes one token after the other and takes nothing else of the arena. -/
def init_lexer (a : Arena) (c : Name) : Option TokenArray := do
  let lts ← Lexer.init_lexer c
  (lts.map ints).foldlM pushToken (empty a)

/-- From an empty array. -/
theorem pushes_list {a : Arena} (hbound : a.comp_arena_offset.toNat ≤ 524288)
    (hs : ts.foldlM pushToken (empty a) = some s) (ho : s.tokens = some o) :
    s.list o = ts ∧ s.tp + 1 < s.cap := by
  have hstores : s.tokens = none ∨ ∃ o', s.Stores o' ([] ++ ts) := by
    cases hempty : (empty a).tokens with
    | some o₀ => exact (empty_stores hbound hempty).pushes hs
    | none =>
        cases ts with
        | nil =>
            obtain rfl := Option.some.inj hs
            exact .inl hempty
        | cons t ts =>
            rw [List.foldlM_cons] at hs
            obtain ⟨s₁, hpush, -⟩ := Option.bind_eq_some_iff.mp hs
            unfold pushToken at hpush
            rw [hempty] at hpush
            cases hpush
  rcases hstores with hnone | ⟨o', h⟩
  · rw [hnone] at ho
    cases ho
  · obtain rfl := Option.some.inj (h.tokens.symm.trans ho)
    exact ⟨h.list, h.room⟩

/-- The array holds what the lexer finds. -/
theorem init_lexer_list {a : Arena} {c : Name} (hbound : a.comp_arena_offset.toNat ≤ 524288)
    (hs : init_lexer a c = some s) (ho : s.tokens = some o) :
    ∃ lts, Lexer.init_lexer c = some lts ∧ s.list o = lts.map ints := by
  obtain ⟨lts, hlex, hpushes⟩ := Option.bind_eq_some_iff.mp hs
  exact ⟨lts, hlex, (pushes_list hbound hpushes ho).1⟩

/-! ### The arena and the array -/

open Arena

/-- Blocks are in the arena, aligned, apart and zeroed, a block that is moved keeps its bytes, and no
other byte changes; so the pushed tokens are all in the array, which has room for one more. -/
theorem blocks_and_tokens (a : Arena) (es : List Request) (hes : ∀ e ∈ es, Lent.Moderate e) :
    Throughout Lent.next Lent.Sound (Lent.start a) es ∧
    ∀ (ts : List IntToken) (s : TokenArray) (o : Nat),
      ts.foldlM pushToken (empty (es.foldl Lent.next (Lent.start a)).arena) = some s → s.tokens = some o →
      s.list o = ts ∧ s.tp + 1 < s.cap := by
  obtain ⟨hsound, hshaped⟩ := (Lent.start_shaped a).run hes
  exact ⟨hsound, fun ts s o hs ho => pushes_list hshaped.bound hs ho⟩

def dirty : Arena := ⟨fun _ => 0xCC, 77⟩

def requests : List Request := [.calloc 3 4, .write 5 0x41, .realloc (some 0) 40]

def pushed : List IntToken := [⟨256, 0, 1, 1⟩, ⟨59, 1, 1, 1⟩]

/-- A block of twelve bytes moves into one of forty, and two tokens are pushed behind both. -/
theorem blocks_and_tokens_two : Throughout Lent.next Lent.Sound (Lent.start dirty) requests ∧
    ∃ s o, pushed.foldlM pushToken (empty (requests.foldl Lent.next (Lent.start dirty)).arena) = some s ∧
      s.tokens = some o ∧ s.list o = pushed ∧ s.tp + 1 < s.cap := by
  have hmoderate : ∀ e ∈ requests, Lent.Moderate e := by
    intro e he
    simp only [requests, List.mem_cons, List.not_mem_nil, or_false] at he
    rcases he with rfl | rfl | rfl
    · exact (by decide : 3 * 4 ≤ LARGEST)
    · trivial
    · exact (by decide : 40 ≤ LARGEST)
  have hrun : ((pushed.foldlM pushToken
      (empty (requests.foldl Lent.next (Lent.start dirty)).arena)).bind fun s => s.tokens) = some 56 := by
    decide
  obtain ⟨s, hs, ho⟩ := Option.bind_eq_some_iff.mp hrun
  obtain ⟨hsound, harray⟩ := blocks_and_tokens dirty requests hmoderate
  exact ⟨hsound, s, 56, hs, ho, harray pushed s 56 hs ho⟩

end TokenArray

end Eke
