/-
The list of parameters of a function.

It is the one loop of the parser that may go on without reading a token, and the only thing
that keeps the parser from coming to an end.  Whether it does is said of the states in front
of its rounds: those the parser comes to are the `Rounds` of the loop over the text, up to
the header of a function, and the rounds of the list behind it.
-/
import Eke.Compiler.Termination

namespace Eke

namespace Parser

open Prog

/-! ### The parts of a function -/

/-- What stands in front of the parameters of a function: its type, its name and the
parenthesis.  The number is that of its entry. -/
def header : P (Token × Token × Nat) := do
  let t ← peek
  if ← is_type t.type then do
    let rt ← advance
    let f_tok ← consume T_IDENTIFIER
    let gt ← gt_count
    add_to_symtab f_tok gt 1 gt rt.type 0
    update fun s => { s with bp := -12 }
    let _ ← consume '('.toNat
    pure (rt, f_tok, gt)
  else exit 1

/-- A round of the loop over the parameters, from the question on whether a type comes next. -/
def paramsStep (r : Calls) (gt_index : Int) (d : List Node × Int) (typed : Bool) :
    P ((List Node × Int) ⊕ (List Node × Int)) := do
  let args ← (if typed then do
      let a ← param r gt_index
      pure (d.1 ++ [a])
    else pure d.1 : P (List Node))
  skip ','.toNat
  pure (.inl (args, int32 (d.2 + 1)))

def paramsRound (r : Calls) (gt_index : Int) (d : List Node × Int) :
    P ((List Node × Int) ⊕ (List Node × Int)) := do
  if ← match_ ')'.toNat then pure (.inr d) else do
    let t ← peek
    let typed ← is_type t.type
    paramsStep r gt_index d typed

/-- What comes behind the parameters. -/
def functionRest (r : Calls) (h : Token × Token × Nat) (d : List Node × Int) : P Node := do
  let _ ← consume ')'.toNat
  if ← match_ ';'.toNat then do
    let _ ← consume ';'.toNat
    pure (.mk 0 (.func h.2.1.name (chain d.1) .null h.1.type 0 d.2) .null .null)
  else do
    update fun s => { s with bp := 0 }
    let body ← parse_block r
    let localvarbyte ← gets fun s => s.bp
    pure (.mk 0 (.func h.2.1.name (chain d.1) body h.1.type localvarbyte d.2) .null .null)

variable {r : Calls} {s t u : Parser} {k : Nat}

theorem params_eq (r : Calls) (gt_index : Int) :
    params r gt_index = cycle r.fuel (paramsRound r gt_index) ([], 0) := rfl

theorem parse_function_eq (r : Calls) :
    parse_function r = header >>= fun h => params r h.2.2 >>= functionRest r h := by
  unfold parse_function header
  rw [bind_assoc]
  refine congrArg _ (funext fun t => ?_)
  rw [bind_assoc]
  refine congrArg _ (funext fun b => ?_)
  cases b with
  | false => rfl
  | true =>
      simp only [if_true, bind_assoc]
      rfl

theorem paramsRound_under {r' : Calls} (h : CallsUnder r r') (gt_index : Int) (d : List Node × Int) :
    Under (paramsRound r gt_index d) (paramsRound r' gt_index d) := by
  apply under_then
  intro b
  split
  · exact .refl _
  · refine under_then fun t => under_then fun typed => under_first ?_
    split
    · exact under_first (param_under h gt_index)
    · exact .refl _

/-! ### Types -/

theorem structAmong_leans (name : Name) : ∀ is : List Nat,
    structAmong { s with leans := true } name is = structAmong s name is := by
  intro is
  induction is with
  | nil => rfl
  | cons i is ih =>
      unfold structAmong
      rw [ih]

theorem find_struct_ok {name : Name} {id : Int} (h : find_struct name s = .ok id t) :
    t = { s with leans := true } ∧ find_struct name t = .ok id t := by
  obtain ⟨found, u, hfound, h⟩ := bind_ok_iff.mp h
  obtain ⟨hs, rfl⟩ := Out.ok.inj hfound
  cases found with
  | none => cases h
  | some id' =>
      cases h
      refine ⟨rfl, (bind_of_ok (a := some id) ?_).trans rfl⟩
      refine congrArg (fun found => Out.ok found _) ?_
      exact (structAmong_leans name _).trans hs

/-- Looking for a type leaves the parser as it was, but for the note that it read the structs. -/
theorem is_type_ok {type : Int} {b : Bool} (h : is_type type s = .ok b t) :
    (t = s ∨ t = { s with leans := true }) ∧ is_type type t = .ok b t := by
  unfold is_type at h ⊢
  split at h
  · rename_i hword
    cases h
    rw [if_pos hword]
    exact ⟨.inl rfl, rfl⟩
  rename_i hword
  rw [if_neg hword]
  split at h
  · rename_i hid
    obtain ⟨p, u, hp, h⟩ := bind_ok_iff.mp h
    obtain ⟨rfl, rfl⟩ := Out.ok.inj hp
    obtain ⟨id, u, hfound, h⟩ := bind_ok_iff.mp h
    obtain ⟨rfl, rfl⟩ := Out.ok.inj h
    obtain ⟨rfl, hagain⟩ := find_struct_ok hfound
    rw [if_pos hid]
    have hpeek : peek { s with leans := true } = .ok (tokenAt s s.tp1) { s with leans := true } := rfl
    exact ⟨.inr rfl, (bind_of_ok hpeek).trans (bind_of_ok hagain)⟩
  · rename_i hid
    cases h
    rw [if_neg hid]
    exact ⟨.inl rfl, rfl⟩

theorem is_type_same {type : Int} {b : Bool} (h : is_type type s = .ok b t) :
    remaining t = remaining s ∧ tokenType t t.tp1 = tokenType s s.tp1 := by
  obtain ⟨hstate, -⟩ := is_type_ok h
  rcases hstate with rfl | rfl
  · exact ⟨rfl, rfl⟩
  · exact ⟨rfl, rfl⟩

/-! ### Rounds of the list -/

/-- The next token neither closes the list of parameters nor starts a type nor is a comma. -/
structure Idle (s : Parser) : Prop where
  close : tokenType s s.tp1 ≠ ')'.toNat
  comma : tokenType s s.tp1 ≠ ','.toNat
  type : ∃ t, is_type (tokenType s s.tp1) s = .ok false t

theorem paramsRound_close (h : tokenType s s.tp1 = ')'.toNat) (gt_index : Int) (d : List Node × Int) :
    paramsRound r gt_index d s = .ok (.inr d) s := by
  show (if decide ((')'.toNat : Int) = tokenType s s.tp1) = true then
    (pure (.inr d) : P ((List Node × Int) ⊕ (List Node × Int))) else _) s = _
  rw [if_pos (decide_eq_true h.symm)]
  rfl

theorem paramsRound_open (h : tokenType s s.tp1 ≠ ')'.toNat) (gt_index : Int) (d : List Node × Int) :
    paramsRound r gt_index d s = (is_type (tokenType s s.tp1) >>= paramsStep r gt_index d) s := by
  show (if decide ((')'.toNat : Int) = tokenType s s.tp1) = true then _ else
    peek >>= fun t => is_type t.type >>= paramsStep r gt_index d : P _) s = _
  rw [if_neg (by simpa using h.symm)]
  rfl

theorem skip_other {type : Int} (h : tokenType s s.tp1 ≠ type) : skip type s = .ok () s := by
  show (if decide (type = tokenType s s.tp1) = true then _ else pure () : P Unit) s = _
  rw [if_neg (by simpa using h.symm)]
  rfl

theorem skip_eats {type : Int} (h : tokenType s s.tp1 = type) (htype : type ≠ T_EOF) :
    (skip type s).Halts fun _ t => remaining t < remaining s := by
  have hskip : skip type s = (consume type >>= fun _ => pure ()) s := by
    show (if decide (type = tokenType s s.tp1) = true then _ else pure () : P Unit) s = _
    rw [if_pos (decide_eq_true h.symm)]
  rw [hskip]
  exact ((consume_eats htype).bind fun j _ _ => halts_pure _) s (Nat.le_refl _)

/-- A round that does nothing leads to another one. -/
theorem Idle.round (h : Idle s) (gt_index : Int) (d : List Node × Int) :
    ∃ d' t, paramsRound r gt_index d s = .ok (.inl d') t ∧ Idle t := by
  obtain ⟨t, ht⟩ := h.type
  obtain ⟨-, htype⟩ := is_type_same ht
  refine ⟨(d.1, int32 (d.2 + 1)), t, ?_, ⟨?_, ?_, t, ?_⟩⟩
  · rw [paramsRound_open h.close, bind_of_ok ht]
    exact bind_of_ok (skip_other (by rw [htype]; exact h.comma))
  · rw [htype]
    exact h.close
  · rw [htype]
    exact h.comma
  · rw [htype]
    exact (is_type_ok ht).2

theorem param_eats (hfuel : k < r.fuel) (gt_index : Int) : Eats remaining k (param r gt_index) := by
  refine advance_eats.bind fun j hj t => Halts.bind ?_ fun ty => (stars_halts (Nat.lt_trans hj hfuel)).bind
    fun count => (consume_halts _).bind fun a_tok => (halts_gets _).bind fun bp =>
      (add_to_symtab_halts _ _ _ _ _ _).bind fun _ => (halts_gets _).bind fun id =>
        (modifySymbol_halts _ _).bind fun _ => (setBp_halts fun z => int32 (z - 4)).bind fun _ =>
          (halts_gets _).bind fun token_id => halts_pure _
  unfold paramStruct
  split
  · refine Halts.bind ?_ fun rt => (find_struct_halts _).bind fun id => ?_
    · split
      · exact consume_halts _
      · exact halts_pure t
    split
    · exact exit_halts 1
    · exact halts_pure _
  · exact halts_pure _

/-- Every other round reads a token or is the last one. -/
theorem paramsRound_halts (hfuel : k < r.fuel) (gt_index : Int) (d : List Node × Int)
    (hs : remaining s ≤ k) (hidle : ¬ Idle s) :
    (paramsRound r gt_index d s).Halts fun c t =>
      remaining t ≤ remaining s ∧ ∀ b, c = .inl b → remaining t < remaining s := by
  by_cases hclose : tokenType s s.tp1 = ')'.toNat
  · rw [paramsRound_close hclose]
    exact ⟨Nat.le_refl _, nofun⟩
  rw [paramsRound_open hclose]
  apply bind_halts (is_type_halts (tokenType s s.tp1) s hs)
  intro typed t ht _
  obtain ⟨hleft, htype⟩ := is_type_same ht
  have hstep : (paramsStep r gt_index d typed t).Halts fun _ u => remaining u < remaining t := by
    cases typed with
    | true =>
        have hparam : Eats remaining k (param r gt_index >>= fun a => pure (d.1 ++ [a])) :=
          (param_eats hfuel gt_index).bind fun j _ a => halts_pure _
        exact (hparam.bind fun j _ args => (skip_halts _).bind fun _ => halts_pure _) t
          (by rw [hleft]; exact hs)
    | false =>
        have hcomma : tokenType t t.tp1 = ','.toNat := by
          by_contra hcomma
          exact hidle ⟨hclose, fun h => hcomma (htype.trans h), t, ht⟩
        apply bind_halts (skip_eats hcomma (by decide))
        intro _ u _ hu
        exact hu
  apply hstep.mono
  intro _ u hu
  rw [hleft] at hu
  exact ⟨Nat.le_of_lt hu, fun _ _ => hu⟩

/-- A list of parameters ends unless it comes to a round that does nothing. -/
theorem params_halts (hfuel : k < r.fuel) (gt_index : Int) (hs : remaining s ≤ k) :
    (∃ d t, Rounds (paramsRound r gt_index) (([], 0), s) (d, t) ∧ Idle t) ∨
      (params r gt_index s).Halts fun _ t => remaining t ≤ remaining s := by
  rw [params_eq]
  have h := cycle_halts (fun _ => Idle) (fun d s hs => paramsRound_halts hfuel gt_index d hs) r.fuel
    ([], 0) s hs (Nat.lt_of_le_of_lt hs hfuel)
  obtain ⟨d, t, hrounds, -, hidle⟩ | hend := h
  · exact .inl ⟨d, t, hrounds, hidle⟩
  · exact .inr hend

/-- A list that comes to a round that does nothing never ends. -/
theorem params_endless {gt_index : Int} {d : List Node × Int}
    (hrounds : Rounds (paramsRound r gt_index) (([], 0), s) (d, t)) (hidle : Idle t) :
    ∃ u, params r gt_index s = .more u := by
  rw [params_eq]
  refine hrounds.endless (fun n => ?_) r.fuel
  exact cycle_endless (P := fun _ => Idle) (fun d s hs => hs.round gt_index d) n d t hidle

/-! ### Functions -/

/-- In front of a function in the state `s` the parser goes on to a round of its list of
parameters, in the state `t`. -/
def InList (r : Calls) (s t : Parser) : Prop :=
  ∃ h u d, header s = .ok h u ∧ Rounds (paramsRound r h.2.2) (([], 0), u) (d, t)

theorem header_eats : Eats remaining k header := by
  refine (halts_gets _).bind_eats fun t => (is_type_halts _).bind_eats fun b => ?_
  split
  · exact advance_eats.bind fun j _ rt => (consume_halts _).bind fun f_tok =>
      (halts_gets _).bind fun gt => (add_to_symtab_halts _ _ _ _ _ _).bind fun _ =>
        (setBp_halts fun _ => -12).bind fun _ => (consume_halts _).bind fun _ => halts_pure _
  · exact eats_exit 1

theorem functionRest_halts (hr : CallsEat k r) (h : Token × Token × Nat) (d : List Node × Int) :
    Halts remaining k (functionRest r h d) := by
  refine (consume_halts _).bind fun _ => (halts_gets _).bind fun b => ?_
  split
  · exact (consume_halts _).bind fun _ => halts_pure _
  · have hblock := parse_block_eats (k := k) fun j hj => hr.at_most (Nat.le_of_lt hj)
    exact (setBp_halts fun _ => 0).bind fun _ => hblock.halts.bind fun body =>
      (halts_gets _).bind fun localvarbyte => halts_pure _

/-- A function ends unless its list of parameters comes to a round that does nothing. -/
theorem parse_function_halts (hr : CallsEat k r) (hs : remaining s ≤ k) :
    (∃ t, InList r s t ∧ Idle t) ∨
      (parse_function r s).Halts fun _ t => remaining t < remaining s := by
  rw [parse_function_eq]
  apply bind_halts_or (header_eats s hs)
  intro h u hh hless
  have hu : remaining u ≤ k := Nat.le_trans (Nat.le_of_lt hless) hs
  obtain ⟨d, t, hrounds, hidle⟩ | hparams := params_halts hr.fuel h.2.2 hu
  · exact .inl ⟨t, ⟨h, u, d, hh, hrounds⟩, hidle⟩
  refine .inr (bind_halts hparams fun d v _ hv => ?_)
  have hrest := functionRest_halts hr h d v (Nat.le_trans hv hu)
  exact hrest.mono fun _ w hw => Nat.lt_of_le_of_lt (Nat.le_trans hw hv) hless

/-! ### The text -/

/-- Behind the question on whether a type comes next the same function is in front. -/
theorem header_of_type {b : Bool} (h : is_type (tokenType s s.tp1) s = .ok b t) : header t = header s := by
  obtain ⟨-, htype⟩ := is_type_same h
  show (is_type (tokenType t t.tp1) >>= _) t = (is_type (tokenType s s.tp1) >>= _) s
  rw [htype, bind_of_ok (is_type_ok h).2, bind_of_ok h]

/-- What a round does where a type comes next. -/
def declared (r : Calls) (ahead : Int) : P Bool := do
  let n ← (if ahead = '('.toNat then parse_function r else parse_global_declaration r : P Node)
  append_node n
  pure true

theorem topLevel_eq (r : Calls) (s : Parser) :
    topLevel r s = (if tokenType s s.tp1 = T_EOF then (pure false : P Bool)
      else if tokenType s s.tp1 = K_STRUCT ∧ tokenType s (s.tp1 + 2) = '{'.toNat then
        parse_struct_def r >>= fun _ => pure true
      else if tokenType s s.tp1 = K_TYPEDEF then parse_typedef r >>= fun _ => pure true
      else is_type (tokenType s s.tp1) >>= fun b => if b = true then declared r (tokenType s (s.tp1 + 2))
        else update (fun s => { s with tp1 := s.tp1 + 1 }) >>= fun _ => pure true) s := rfl

theorem declared_halts (hr : CallsEat k r) (ahead : Int) (hs : remaining s ≤ k) :
    (∃ t, InList r s t ∧ Idle t) ∨ (declared r ahead s).Halts fun _ t => remaining t < remaining s := by
  have hn : (∃ t, InList r s t ∧ Idle t) ∨
      ((if ahead = '('.toNat then parse_function r else parse_global_declaration r : P Node) s).Halts
        fun _ t => remaining t < remaining s := by
    split
    · exact parse_function_halts hr hs
    · have hr : ∀ j < k, ExpressionsEat j r := fun j hj => hr.toExpressionsEat.at_most (Nat.le_of_lt hj)
      exact .inr (parse_global_declaration_eats hr s hs)
  obtain hlist | hn := hn
  · exact .inl hlist
  refine .inr (bind_halts hn fun n t _ ht => ?_)
  have happend : Halts remaining k (append_node n >>= fun _ => pure true) :=
    (append_node_halts n).bind fun _ => halts_pure _
  apply (happend t (Nat.le_trans (Nat.le_of_lt ht) hs)).mono
  intro _ u hu
  exact Nat.lt_of_le_of_lt hu ht

/-- A round over the text reads a token or is the last one, unless it comes to a list with a
round that does nothing. -/
theorem topLevel_halts (hr : CallsEat k r) (hs : remaining s ≤ k) :
    (∃ t, InList r s t ∧ Idle t) ∨
      (topLevel r s).Halts fun b t =>
        remaining t ≤ remaining s ∧ (b = true → remaining t < remaining s) := by
  have heats : ∀ {o : Out Parser Bool}, o.Halts (fun _ t => remaining t < remaining s) →
      o.Halts fun b t => remaining t ≤ remaining s ∧ (b = true → remaining t < remaining s) := by
    intro o ho
    exact ho.mono fun b t ht => ⟨Nat.le_of_lt ht, fun _ => ht⟩
  rw [topLevel_eq]
  split
  · exact .inr ⟨Nat.le_refl _, nofun⟩
  rename_i hend
  split
  · exact .inr (heats (((parse_struct_def_eats hr.fuel).bind fun j _ _ => halts_pure _) s hs))
  split
  · exact .inr (heats (((parse_typedef_eats hr.fuel).bind fun j _ _ => halts_pure _) s hs))
  apply bind_halts_or (is_type_halts (tokenType s s.tp1) s hs)
  intro b t ht _
  obtain ⟨hleft, htype⟩ := is_type_same ht
  cases b with
  | false =>
      have hless : remaining { t with tp1 := t.tp1 + 1 } < remaining t :=
        remaining_forward (by rw [htype]; exact hend)
      rw [hleft] at hless
      exact .inr (heats hless)
  | true =>
      obtain ⟨u, ⟨h, v, d, hh, hrounds⟩, hidle⟩ | hdeclared :=
        declared_halts hr (tokenType s (s.tp1 + 2)) (Nat.le_trans (Nat.le_of_eq hleft) hs)
      · rw [header_of_type ht] at hh
        exact .inl ⟨u, ⟨h, v, d, hh, hrounds⟩, hidle⟩
      · rw [hleft] at hdeclared
        exact .inr (heats hdeclared)

/-- In the text the parser comes to a round of a list of parameters, in the state `t`. -/
def ComesToList (n : Nat) (tokens : List Token) (s t : Parser) : Prop :=
  ∃ u, Rounds (round (calls n)) ((), begun tokens s) ((), u) ∧ InList (calls n) u t

theorem calls_fuel (n : Nat) : (calls n).fuel = n := by
  cases n with
  | zero => rfl
  | succ n => rfl

/-- With fuel for as many rounds as there are tokens a parse ends, unless it comes to a list
with a round that does nothing. -/
theorem parse_halts {n : Nat} {tokens : List Token} (hn : tokens.length + 1 < n) (s : Parser) :
    (∃ t, ComesToList n tokens s t ∧ Idle t) ∨ ∀ u, parse n tokens s ≠ .more u := by
  have hr : CallsEat tokens.length (calls n) := calls_eat hn
  have hstart : remaining (begun tokens s) ≤ tokens.length := Nat.le_refl _
  have hround : ∀ (b : Unit) (s : Parser), remaining s ≤ tokens.length →
      ¬ (∃ t, InList (calls n) s t ∧ Idle t) → (round (calls n) b s).Halts fun c t =>
        remaining t ≤ remaining s ∧ ∀ b', c = .inl b' → remaining t < remaining s := by
    intro b s hs hlist
    apply bind_halts ((topLevel_halts hr hs).resolve_left hlist)
    intro more t _ ht
    cases more with
    | true => exact ⟨ht.1, fun _ _ => ht.2 rfl⟩
    | false => exact ⟨ht.1, nofun⟩
  have h := cycle_halts _ hround n () (begun tokens s) hstart (by omega)
  obtain ⟨_, u, hrounds, -, t, hlist, hidle⟩ | hend := h
  · exact .inl ⟨t, ⟨u, hrounds, hlist⟩, hidle⟩
  · refine .inr fun u hu => hend.ne_more (t := u) ?_
    rw [parse_eq, topLevels_eq, calls_fuel] at hu
    exact hu

/-! ### Lists that never end -/

theorem is_type_true {type : Int} (h : is_type type s = .ok true t) : Starts type ∧ type ≠ K_TYPEDEF := by
  unfold is_type at h
  split at h
  · rename_i hword
    refine ⟨by unfold Starts; tauto, ?_⟩
    obtain rfl | rfl | rfl | rfl := hword
    · decide
    · decide
    · decide
    · decide
  split at h
  · rename_i hid
    subst hid
    exact ⟨by unfold Starts; tauto, by decide⟩
  · cases h

theorem advance_ok {a : Token} (h : advance s = .ok a t) : t = { s with tp1 := s.tp1 + 1 } := by
  rw [advance_eq] at h
  split at h
  · cases h
    rfl
  · cases h

theorem consume_type {type : Int} {a : Token} (h : consume type s = .ok a t) :
    tokenType s s.tp1 = type := by
  rw [consume_eq] at h
  split at h
  · rename_i heq
    exact heq.symm
  · cases h

theorem add_to_symtab_ok {tok : Token} {bp isg gt data_type lvl : Int} {a : Unit}
    (h : add_to_symtab tok bp isg gt data_type lvl s = .ok a t) : t.tokens = s.tokens ∧ t.tp1 = s.tp1 := by
  change (if s.sp < 1024 ∧ tok.name.length < 64 then update _ else undefined : P Unit) s = _ at h
  split at h
  · cases h
    exact ⟨rfl, rfl⟩
  · cases h

/-- A header that is read: a type comes next, and the parenthesis two tokens behind it. -/
theorem header_ok {h : Token × Token × Nat} (hh : header s = .ok h u) :
    (∃ t, is_type (tokenType s s.tp1) s = .ok true t) ∧ tokenType s (s.tp1 + 2) = '('.toNat := by
  change (is_type (tokenType s s.tp1) >>= _) s = _ at hh
  obtain ⟨b, t, ht, hh⟩ := bind_ok_iff.mp hh
  cases b with
  | false => cases hh
  | true =>
      refine ⟨⟨t, ht⟩, ?_⟩
      obtain ⟨rt, s₁, h₁, hh⟩ := bind_ok_iff.mp hh
      obtain rfl := advance_ok h₁
      obtain ⟨f_tok, s₂, h₂, hh⟩ := bind_ok_iff.mp hh
      obtain rfl := consume_ok h₂
      obtain ⟨gt, s₃, h₃, hh⟩ := bind_ok_iff.mp hh
      obtain ⟨-, rfl⟩ := Out.ok.inj h₃
      obtain ⟨_, s₄, h₄, hh⟩ := bind_ok_iff.mp hh
      obtain ⟨htokens, htp1⟩ := add_to_symtab_ok h₄
      obtain ⟨_, s₅, h₅, hh⟩ := bind_ok_iff.mp hh
      obtain ⟨-, rfl⟩ := Out.ok.inj h₅
      obtain ⟨_, s₆, h₆, hh⟩ := bind_ok_iff.mp hh
      have hparen : tokenType s₄ s₄.tp1 = '('.toNat := consume_type (s := { s₄ with bp := -12 }) h₆
      have hstate := (is_type_ok ht).1
      unfold tokenType tokenAt at hparen ⊢
      rw [htokens, htp1] at hparen
      rcases hstate with rfl | rfl
      · exact hparen
      · exact hparen

theorem topLevel_endless (hlist : InList r s t) (hidle : Idle t) : ∃ u, topLevel r s = .more u := by
  obtain ⟨h, v, d, hh, hrounds⟩ := hlist
  obtain ⟨⟨w, hw⟩, hparen⟩ := header_ok hh
  obtain ⟨hstarts, htypedef⟩ := is_type_true hw
  obtain ⟨u, hu⟩ := params_endless hrounds hidle
  have hend : tokenType s s.tp1 ≠ T_EOF := by
    intro h0
    rw [h0] at hstarts
    revert hstarts
    unfold Starts
    decide
  have hbrace : ¬ (tokenType s s.tp1 = K_STRUCT ∧ tokenType s (s.tp1 + 2) = '{'.toNat) := by
    rw [hparen]
    exact fun h => absurd h.2 (by decide)
  have hfunction : parse_function r w = .more u := by
    rw [parse_function_eq, bind_of_ok ((header_of_type hw).trans hh)]
    exact bind_of_more hu
  refine ⟨u, ?_⟩
  rw [topLevel_eq, if_neg hend, if_neg hbrace, if_neg htypedef, bind_of_ok hw, if_pos rfl, declared,
    if_pos hparen]
  exact bind_of_more hfunction

theorem parse_endless {n : Nat} {tokens : List Token} (hlist : ComesToList n tokens s t) (hidle : Idle t) :
    ∃ u, parse n tokens s = .more u := by
  obtain ⟨v, hrounds, hlist⟩ := hlist
  obtain ⟨u, hu⟩ := topLevel_endless hlist hidle
  have hcycle : ∀ m, ∃ u, cycle m (round (calls n)) () v = .more u := by
    intro m
    cases m with
    | zero => exact ⟨v, rfl⟩
    | succ m => exact ⟨u, bind_of_more (bind_of_more hu)⟩
  exact hrounds.endless hcycle (calls n).fuel

/-- With more fuel the parser comes to the same lists. -/
theorem ComesToList.mono {n m : Nat} {tokens : List Token} (hnm : n ≤ m) (h : ComesToList n tokens s t) :
    ComesToList m tokens s t := by
  have hcalls := calls_under hnm
  obtain ⟨u, hrounds, hd, v, d, hh, hlist⟩ := h
  refine ⟨u, hrounds.mono fun _ => under_first (topLevel_under hcalls), hd, v, d, hh, hlist.mono ?_⟩
  exact paramsRound_under hcalls hd.2.2

/-- A text with such a list keeps the parser busy with any fuel. -/
theorem ComesToList.endless {n : Nat} {tokens : List Token} (h : ComesToList n tokens s t) (hidle : Idle t)
    (m : Nat) : ∃ u, parse m tokens s = .more u := by
  obtain ⟨u, hu⟩ := parse_endless (h.mono (Nat.le_max_left n m)) hidle
  obtain hmore | heq := parse_under (Nat.le_max_right n m) tokens s
  · exact hmore
  · exact ⟨u, heq.trans hu⟩

/-! ### Termination -/

theorem Ends.unique {tokens : List Token} {o o' : Out Parser Unit} (h : Ends tokens s o)
    (h' : Ends tokens s o') : o = o' := by
  obtain ⟨n, rfl, hn⟩ := h
  obtain ⟨m, rfl, hm⟩ := h'
  exact same_end (f := fun n => parse n tokens) (fun hle => parse_under hle tokens) hn hm

/-- A parse comes to an end, be it something undefined, just if no list of parameters it comes
to has a round that does nothing. -/
theorem ends_iff (tokens : List Token) (s : Parser) :
    (∃ o, Ends tokens s o) ↔ ∀ n t, ComesToList n tokens s t → ¬ Idle t := by
  constructor
  · intro h m t hlist hidle
    obtain ⟨o, n, rfl, hmore⟩ := h
    obtain ⟨u, hu⟩ := hlist.endless hidle n
    exact hmore u hu
  · intro hlists
    have hn : tokens.length + 1 < tokens.length + 2 := Nat.lt_succ_self _
    obtain ⟨t, hlist, hidle⟩ | hend := parse_halts hn s
    · exact absurd hidle (hlists _ t hlist)
    · exact ⟨_, tokens.length + 2, rfl, hend⟩

/-- The parser finishes or leaves through `exit`. -/
def Terminates (tokens : List Token) (s : Parser) : Prop := ∃ n, (parse n tokens s).Finished

/-- `int f(5` -/
def numberForParameter : List Token :=
  [⟨K_INT, "int".toList⟩, ⟨T_IDENTIFIER, "f".toList⟩, ⟨'('.toNat, "(".toList⟩, ⟨T_INT, "5".toList⟩]

end Parser

end Eke
