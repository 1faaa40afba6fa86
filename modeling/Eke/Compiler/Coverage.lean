/-
The tokens of an accepted text.

The loop over the text runs a production where a declaration starts, and steps over the token
otherwise.  The productions read the text in one piece after another, so a token is read by
one of them unless the loop steps over it.
-/
import Eke.Compiler.ParameterList

namespace Eke

namespace Parser

open Prog

/-! ### The rounds -/

/-- A declaration the parser knows starts here. -/
def Begins (s : Parser) : Prop :=
  (tokenType s s.tp1 = K_STRUCT ∧ tokenType s (s.tp1 + 2) = '{'.toNat) ∨ tokenType s s.tp1 = K_TYPEDEF ∨
    ∃ t, is_type (tokenType s s.tp1) s = .ok true t

/-- The text comes to a round of the loop in this state. -/
def ComesTo (n : Nat) (tokens : List Token) (s u : Parser) : Prop :=
  Rounds (round (calls n)) ((), begun tokens s) ((), u)

/-- A production has read the token number `i`. -/
def Consumed (n : Nat) (tokens : List Token) (s : Parser) (i : Nat) : Prop :=
  ∃ u v, ComesTo n tokens s u ∧ Begins u ∧ topLevel (calls n) u = .ok true v ∧ u.tp1 ≤ i ∧ i < v.tp1

/-- Every token was read by a production, but for the end and for semicolons. -/
def AllConsumed (n : Nat) (tokens : List Token) (s : Parser) : Prop :=
  ∀ i tok, tokens[i]? = some tok → tok.type ≠ T_EOF → tok.type ≠ (';'.toNat : Int) → Consumed n tokens s i

/-- In front of a round that is not the last one there is a declaration or a semicolon. -/
def Regular (u : Parser) : Prop :=
  tokenType u u.tp1 = T_EOF ∨ Begins u ∨ tokenType u u.tp1 = ';'.toNat

/-- The lexer ends a text with `T_EOF`, and has it nowhere else. -/
def EndsOnce (tokens : List Token) : Prop :=
  ∀ i tok, tokens[i]? = some tok → tok.type = T_EOF → i + 1 = tokens.length

variable {α : Type} {r : Calls} {s t u v : Parser} {n : Nat} {tokens : List Token}

/-! ### Steps that read no token -/

/-- The same place in the same text. -/
structure Same (s t : Parser) : Prop where
  tokens : t.tokens = s.tokens
  tp1 : t.tp1 = s.tp1

theorem Same.refl (s : Parser) : Same s s := ⟨rfl, rfl⟩

theorem Same.rules : Rules fun α (x : P α) => Keeps Same x :=
  keeps_rules Same.refl fun _ _ _ h h' => ⟨h'.tokens.trans h.tokens, h'.tp1.trans h.tp1⟩

theorem gets_same (f : Parser → α) : Keeps Same (gets f : P α) := keeps_gets Same.refl f

theorem leaning_same (f : Parser → α) : Keeps Same (leaning f) := by
  intro s a t h
  cases h
  exact ⟨rfl, rfl⟩

theorem tokenName_same (token_id : Int) : Keeps Same (tokenName token_id) := by
  refine Same.rules.bind (gets_same _) fun n => ?_
  split
  · exact gets_same _
  · exact Same.rules.undefined

theorem symbol_same (f : Record → α) (id : Int) : Keeps Same (symbol f id) := by
  intro s a t h
  unfold symbol at h
  split at h
  · cases h
    exact Same.refl s
  · cases h

theorem oldSymbol_same (own : Record → Bool) (f : Record → α) (id : Int) :
    Keeps Same (oldSymbol own f id) := by
  intro s a t h
  unfold oldSymbol at h
  split at h
  · obtain ⟨-, rfl⟩ := Out.ok.inj h
    split
    · exact ⟨rfl, rfl⟩
    · exact ⟨rfl, rfl⟩
  · cases h

theorem modifySymbol_same (id : Int) (f : Record → Record) : Keeps Same (modifySymbol id f) := by
  unfold modifySymbol
  split
  · exact keeps_update fun _ => ⟨rfl, rfl⟩
  · exact Same.rules.undefined

theorem setDim_same (id : Int) (dc : Nat) (v : Int) : Keeps Same (setDim id dc v) := by
  unfold setDim
  split
  · exact modifySymbol_same _ _
  · exact Same.rules.undefined

theorem add_to_symtab_same (tok : Token) (bp isg gt data_type lvl : Int) :
    Keeps Same (add_to_symtab tok bp isg gt data_type lvl) := by
  refine Same.rules.bind (gets_same _) fun sp => ?_
  split
  · exact keeps_update fun _ => ⟨rfl, rfl⟩
  · exact Same.rules.undefined

theorem find_struct_same (name : Name) : Keeps Same (find_struct name) := by
  refine Same.rules.bind (leaning_same _) fun found => ?_
  cases found with
  | none => exact Same.rules.undefined
  | some id => exact Same.rules.pure id

theorem structEntry_same (id : Int) : Keeps Same (structEntry id) := by
  refine Same.rules.bind (leaning_same _) fun e => ?_
  cases e with
  | none => exact Same.rules.undefined
  | some e => exact Same.rules.pure e

theorem structOf_same (left : Node) : Keeps Same (structOf left) := by
  have hsym : Keeps Same (do
      let varname ← tokenName left.token_id
      let symidx ← find_symbol varname
      if symidx = -1 then pure (-1) else oldSymbol Record.ownStruct Record.struct_id symidx) := by
    refine Same.rules.bind (tokenName_same _) fun varname => Same.rules.bind (gets_same _) fun id => ?_
    split
    · exact Same.rules.pure _
    · exact oldSymbol_same _ _ id
  unfold structOf
  split
  · exact hsym
  · exact hsym
  · exact Same.rules.pure _
  · exact Same.rules.pure _

/-! ### The way through the text -/

/-- The same text, further on. -/
structure Ahead (s t : Parser) : Prop where
  tokens : t.tokens = s.tokens
  tp1 : s.tp1 ≤ t.tp1

theorem Ahead.refl (s : Parser) : Ahead s s := ⟨rfl, Nat.le_refl _⟩

theorem Ahead.trans (s t u : Parser) (h : Ahead s t) (h' : Ahead t u) : Ahead s u :=
  ⟨h'.tokens.trans h.tokens, Nat.le_trans h.tp1 h'.tp1⟩

theorem ahead_same {x : P α} (h : Keeps Same x) : Keeps Ahead x :=
  h.mono fun _ _ h => ⟨h.tokens, Nat.le_of_eq h.tp1.symm⟩

theorem ahead : Declaring fun α (x : P α) => Keeps Ahead x where
  toRules := keeps_rules Ahead.refl Ahead.trans
  peek := keeps_gets Ahead.refl _
  match_ _ := keeps_gets Ahead.refl _
  forward := keeps_update fun s => ⟨rfl, Nat.le_succ s.tp1⟩
  tokenName i := ahead_same (tokenName_same i)
  thisToken := keeps_gets Ahead.refl _
  lastToken := keeps_gets Ahead.refl _
  find_symbol _ := keeps_gets Ahead.refl _
  kind id := ahead_same (symbol_same _ id)
  offset id := ahead_same (symbol_same _ id)
  struct_id id := ahead_same (oldSymbol_same _ _ id)
  leaning f := ahead_same (leaning_same f)
  modifyStruct _ := keeps_update fun _ => ⟨rfl, Nat.le_refl _⟩
  grow := keeps_update fun _ => ⟨rfl, Nat.le_refl _⟩
  bp := keeps_gets Ahead.refl _
  gt_count := keeps_gets Ahead.refl _
  setBp _ := keeps_update fun _ => ⟨rfl, Nat.le_refl _⟩
  setGbr _ := keeps_update fun _ => ⟨rfl, Nat.le_refl _⟩
  add_to_symtab _ _ _ _ _ _ := ahead_same (add_to_symtab_same _ _ _ _ _ _)
  dims id := ahead_same (oldSymbol_same _ _ id)
  setDim id dc v := ahead_same (setDim_same id dc v)
  variable_ id _ _ _ _ := ahead_same (modifySymbol_same id _)
  global id _ _ _ := ahead_same (modifySymbol_same id _)
  parameter id _ := ahead_same (modifySymbol_same id _)

theorem append_node_same (node : Node) : Keeps Same (append_node node) :=
  append_node_rule Same.rules (gets_same _) (fun _ => keeps_update fun _ => ⟨rfl, rfl⟩) node

theorem topLevel_ahead (n : Nat) : Keeps Ahead (topLevel (calls n)) := by
  have hr := calls_have ahead.toEntering n
  have H := ahead.toLooking
  refine H.bind H.peek fun tok => H.bind (keeps_gets Ahead.refl _) fun there => ?_
  split
  · exact H.pure _
  split
  · exact H.bind (parse_struct_def_rule ahead.toReading) fun _ => H.pure _
  split
  · exact H.bind (parse_typedef_rule ahead.toReading) fun _ => H.pure _
  refine H.bind (is_type_rule H _) fun b => ?_
  split
  · refine H.bind ?_ fun node => H.bind (ahead_same (append_node_same node)) fun _ => H.pure _
    split
    · exact parse_function_rule ahead.toEntering hr
    · exact parse_global_declaration_rule ahead.toEntering hr
  · exact H.bind H.forward fun _ => H.pure _

/-- Where no declaration starts, the loop steps over one token. -/
theorem topLevel_over (hend : tokenType s s.tp1 ≠ T_EOF) (hb : ¬ Begins s) {b : Bool}
    (h : topLevel r s = .ok b t) : b = true ∧ t.tokens = s.tokens ∧ t.tp1 = s.tp1 + 1 := by
  rw [topLevel_eq, if_neg hend, if_neg fun h => hb (.inl h), if_neg fun h => hb (.inr (.inl h))] at h
  obtain ⟨typed, u, hu, h⟩ := bind_ok_iff.mp h
  cases typed with
  | true => exact absurd (.inr (.inr ⟨u, hu⟩)) hb
  | false =>
      cases h
      rcases (is_type_ok hu).1 with rfl | rfl
      · exact ⟨rfl, rfl, rfl⟩
      · exact ⟨rfl, rfl, rfl⟩

theorem topLevel_last (h : topLevel r s = .ok false t) : tokenType s s.tp1 = T_EOF ∧ t = s := by
  rw [topLevel_eq] at h
  split at h
  · rename_i hend
    cases h
    exact ⟨hend, rfl⟩
  split at h
  · obtain ⟨_, u, _, h⟩ := bind_ok_iff.mp h
    cases h
  split at h
  · obtain ⟨_, u, _, h⟩ := bind_ok_iff.mp h
    cases h
  obtain ⟨typed, u, _, h⟩ := bind_ok_iff.mp h
  split at h
  · unfold declared at h
    obtain ⟨_, v, _, h⟩ := bind_ok_iff.mp h
    obtain ⟨_, w, _, h⟩ := bind_ok_iff.mp h
    cases h
  · obtain ⟨_, v, _, h⟩ := bind_ok_iff.mp h
    cases h

/-! ### Runs -/

theorem round_next {a : Unit} (h : round (calls n) a s = .ok (.inl ()) t) :
    topLevel (calls n) s = .ok true t := by
  obtain ⟨b, u, hu, h⟩ := bind_ok_iff.mp h
  cases b with
  | true =>
      cases h
      exact hu
  | false => cases h

theorem rounds_ahead {p q : Unit × Parser} (h : Rounds (round (calls n)) p q) : Ahead p.2 q.2 := by
  induction h with
  | refl => exact Ahead.refl _
  | tail _ hround ih => exact ih.trans _ _ _ (topLevel_ahead n _ _ _ (round_next hround))

/-- Of two rounds of one run, one comes first. -/
theorem rounds_total {p q q' : Unit × Parser} (h : Rounds (round (calls n)) p q)
    (h' : Rounds (round (calls n)) p q') :
    Rounds (round (calls n)) q q' ∨ Rounds (round (calls n)) q' q := by
  refine Relation.ReflTransGen.total_of_right_unique ?_ h h'
  intro a b c hb hc
  obtain ⟨-, hstate⟩ := Out.ok.inj (hb.symm.trans hc)
  exact Prod.ext rfl hstate

/-- A later round of the same run is the same one, or comes behind the next one. -/
theorem rounds_behind {p q : Unit × Parser} (h : Rounds (round (calls n)) p q) :
    p = q ∨ ∃ t, topLevel (calls n) p.2 = .ok true t ∧ Ahead t q.2 := by
  rcases Relation.ReflTransGen.cases_head h with rfl | ⟨c, hc, hrest⟩
  · exact .inl rfl
  · exact .inr ⟨c.2, round_next hc, rounds_ahead hrest⟩

/-- The place where a run of the loop ends, and what it has passed on the way there. -/
theorem cycle_passes : ∀ m s, cycle m (round (calls n)) () s = .ok () t →
    ∃ e, Rounds (round (calls n)) ((), s) ((), e) ∧ tokenType e e.tp1 = T_EOF ∧
      ∀ i, s.tp1 ≤ i → i < e.tp1 → ∃ u v, Rounds (round (calls n)) ((), s) ((), u) ∧
        topLevel (calls n) u = .ok true v ∧ u.tp1 ≤ i ∧ i < v.tp1 := by
  intro m
  induction m with
  | zero => exact fun _ => nofun
  | succ m ih =>
      intro s h
      obtain ⟨c, v, hc, h⟩ := bind_ok_iff.mp h
      obtain ⟨b, w, hb, hc⟩ := bind_ok_iff.mp hc
      cases b with
      | false =>
          obtain ⟨hend, -⟩ := topLevel_last hb
          exact ⟨s, .refl, hend, fun i hi hlt => absurd hlt (Nat.not_lt_of_le hi)⟩
      | true =>
          cases hc
          obtain ⟨e, hrounds, hend, hpass⟩ := ih v h
          have hfirst : Rounds (round (calls n)) ((), s) ((), v) := .single (round_of_ok hb)
          refine ⟨e, hfirst.trans hrounds, hend, fun i hi hlt => ?_⟩
          by_cases hi' : i < v.tp1
          · exact ⟨s, v, .refl, hb, hi, hi'⟩
          · obtain ⟨u, w, hu, huw, hle, hlt⟩ := hpass i (Nat.le_of_not_lt hi') hlt
            exact ⟨u, w, hfirst.trans hu, huw, hle, hlt⟩

/-- A token that is not the end stands in the text. -/
theorem token_there {i : Nat} (h : tokenType s i ≠ T_EOF) : s.tokens[i]? = some (tokenAt s i) := by
  unfold tokenType tokenAt at h
  unfold tokenAt
  cases hget : s.tokens[i]? with
  | none =>
      rw [hget] at h
      exact absurd rfl h
  | some tok => rfl

/-- A token that the loop steps over is read by no production. -/
theorem not_consumed (hu : ComesTo n tokens s u) (hend : tokenType u u.tp1 ≠ T_EOF) (hb : ¬ Begins u) :
    ¬ Consumed n tokens s u.tp1 := by
  intro hconsumed
  obtain ⟨p, q, hp, hbegins, hpq, hle, hlt⟩ := hconsumed
  obtain hlater | hearlier := rounds_total hp hu
  · obtain heq | ⟨t, ht, hahead⟩ := rounds_behind hlater
    · obtain ⟨-, rfl⟩ := Prod.ext_iff.mp heq
      exact hb hbegins
    · obtain ⟨-, rfl⟩ := Out.ok.inj (hpq.symm.trans ht)
      exact absurd hahead.tp1 (Nat.not_le_of_lt hlt)
  · obtain heq | ⟨t, ht, hahead⟩ := rounds_behind hearlier
    · obtain ⟨-, rfl⟩ := Prod.ext_iff.mp heq
      exact hb hbegins
    · obtain ⟨-, -, htp1⟩ := topLevel_over hend hb ht
      have hp1 := hahead.tp1
      change t.tp1 ≤ p.tp1 at hp1
      omega

/-- The loop ends at the end of the text. -/
theorem before_end {e : Parser} (hends : EndsOnce tokens) (htokens : e.tokens = tokens)
    (hend : tokenType e e.tp1 = T_EOF) {i : Nat} {tok : Token} (htok : tokens[i]? = some tok)
    (hneof : tok.type ≠ T_EOF) : i < e.tp1 := by
  by_contra hge
  obtain ⟨hi, hget⟩ := List.getElem?_eq_some_iff.mp htok
  have hlt : e.tp1 < tokens.length := Nat.lt_of_le_of_lt (Nat.le_of_not_lt hge) hi
  have hlast : tokens[e.tp1]? = some (tokenAt e e.tp1) := by
    unfold tokenAt
    rw [htokens, List.getElem?_eq_getElem hlt]
    rfl
  have hlength := hends e.tp1 _ hlast hend
  obtain rfl : i = e.tp1 := by omega
  rw [htok] at hlast
  exact hneof ((congrArg Token.type (Option.some.inj hlast)).trans hend)

/-- In an accepted text every token is read by a production, but for the end and for semicolons,
just if the loop comes to no other token that starts no declaration. -/
theorem all_consumed_iff (hends : EndsOnce tokens) (h : parse n tokens s = .ok () t) :
    AllConsumed n tokens s ↔ ∀ u, ComesTo n tokens s u → Regular u := by
  rw [parse_eq, topLevels_eq, calls_fuel] at h
  obtain ⟨e, hrounds, hend, hpass⟩ := cycle_passes _ _ h
  constructor
  · intro hall u hu
    by_contra hirregular
    obtain ⟨hneof, hnot⟩ := not_or.mp hirregular
    obtain ⟨hbegins, hsemi⟩ := not_or.mp hnot
    have htokens : u.tokens = tokens := (rounds_ahead hu).tokens
    refine not_consumed hu hneof hbegins (hall u.tp1 (tokenAt u u.tp1) ?_ hneof hsemi)
    rw [← htokens]
    exact token_there hneof
  · intro hregular i tok htok hneof hsemi
    have hlt : i < e.tp1 := before_end hends (rounds_ahead hrounds).tokens hend htok hneof
    obtain ⟨u, v, hu, huv, hle, hlt⟩ := hpass i (Nat.zero_le i) hlt
    have htokens : u.tokens = tokens := (rounds_ahead hu).tokens
    by_cases hb : Begins u
    · exact ⟨u, v, hu, hb, huv, hle, hlt⟩
    exfalso
    have hneof' : tokenType u u.tp1 ≠ T_EOF := by
      intro heof
      rw [topLevel_end heof] at huv
      cases huv
    have hsemi' : tokenType u u.tp1 = ';'.toNat := ((hregular u hu).resolve_left hneof').resolve_left hb
    obtain ⟨-, -, htp1⟩ := topLevel_over hneof' hb huv
    obtain rfl : i = u.tp1 := by omega
    refine hsemi ?_
    unfold tokenType tokenAt at hsemi'
    rw [htokens, htok] at hsemi'
    exact hsemi'

/-- `int h;` -/
def oneVariable : List Token :=
  [⟨K_INT, "int".toList⟩, ⟨T_IDENTIFIER, "h".toList⟩, ⟨';'.toNat, ";".toList⟩, ⟨T_EOF, []⟩]

/-- `flot h;` -/
def misspelt : List Token :=
  [⟨T_IDENTIFIER, "flot".toList⟩, ⟨T_IDENTIFIER, "h".toList⟩, ⟨';'.toNat, ";".toList⟩, ⟨T_EOF, []⟩]

/-- A list with an end behind three other tokens. -/
theorem endsOnce_four {a b c : Token} (ha : a.type ≠ T_EOF) (hb : b.type ≠ T_EOF) (hc : c.type ≠ T_EOF) :
    EndsOnce [a, b, c, ⟨T_EOF, []⟩] := by
  intro i tok htok heof
  rcases i with _ | _ | _ | _ | i
  · exact absurd (Option.some.inj htok ▸ heof) ha
  · exact absurd (Option.some.inj htok ▸ heof) hb
  · exact absurd (Option.some.inj htok ▸ heof) hc
  · rfl
  · cases htok

theorem all_consumed_iff_one : AllConsumed 10 oneVariable start ↔
    ∀ u, ComesTo 10 oneVariable start u → Regular u :=
  all_consumed_iff (endsOnce_four (by decide) (by decide) (by decide)) (t := _) rfl

/-- The misspelt type and the name behind it are stepped over, and the text is accepted. -/
theorem misspelt_accepted : EndsOnce misspelt ∧ (∃ t, parse 10 misspelt start = .ok () t) ∧
    ¬ AllConsumed 10 misspelt start := by
  refine ⟨endsOnce_four (by decide) (by decide) (by decide), ⟨_, rfl⟩, fun hall => ?_⟩
  have hbegins : ¬ Begins (begun misspelt start) := by
    intro hbegins
    obtain hstruct | htypedef | ⟨t, ht⟩ := hbegins
    · exact absurd hstruct.1 (by decide)
    · exact absurd htypedef (by decide)
    · cases ht
  exact not_consumed .refl (by decide) hbegins (hall 0 _ rfl (by decide) (by decide))

end Parser

end Eke
