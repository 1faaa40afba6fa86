/-
Programs with a state.

A run of a program ends with a value, leaves early with a code, does something its language
leaves undefined, or needs more fuel than it was given.  What is proved about a program is
proved along its binds: `Rules` are what a property needs for that.  `Keeps` is about the
states before and after a run that ends with a value, `Always` about those of every run; `Tells`
is about a program whose value tells more, `Twin` about two runs from states that differ only
where the program does not look.
-/
namespace Eke

/-- What a run comes to. -/
inductive Out (σ α : Type)
  | ok (a : α) (s : σ)
  | exit (code : Int) (s : σ)
  | wild (s : σ)
  | more (s : σ)

def Out.state {σ α : Type} : Out σ α → σ
  | .ok _ s => s
  | .exit _ s => s
  | .wild s => s
  | .more s => s

def Out.map {σ α β : Type} (f : α → β) : Out σ α → Out σ β
  | .ok a s => .ok (f a) s
  | .exit code s => .exit code s
  | .wild s => .wild s
  | .more s => .more s

def Prog (σ α : Type) : Type := σ → Out σ α

namespace Prog

variable {σ α β γ : Type}

protected def pure (a : α) : Prog σ α := fun s => .ok a s

protected def bind (x : Prog σ α) (k : α → Prog σ β) : Prog σ β := fun s =>
  match x s with
  | .ok a s' => k a s'
  | .exit code s' => .exit code s'
  | .wild s' => .wild s'
  | .more s' => .more s'

instance : Monad (Prog σ) where
  pure := Prog.pure
  bind := Prog.bind

/-- A part of the state is read. -/
def gets (f : σ → α) : Prog σ α := fun s => .ok (f s) s

def update (f : σ → σ) : Prog σ Unit := fun s => .ok () (f s)

/-- The program is left. -/
def exit (code : Int) : Prog σ α := fun s => .exit code s

/-- What the language leaves undefined. -/
def undefined : Prog σ α := fun s => .wild s

/-- The fuel is used up. -/
def more : Prog σ α := fun s => .more s

/-- A loop: the body goes on with a new accumulator or ends with a result. -/
def cycle : Nat → (β → Prog σ (β ⊕ γ)) → β → Prog σ γ
  | 0, _, _ => more
  | n + 1, body, b => do
      match ← body b with
      | .inl b' => cycle n body b'
      | .inr c => pure c

/-- `n` rounds from `i` on. -/
def up (body : Int → Prog σ Unit) : Nat → Int → Prog σ Unit
  | 0, _ => pure ()
  | n + 1, i => do
      body i
      up body n (i + 1)

/-- `for (i = a; i < b; i++)` -/
def forUp (a b : Int) (body : Int → Prog σ Unit) : Prog σ Unit := up body (b - a).toNat a

/-- `n` rounds from `i` down. -/
def down (body : Int → Prog σ Unit) : Nat → Int → Prog σ Unit
  | 0, _ => pure ()
  | n + 1, i => do
      body i
      down body n (i - 1)

/-- `for (i = a; i >= b; i--)` -/
def forDown (a b : Int) (body : Int → Prog σ Unit) : Prog σ Unit := down body (a - b + 1).toNat a

variable {x : Prog σ α} {k : α → Prog σ β} {body : β → Prog σ (β ⊕ γ)} {a : α} {b : β} {s s' : σ}

theorem bind_ok_iff : (x >>= k) s = .ok b s' ↔ ∃ a t, x s = .ok a t ∧ k a t = .ok b s' := by
  show Prog.bind x k s = _ ↔ _
  unfold Prog.bind
  constructor
  · intro h
    cases hx : x s with
    | ok a t => exact ⟨a, t, rfl, by rwa [hx] at h⟩
    | _ => rw [hx] at h; cases h
  · rintro ⟨a, t, ha, hb⟩
    rw [ha]
    exact hb

/-- What comes behind a part that ends with a value. -/
theorem bind_of_ok {t : σ} (h : x s = .ok a t) : (x >>= k) s = k a t := by
  show Prog.bind x k s = k a t
  unfold Prog.bind
  rw [h]

/-- Nothing comes behind a part that ends in something undefined. -/
theorem bind_of_wild {t : σ} (h : x s = .wild t) : (x >>= k) s = .wild t := by
  show Prog.bind x k s = .wild t
  unfold Prog.bind
  rw [h]

@[simp] theorem bind_gets {f : σ → α} : (gets f >>= k) s = k (f s) s := rfl

@[simp] theorem bind_update {f : σ → σ} {k : Unit → Prog σ β} : (update f >>= k) s = k () (f s) := rfl

@[simp] theorem bind_pure_ok : ((pure a : Prog σ α) >>= k) s = k a s := rfl

/-- The branch a run with a value has taken. -/
theorem ite_ok {c : Prop} [Decidable c] {y : Prog σ α} (h : (if c then x else y) s = .ok a s') :
    c ∧ x s = .ok a s' ∨ ¬ c ∧ y s = .ok a s' := by
  split at h
  case isTrue hc => exact .inl ⟨hc, h⟩
  case isFalse hc => exact .inr ⟨hc, h⟩

/-- A round that goes on. -/
theorem cycle_next {n : Nat} {b' : β} (h : body b s = .ok (.inl b') s') :
    cycle (n + 1) body b s = cycle n body b' s' :=
  bind_of_ok h

/-- The last round. -/
theorem cycle_stop {n : Nat} {c : γ} (h : body b s = .ok (.inr c) s') : cycle (n + 1) body b s = .ok c s' :=
  bind_of_ok h

/-! ### Counted loops -/

section

variable (body : Int → Prog σ Unit) (f : Int → σ)

theorem up_ok : ∀ (n : Nat) (a : Int), (∀ i, a ≤ i → i < a + n → body i (f i) = .ok () (f (i + 1))) →
    up body n a (f a) = .ok () (f (a + n)) := by
  intro n
  induction n with
  | zero =>
      intro a _
      rw [Int.natCast_zero, Int.add_zero]
      rfl
  | succ n ih =>
      intro a h
      have hfirst := h a (Int.le_refl a) (by omega)
      have hrest := ih (a + 1) fun i hi hn => h i (by omega) (by omega)
      rw [show a + 1 + (n : Int) = a + (n + 1 : Nat) by omega] at hrest
      exact (bind_of_ok hfirst).trans hrest

/-- A loop that goes up, by the states in front of its rounds. -/
theorem forUp_ok {a b : Int} (hab : a ≤ b)
    (h : ∀ i, a ≤ i → i < b → body i (f i) = .ok () (f (i + 1))) : forUp a b body (f a) = .ok () (f b) := by
  have hrun := up_ok body f (b - a).toNat a fun i hi hn => h i hi (by omega)
  rwa [show a + ((b - a).toNat : Int) = b by omega] at hrun

theorem down_ok : ∀ (n : Nat) (a : Int), (∀ i, i ≤ a → a - n < i → body i (f i) = .ok () (f (i - 1))) →
    down body n a (f a) = .ok () (f (a - n)) := by
  intro n
  induction n with
  | zero =>
      intro a _
      rw [Int.natCast_zero, Int.sub_zero]
      rfl
  | succ n ih =>
      intro a h
      have hfirst := h a (Int.le_refl a) (by omega)
      have hrest := ih (a - 1) fun i hi hn => h i (by omega) (by omega)
      rw [show a - 1 - (n : Int) = a - (n + 1 : Nat) by omega] at hrest
      exact (bind_of_ok hfirst).trans hrest

/-- A loop that goes down, by the states in front of its rounds. -/
theorem forDown_ok {a b : Int} (hab : b ≤ a + 1)
    (h : ∀ i, b ≤ i → i ≤ a → body i (f i) = .ok () (f (i - 1))) :
    forDown a b body (f a) = .ok () (f (b - 1)) := by
  have hrun := down_ok body f (a - b + 1).toNat a fun i hi hn => h i (by omega) hi
  rwa [show a - ((a - b + 1).toNat : Int) = b - 1 by omega] at hrun

end

/-! ### Properties of programs -/

/-- A property that a program has if its steps have it. -/
structure Rules (Q : (α : Type) → Prog σ α → Prop) : Prop where
  pure : ∀ {α : Type} (a : α), Q α (pure a)
  bind : ∀ {α β : Type} {x : Prog σ α} {k : α → Prog σ β}, Q α x → (∀ a, Q β (k a)) → Q β (x >>= k)
  exit : ∀ {α : Type} (code : Int), Q α (exit code)
  undefined : ∀ {α : Type}, Q α undefined
  more : ∀ {α : Type}, Q α more

theorem rule_ite {Q : (α : Type) → Prog σ α → Prop} {α : Type} {c : Prop} [Decidable c] {x y : Prog σ α}
    (hx : Q α x) (hy : Q α y) : Q α (if c then x else y) := by
  split
  · exact hx
  · exact hy

theorem Rules.cycle {Q : (α : Type) → Prog σ α → Prop} (H : Rules Q) (hbody : ∀ b, Q _ (body b)) :
    ∀ n b, Q γ (cycle n body b) := by
  intro n
  induction n with
  | zero => exact fun _ => H.more
  | succ n ih =>
      intro b
      refine H.bind (hbody b) fun c => ?_
      cases c with
      | inl b' => exact ih b'
      | inr c => exact H.pure c

/-! ### Before and after -/

/-- Every run that ends with a value leads from a state to a related one. -/
def Keeps (R : σ → σ → Prop) (x : Prog σ α) : Prop := ∀ s a s', x s = .ok a s' → R s s'

variable {R : σ → σ → Prop}

theorem keeps_gets (hrefl : ∀ s, R s s) (f : σ → α) : Keeps R (gets f) := by
  intro s b s' h
  cases h
  exact hrefl s

theorem keeps_update {f : σ → σ} (h : ∀ s, R s (f s)) : Keeps R (update f) := by
  intro s b s' hs
  cases hs
  exact h s

theorem keeps_exit (code : Int) : Keeps R (exit code : Prog σ α) := nofun

theorem keeps_undefined : Keeps R (undefined : Prog σ α) := nofun

theorem keeps_more : Keeps R (more : Prog σ α) := nofun

theorem Keeps.mono {R' : σ → σ → Prop} (h : Keeps R x) (hR : ∀ s t, R s t → R' s t) : Keeps R' x :=
  fun s a s' hs => hR s s' (h s a s' hs)

theorem keeps_rules (hrefl : ∀ s, R s s) (htrans : ∀ s t u, R s t → R t u → R s u) :
    Rules fun α (x : Prog σ α) => Keeps R x where
  pure a s b s' h := by
    cases h
    exact hrefl s
  bind hx hk s b s' h := by
    obtain ⟨a, t, ha, hb⟩ := bind_ok_iff.mp h
    exact htrans s t s' (hx s a t ha) (hk a t b s' hb)
  exit := keeps_exit
  undefined := keeps_undefined
  more := keeps_more

/-- A loop runs its body at least once. -/
theorem keeps_cycle (htrans : ∀ s t u, R s t → R t u → R s u) (hbody : ∀ b, Keeps R (body b)) :
    ∀ n b, Keeps R (cycle n body b) := by
  intro n
  induction n with
  | zero => exact fun _ => keeps_more
  | succ n ih =>
      intro b s c s' h
      obtain ⟨d, t, hd, h⟩ := bind_ok_iff.mp h
      have hst := hbody b s d t hd
      cases d with
      | inl b' => exact htrans s t s' hst (ih b' t c s' h)
      | inr c' =>
          cases h
          exact hst

/-- The first part of a run, with the state it leads to. -/
theorem Keeps.split (hx : Keeps R x) (h : (x >>= k) s = .ok b s') :
    ∃ a t, R s t ∧ k a t = .ok b s' := by
  obtain ⟨a, t, ha, hb⟩ := bind_ok_iff.mp h
  exact ⟨a, t, hx s a t ha, hb⟩

/-! ### Whatever a run comes to -/

/-- Every run leads from a state to a related one, also one that does not end with a value. -/
def Always (R : σ → σ → Prop) (x : Prog σ α) : Prop := ∀ s, R s (x s).state

theorem Always.keeps (h : Always R x) : Keeps R x := by
  intro s a s' hs
  have hst := h s
  rwa [hs] at hst

theorem always_rules (hrefl : ∀ s, R s s) (htrans : ∀ s t u, R s t → R t u → R s u) :
    Rules fun α (x : Prog σ α) => Always R x where
  pure _ s := hrefl s
  bind := by
    intro α β x k hx hk s
    have hst := hx s
    show R s (Prog.bind x k s).state
    unfold Prog.bind
    cases hxs : x s with
    | ok a t =>
        rw [hxs] at hst
        exact htrans s t _ hst (hk a t)
    | exit code t => rwa [hxs] at hst
    | wild t => rwa [hxs] at hst
    | more t => rwa [hxs] at hst
  exit _ s := hrefl s
  undefined s := hrefl s
  more s := hrefl s

/-- From a state with `P` a run that ends with a value leads to one with `Q`, and any other run to one
with `E`. -/
def Carries (E P Q : σ → Prop) (x : Prog σ α) : Prop :=
  ∀ s, P s → match x s with
    | .ok _ t => Q t
    | .exit _ t => E t
    | .wild t => E t
    | .more t => E t

section

variable {E P P' Q Q' : σ → Prop}

theorem carries_bind (hx : Carries E P Q x) (hk : ∀ a, Carries E Q Q' (k a)) :
    Carries E P Q' (x >>= k) := by
  intro s hs
  have hst := hx s hs
  show match Prog.bind x k s with | .ok _ t => Q' t | .exit _ t => E t | .wild t => E t | .more t => E t
  unfold Prog.bind
  cases hxs : x s with
  | ok a t =>
      rw [hxs] at hst
      exact hk a t hst
  | _ =>
      rw [hxs] at hst
      exact hst

theorem Carries.weaken (h : Carries E P Q x) (hQ : ∀ s, Q s → Q' s) : Carries E P Q' x := by
  intro s hs
  have hst := h s hs
  cases hxs : x s with
  | ok a t =>
      rw [hxs] at hst
      exact hQ t hst
  | _ =>
      rw [hxs] at hst
      exact hst

theorem carries_rules (hP : ∀ s, P s → E s) : Rules fun α (x : Prog σ α) => Carries E P P x where
  pure _ _ hs := hs
  bind := carries_bind
  exit _ s hs := hP s hs
  undefined s hs := hP s hs
  more s hs := hP s hs

theorem Always.carries (h : Always R x) (hR : ∀ s t, R s t → P s → P t) (hP : ∀ s, P s → E s) :
    Carries E P P x := by
  intro s hs
  have hst := hR s _ (h s) hs
  cases hxs : x s with
  | ok a t =>
      rw [hxs] at hst
      exact hst
  | _ =>
      rw [hxs] at hst
      exact hP _ hst

theorem Carries.state (h : Carries E P Q x) (hQ : ∀ s, Q s → E s) (hs : P s) : E (x s).state := by
  have hst := h s hs
  cases hxs : x s with
  | ok a t =>
      rw [hxs] at hst
      exact hQ t hst
  | _ =>
      rw [hxs] at hst
      exact hst

end

/-! ### What is returned -/

/-- Every value the program ends with has the property. -/
def Yields (Q : α → Prop) (x : Prog σ α) : Prop := ∀ s a s', x s = .ok a s' → Q a

variable {Q : α → Prop} {Q' : β → Prop}

theorem yields_pure (h : Q a) : Yields Q (pure a : Prog σ α) := by
  intro s b s' hb
  cases hb
  exact h

theorem yields_exit (code : Int) : Yields Q (exit code : Prog σ α) := nofun

theorem yields_undefined : Yields Q (undefined : Prog σ α) := nofun

theorem yields_more : Yields Q (more : Prog σ α) := nofun

theorem yields_bind (hx : Yields Q x) (hk : ∀ a, Q a → Yields Q' (k a)) : Yields Q' (x >>= k) := by
  intro s b s' h
  obtain ⟨a, t, ha, hb⟩ := bind_ok_iff.mp h
  exact hk a (hx s a t ha) t b s' hb

/-- The value of the first part does not matter. -/
theorem yields_then (hk : ∀ a, Yields Q' (k a)) : Yields Q' (x >>= k) := by
  intro s b s' h
  obtain ⟨a, t, -, hb⟩ := bind_ok_iff.mp h
  exact hk a t b s' hb

theorem yields_ite {c : Prop} [Decidable c] {y : Prog σ α} (hx : Yields Q x) (hy : Yields Q y) :
    Yields Q (if c then x else y) := by
  split
  · exact hx
  · exact hy

/-- A loop, by what holds of the accumulator. -/
theorem yields_cycle {I : β → Prop} {R : γ → Prop} (hbody : ∀ b, I b → Yields (Sum.elim I R) (body b)) :
    ∀ n b, I b → Yields R (cycle n body b) := by
  intro n
  induction n with
  | zero => exact fun _ _ => yields_more
  | succ n ih =>
      intro b hb
      refine yields_bind (hbody b hb) fun c hc => ?_
      cases c with
      | inl b' => exact ih b' hc
      | inr c => exact yields_pure hc

/-- A loop, by what holds of the accumulator and the state. -/
theorem cycle_keeps {I : β → σ → Prop} {R : γ → σ → Prop}
    (hbody : ∀ b s c t, I b s → body b s = .ok c t → Sum.elim (I · t) (R · t) c) :
    ∀ n b s c t, I b s → cycle n body b s = .ok c t → R c t := by
  intro n
  induction n with
  | zero => exact fun _ _ _ _ _ h => nomatch h
  | succ n ih =>
      intro b s c t hb h
      obtain ⟨d, u, hd, h⟩ := bind_ok_iff.mp h
      have hround := hbody b s d u hb hd
      cases d with
      | inl b' => exact ih b' u c t hround h
      | inr c' =>
          cases h
          exact hround

/-! ### Programs that return more -/

/-- The second program does what the first one does, and its value tells more. -/
def Tells (f : β → α) (x : Prog σ α) (y : Prog σ β) : Prop := ∀ s, x s = (y s).map f

section

variable {δ ε : Type} {f : β → α} {g : δ → γ} {y : Prog σ β}

theorem tells_same (x : Prog σ α) : Tells id x x := by
  intro s
  cases x s with
  | _ => rfl

theorem tells_pure (f : β → α) (b : β) : Tells f (pure (f b) : Prog σ α) (pure b) := fun _ => rfl

/-- A value is added at the end. -/
theorem tells_with (x : Prog σ Unit) (b : β) : Tells (fun _ => ()) x (x >>= fun _ => pure b) := by
  intro s
  show x s = (Prog.bind x _ s).map _
  unfold Prog.bind
  cases x s with
  | _ => rfl

theorem tells_bind {k : α → Prog σ γ} {l : β → Prog σ δ} (hx : Tells f x y)
    (hk : ∀ b, Tells g (k (f b)) (l b)) : Tells g (x >>= k) (y >>= l) := by
  intro s
  show Prog.bind x k s = (Prog.bind y l s).map g
  unfold Prog.bind
  rw [hx s]
  cases y s with
  | ok b t => exact hk b t
  | _ => rfl

/-- The first part is the same in both programs. -/
theorem tells_then {k : α → Prog σ γ} {l : α → Prog σ δ} (hk : ∀ a, Tells g (k a) (l a)) :
    Tells g (x >>= k) (x >>= l) :=
  tells_bind (tells_same x) hk

theorem tells_cycle {body : α → Prog σ (α ⊕ γ)} {body' : β → Prog σ (β ⊕ δ)}
    (h : ∀ b, Tells (Sum.map f g) (body (f b)) (body' b)) :
    ∀ n b, Tells g (cycle n body (f b)) (cycle n body' b) := by
  intro n
  induction n with
  | zero => exact fun _ _ => rfl
  | succ n ih =>
      intro b
      refine tells_bind (h b) fun c => ?_
      cases c with
      | inl b' => exact ih b'
      | inr c => exact tells_pure g c

theorem Tells.ok (h : Tells f x y) {a : α} (hs : x s = .ok a s') : ∃ b, y s = .ok b s' ∧ f b = a := by
  rw [h s] at hs
  cases hy : y s with
  | ok b t =>
      rw [hy] at hs
      cases hs
      exact ⟨b, rfl, rfl⟩
  | _ =>
      rw [hy] at hs
      cases hs

end

/-! ### Two runs -/

/-- Two runs come to the same, in states that are related if they go on. -/
def Matches (S : σ → σ → Prop) : Out σ α → Out σ α → Prop
  | .ok a s, .ok b t => a = b ∧ S s t
  | .exit c _, .exit d _ => c = d
  | .wild _, .wild _ => True
  | .more _, .more _ => True
  | _, _ => False

/-- From related states the program comes to the same, unless it ends in a bad state; a bad
state stays bad. -/
structure Twin (S : σ → σ → Prop) (bad : σ → Prop) (x : Prog σ α) : Prop where
  stays : ∀ s, bad s → bad (x s).state
  same : ∀ s t, S s t → ¬ bad (x s).state → Matches S (x s) (x t)

section

variable {S : σ → σ → Prop} {bad : σ → Prop}

theorem twin_update {f : σ → σ} (hbad : ∀ s, bad s → bad (f s)) (hsame : ∀ s t, S s t → S (f s) (f t)) :
    Twin S bad (update f) :=
  ⟨hbad, fun s t h _ => ⟨rfl, hsame s t h⟩⟩

/-- A part of the state on which related states agree is read. -/
theorem twin_gets {f : σ → α} (h : ∀ s t, S s t → f s = f t) : Twin S bad (gets f) :=
  ⟨fun _ hs => hs, fun s t hst _ => ⟨h s t hst, hst⟩⟩

theorem twin_bind (hx : Twin S bad x) (hk : ∀ a, Twin S bad (k a)) : Twin S bad (x >>= k) := by
  have hmono : ∀ a s, bad s → bad (k a s).state := fun a => (hk a).stays
  refine ⟨fun s hs => ?_, fun s t hst hgood => ?_⟩
  · have h := hx.stays s hs
    show bad (Prog.bind x k s).state
    unfold Prog.bind
    cases hxs : x s with
    | ok a s' =>
        rw [hxs] at h
        exact hmono a s' h
    | exit code s' => rwa [hxs] at h
    | wild s' => rwa [hxs] at h
    | more s' => rwa [hxs] at h
  · have hsame := hx.same s t hst
    change ¬ bad (Prog.bind x k s).state at hgood
    show Matches S (Prog.bind x k s) (Prog.bind x k t)
    unfold Prog.bind at hgood ⊢
    cases hxs : x s with
    | ok a s' =>
        simp only [hxs] at hgood hsame ⊢
        have h := hsame fun hb => hgood (hmono a s' hb)
        cases hxt : x t with
        | ok b t' =>
            rw [hxt] at h
            obtain ⟨rfl, hst'⟩ := h
            exact (hk a).same s' t' hst' hgood
        | _ => rw [hxt] at h; exact h.elim
    | exit code s' =>
        simp only [hxs] at hgood hsame ⊢
        have h := hsame hgood
        cases hxt : x t <;> rw [hxt] at h <;> first | exact h.elim | exact h
    | wild s' =>
        simp only [hxs] at hgood hsame ⊢
        have h := hsame hgood
        cases hxt : x t <;> rw [hxt] at h <;> first | exact h.elim | exact h
    | more s' =>
        simp only [hxs] at hgood hsame ⊢
        have h := hsame hgood
        cases hxt : x t <;> rw [hxt] at h <;> first | exact h.elim | exact h

theorem twin_rules : Rules fun α (x : Prog σ α) => Twin S bad x where
  pure _ := ⟨fun _ h => h, fun _ _ h _ => ⟨rfl, h⟩⟩
  bind := twin_bind
  exit _ := ⟨fun _ h => h, fun _ _ _ _ => rfl⟩
  undefined := ⟨fun _ h => h, fun _ _ _ _ => trivial⟩
  more := ⟨fun _ h => h, fun _ _ _ _ => trivial⟩

end

end Prog

end Eke
