-- Computations that may fail. Some keep a state even then: solving keeps its cache, asking keeps
-- the questions. How such a computation runs, step by step.

namespace FreeTime

variable {ε σ α β : Type}

/-! ## Checks in a row -/

/-- A row of checks passes when each of them does. -/
theorem bind_eq_ok {m : Except ε α} {f : α → Except ε β} {b : β} :
    m >>= f = .ok b ↔ ∃ a, m = .ok a ∧ f a = .ok b := by
  cases m with
  | error e =>
    constructor
    · intro h
      cases h
    · rintro ⟨a, h, _⟩
      cases h
  | ok a =>
    constructor
    · exact fun h => ⟨a, rfl, h⟩
    · rintro ⟨_, ⟨⟩, h⟩
      exact h

/-- A row of checks fails where the first one fails, or where it passes and another one fails. -/
theorem bind_eq_error {m : Except ε α} {f : α → Except ε β} {e : ε} :
    m >>= f = .error e ↔ m = .error e ∨ ∃ a, m = .ok a ∧ f a = .error e := by
  cases m with
  | error e' =>
    constructor
    · exact fun h => Or.inl (congrArg Except.error (Except.error.inj h))
    · rintro (h | ⟨a, h, _⟩)
      · exact congrArg Except.error (Except.error.inj h)
      · cases h
  | ok a =>
    constructor
    · exact fun h => Or.inr ⟨a, rfl, h⟩
    · rintro (h | ⟨_, ⟨⟩, h⟩)
      · cases h
      · exact h

/-- A check that refuses where a condition holds passes where it does not. -/
theorem guard_eq_ok {c : Prop} [Decidable c] {e : ε} {f : PUnit → Except ε β} {b : β} :
    (if c then throw e >>= f else f ⟨⟩) = .ok b ↔ ¬ c ∧ f ⟨⟩ = .ok b := by
  by_cases hc : c
  · rw [if_pos hc]
    constructor
    · intro h
      cases h
    · exact fun h => absurd hc h.1
  · rw [if_neg hc]
    exact ⟨fun h => ⟨hc, h⟩, fun h => h.2⟩

theorem exists_ok_bind {m : Except ε α} {f : α → Except ε β} {a : α} (h : m = .ok a)
    (hf : ∃ b, f a = .ok b) : ∃ b, m >>= f = .ok b := by
  obtain ⟨b, hb⟩ := hf
  exact ⟨b, bind_eq_ok.mpr ⟨a, h, hb⟩⟩

/-! ## Running from a state -/

/-- What a computation gives from a state, and the state after it. -/
def runFrom (m : ExceptT ε (StateM σ) α) (state : σ) : Except ε α × σ := m.run.run state

@[simp] theorem runFrom_get (state : σ) :
    runFrom (get : ExceptT ε (StateM σ) σ) state = (.ok state, state) := rfl

@[simp] theorem runFrom_modify (f : σ → σ) (state : σ) :
    runFrom (modify f : ExceptT ε (StateM σ) PUnit) state = (.ok ⟨⟩, f state) := rfl

@[simp] theorem runFrom_mk (r : Except ε α) (state : σ) :
    runFrom (ExceptT.mk (pure r) : ExceptT ε (StateM σ) α) state = (r, state) := rfl

/-- A computation that fails ends what follows; its state stays. -/
theorem runFrom_bind (m : ExceptT ε (StateM σ) α) (f : α → ExceptT ε (StateM σ) β) (state : σ) :
    runFrom (m >>= f) state = match runFrom m state with
      | (.ok a, after) => runFrom (f a) after
      | (.error e, after) => (.error e, after) := by
  change (ExceptT.bindCont f (runFrom m state).1 : StateM σ _).run (runFrom m state).2 = _
  rcases runFrom m state with ⟨_ | a, after⟩ <;> rfl

theorem runFrom_bind_ok {m : ExceptT ε (StateM σ) α} {f : α → ExceptT ε (StateM σ) β}
    {state after : σ} {a : α} (h : runFrom m state = (.ok a, after)) :
    runFrom (m >>= f) state = runFrom (f a) after := by
  rw [runFrom_bind, h]

/-! ## What a computation ensures -/

/-- Whatever a computation gives, from any state, is as a property says. -/
def Ensures (m : ExceptT ε (StateM σ) α) (P : α → Prop) : Prop :=
  ∀ state a, (runFrom m state).1 = .ok a → P a

theorem ensures_pure {a : α} {P : α → Prop} (h : P a) :
    Ensures (pure a : ExceptT ε (StateM σ) α) P := by
  rintro state _ ⟨⟩
  exact h

theorem ensures_true (m : ExceptT ε (StateM σ) α) : Ensures m fun _ => True :=
  fun _ _ _ => trivial

theorem ensures_bind {m : ExceptT ε (StateM σ) α} {f : α → ExceptT ε (StateM σ) β}
    {P : α → Prop} {Q : β → Prop} (hm : Ensures m P) (hf : ∀ a, P a → Ensures (f a) Q) :
    Ensures (m >>= f) Q := by
  intro state b hb
  rw [runFrom_bind] at hb
  rcases hrun : runFrom m state with ⟨_ | a, after⟩
  · rw [hrun] at hb
    cases hb
  · rw [hrun] at hb
    exact hf a (hm state a (by rw [hrun])) after b hb

/-- A computation succeeds with one value from any state. -/
def Gives (m : ExceptT ε (StateM σ) α) (a : α) : Prop := ∀ state, (runFrom m state).1 = .ok a

theorem gives_pure (a : α) : Gives (pure a : ExceptT ε (StateM σ) α) a := fun _ => rfl

/-- A computation ends in one way from any state, with a value or with an error. -/
def Ends (m : ExceptT ε (StateM σ) α) (r : Except ε α) : Prop := ∀ state, (runFrom m state).1 = r

theorem ends_mk (r : Except ε α) : Ends (ExceptT.mk (pure r) : ExceptT ε (StateM σ) α) r :=
  fun _ => rfl

theorem ends_bind {m : ExceptT ε (StateM σ) α} {f : α → ExceptT ε (StateM σ) β} {a : α}
    {r : Except ε β} (hm : Gives m a) (hf : Ends (f a) r) : Ends (m >>= f) r := by
  intro state
  rw [runFrom_bind_ok (Prod.ext (hm state) rfl)]
  exact hf _

theorem gives_bind {m : ExceptT ε (StateM σ) α} {f : α → ExceptT ε (StateM σ) β} {a : α} {b : β}
    (hm : Gives m a) (hf : Gives (f a) b) : Gives (m >>= f) b := ends_bind hm hf

theorem gives_mk {r : Except ε α} {a : α} (h : r = .ok a) :
    Gives (ExceptT.mk (pure r) : ExceptT ε (StateM σ) α) a := fun _ => h

/-- Where every entry of a list gives a result, so does the list, entry by entry. -/
theorem gives_mapM {f : α → ExceptT ε (StateM σ) β} {P : α → β → Prop} (xs : List α)
    (h : ∀ x ∈ xs, ∃ b, Gives (f x) b ∧ P x b) :
    ∃ bs, Gives (xs.mapM f) bs ∧ (∀ b ∈ bs, ∃ x ∈ xs, P x b) ∧ ∀ x ∈ xs, ∃ b ∈ bs, P x b := by
  induction xs with
  | nil => exact ⟨[], gives_pure [], by simp, by simp⟩
  | cons x xs ih =>
    obtain ⟨b, hb, hp⟩ := h x (by simp)
    obtain ⟨bs, hbs, hback, hforth⟩ := ih fun y hy => h y (List.mem_cons_of_mem _ hy)
    refine ⟨b :: bs, ?_, ?_, ?_⟩
    · rw [List.mapM_cons]
      exact gives_bind hb (gives_bind hbs (gives_pure (b :: bs)))
    · refine List.forall_mem_cons.mpr ⟨⟨x, by simp, hp⟩, fun c hc => ?_⟩
      obtain ⟨y, hy, hp⟩ := hback c hc
      exact ⟨y, List.mem_cons_of_mem _ hy, hp⟩
    · refine List.forall_mem_cons.mpr ⟨⟨b, by simp, hp⟩, fun y hy => ?_⟩
      obtain ⟨c, hc, hp⟩ := hforth y hy
      exact ⟨c, List.mem_cons_of_mem _ hc, hp⟩

/-- A computation that gives one entry of a list after another goes as each entry goes. -/
theorem mapM_congr {f g : α → ExceptT ε (StateM σ) β} {xs : List α} (h : ∀ x ∈ xs, f x = g x) :
    xs.mapM f = xs.mapM g := by
  induction xs with
  | nil => rfl
  | cons x xs ih =>
    rw [List.mapM_cons, List.mapM_cons, h x (by simp),
      ih fun y hy => h y (List.mem_cons_of_mem _ hy)]

/-- From no state does a computation fail with another error than a property says. -/
def FailsOnly (m : ExceptT ε (StateM σ) α) (E : ε → Prop) : Prop :=
  ∀ state e, (runFrom m state).1 = .error e → E e

section FailsOnly

variable {E : ε → Prop}

theorem failsOnly_pure (a : α) : FailsOnly (pure a : ExceptT ε (StateM σ) α) E :=
  fun _ _ h => by cases h

theorem failsOnly_bind {m : ExceptT ε (StateM σ) α} {f : α → ExceptT ε (StateM σ) β}
    (hm : FailsOnly m E) (hf : ∀ a, FailsOnly (f a) E) : FailsOnly (m >>= f) E := by
  intro state e he
  rw [runFrom_bind] at he
  rcases hrun : runFrom m state with ⟨failed | a, after⟩
  · rw [hrun] at he
    cases he
    exact hm state _ (by rw [hrun])
  · rw [hrun] at he
    exact hf a after e he

theorem failsOnly_mapM {f : α → ExceptT ε (StateM σ) β} {xs : List α}
    (h : ∀ x ∈ xs, FailsOnly (f x) E) : FailsOnly (xs.mapM f) E := by
  induction xs with
  | nil => exact failsOnly_pure []
  | cons x xs ih =>
    have hrest := ih fun y hy => h y (List.mem_cons_of_mem _ hy)
    rw [List.mapM_cons]
    exact failsOnly_bind (h x (by simp)) fun b => failsOnly_bind hrest fun bs => failsOnly_pure _

end FailsOnly

/-! ## Computations that go alike -/

/-- Both fail with one error, or both succeed with results that are related. -/
inductive Alike (R : α → β → Prop) : Except ε α → Except ε β → Prop
  | error (e : ε) : Alike R (.error e) (.error e)
  | ok {a : α} {b : β} : R a b → Alike R (.ok a) (.ok b)

theorem alike_error_iff {R : α → β → Prop} {a : Except ε α} {b : Except ε β} (h : Alike R a b)
    {e : ε} : a = .error e ↔ b = .error e := by
  cases h <;> simp

theorem alike_ok {R : α → β → Prop} {a : Except ε α} {b : Except ε β} (h : Alike R a b)
    {x : α} {y : β} (ha : a = .ok x) (hb : b = .ok y) : R x y := by
  subst ha hb
  cases h with
  | ok h => exact h

theorem alike_refl {R : α → α → Prop} (h : ∀ a, R a a) (m : Except ε α) : Alike R m m := by
  cases m with
  | error e => exact .error e
  | ok a => exact .ok (h a)

theorem alike_bind {γ δ : Type} {R : α → β → Prop} {S : γ → δ → Prop} {m : Except ε α}
    {m' : Except ε β} {f : α → Except ε γ} {f' : β → Except ε δ} (hm : Alike R m m')
    (hf : ∀ a b, R a b → Alike S (f a) (f' b)) : Alike S (m >>= f) (m' >>= f') := by
  cases hm with
  | error e => exact .error e
  | ok h => exact hf _ _ h

theorem alike_ite {R : α → β → Prop} {c : Prop} [Decidable c] {m n : Except ε α} {m' n' : Except ε β}
    (hm : Alike R m m') (hn : Alike R n n') :
    Alike R (if c then m else n) (if c then m' else n') := by
  split
  · exact hm
  · exact hn

/-- Two computations end in the same state from any state, with outcomes that are related. -/
def GoAlike (R : Except ε α → Except ε β → Prop) (m : ExceptT ε (StateM σ) α)
    (m' : ExceptT ε (StateM σ) β) : Prop :=
  ∀ state, (runFrom m state).2 = (runFrom m' state).2 ∧ R (runFrom m state).1 (runFrom m' state).1

theorem goAlike_mk {R : Except ε α → Except ε β → Prop} {a : Except ε α} {b : Except ε β}
    (h : R a b) :
    GoAlike R (ExceptT.mk (pure a) : ExceptT ε (StateM σ) α) (ExceptT.mk (pure b)) :=
  fun _ => ⟨rfl, h⟩

/-- A computation goes like itself, and what it ensures is known of both. -/
theorem goAlike_self {m : ExceptT ε (StateM σ) α} {P : α → Prop} (h : Ensures m P) :
    GoAlike (Alike fun a b => a = b ∧ P a) m m := by
  intro state
  refine ⟨rfl, ?_⟩
  rcases hrun : (runFrom m state).1 with e | a
  · exact .error e
  · exact .ok ⟨rfl, h state a hrun⟩

theorem goAlike_bind {γ δ : Type} {R : α → β → Prop} {S : Except ε γ → Except ε δ → Prop}
    {m : ExceptT ε (StateM σ) α} {m' : ExceptT ε (StateM σ) β}
    {f : α → ExceptT ε (StateM σ) γ} {f' : β → ExceptT ε (StateM σ) δ}
    (hm : GoAlike (Alike R) m m') (herror : ∀ e, S (.error e) (.error e))
    (hf : ∀ a b, R a b → GoAlike S (f a) (f' b)) : GoAlike S (m >>= f) (m' >>= f') := by
  intro state
  obtain ⟨hstate, hresult⟩ := hm state
  rw [runFrom_bind, runFrom_bind]
  rcases hrun : runFrom m state with ⟨a, after⟩
  rcases hrun' : runFrom m' state with ⟨b, after'⟩
  rw [hrun, hrun'] at hstate hresult
  obtain rfl : after = after' := hstate
  cases hresult with
  | error e => exact ⟨rfl, herror e⟩
  | ok h => exact hf _ _ h after

end FreeTime
