import Mathlib.Data.List.Infix

/-! Programs that log events and may run out of fuel. What is logged outlives a run that does,
so that a property may speak about what an endless run has done. -/
namespace Fuelled

universe u

variable {State Event α β : Type u}

/-- What a run ends with: a value, or none when the fuel is used up, the state, and what has
been logged. -/
structure Outcome (State Event α : Type u) where
  result : Option α
  state : State
  log : List Event
deriving DecidableEq, Repr

def Program (State Event α : Type u) : Type u := State → Outcome State Event α

instance : Monad (Program State Event) where
  pure a := fun s => ⟨some a, s, []⟩
  bind p f := fun s =>
    match p s with
    | ⟨some a, t, log⟩ => ⟨(f a t).result, (f a t).state, log ++ (f a t).log⟩
    | ⟨none, t, log⟩ => ⟨none, t, log⟩

/-- There is no fuel left. -/
def exhausted : Program State Event α := fun s => ⟨none, s, []⟩

/-- A step of the state. -/
def call (f : State → α × State) : Program State Event α := fun s => ⟨some (f s).1, (f s).2, []⟩

/-- A value of the state. -/
def look (f : State → α) : Program State Event α := call fun s => (f s, s)

def emit (e : Event) : Program State Event PUnit := fun s => ⟨some ⟨⟩, s, [e]⟩

variable {p q p' q' : Program State Event α} {f g : α → Program State Event β} {s t : State} {a : α}
  {log : List Event}

/-- A sequence goes on with the result, and the logs are joined. -/
theorem bind_of_some (h : p s = ⟨some a, t, log⟩) :
    (p >>= f) s = ⟨(f a t).result, (f a t).state, log ++ (f a t).log⟩ := by
  change (match p s with
    | ⟨some a, t, log⟩ => (⟨(f a t).result, (f a t).state, log ++ (f a t).log⟩ : Outcome State Event β)
    | ⟨none, t, log⟩ => ⟨none, t, log⟩) = _
  rw [h]

/-- A sequence ends where its first program runs out of fuel. -/
theorem bind_of_none (h : p s = ⟨none, t, log⟩) : (p >>= f) s = ⟨none, t, log⟩ := by
  change (match p s with
    | ⟨some a, t, log⟩ => (⟨(f a t).result, (f a t).state, log ++ (f a t).log⟩ : Outcome State Event β)
    | ⟨none, t, log⟩ => ⟨none, t, log⟩) = _
  rw [h]

theorem bind_result_none (h : (p s).result = none) : ((p >>= f) s).result = none := by
  rcases hRun : p s with ⟨_ | a, t, log⟩
  · rw [bind_of_none hRun]
  · rw [hRun] at h
    cases h

/-- A sequence depends on its first program only at the state it starts from. -/
theorem bind_congr_at (h : p s = q s) : (p >>= f) s = (q >>= f) s := by
  rcases hRun : q s with ⟨_ | a, t, log⟩
  · rw [bind_of_none hRun, bind_of_none (h.trans hRun)]
  · rw [bind_of_some hRun, bind_of_some (h.trans hRun)]

/-! ### Runs that log nothing -/

def Silent (p : Program State Event α) : Prop := ∀ s, (p s).log = []

theorem silent_pure (a : α) : Silent (pure a : Program State Event α) := fun _ => rfl

theorem silent_call (f : State → α × State) : Silent (call f : Program State Event α) := fun _ => rfl

theorem silent_exhausted : Silent (exhausted : Program State Event α) := fun _ => rfl

/-- A sequence of silent programs is silent. -/
theorem Silent.bind (hp : Silent p) (hf : ∀ a, Silent (f a)) : Silent (p >>= f) := by
  intro s
  have hLog := hp s
  rcases hRun : p s with ⟨_ | a, t, log⟩
  · rw [hRun] at hLog
    rw [bind_of_none hRun]
    exact hLog
  · rw [hRun] at hLog
    rw [bind_of_some hRun, hf a t, List.append_nil]
    exact hLog

theorem silent_ite {c : Prop} [Decidable c] (hp : Silent p) (hq : Silent q) : Silent (if c then p else q) := by
  split_ifs
  · exact hp
  · exact hq

/-! ### More fuel -/

/-- The second program does what the first one does, and goes on where that runs out of
fuel. -/
def Extends (p q : Program State Event α) : Prop :=
  ∀ s, p s = q s ∨ (p s).result = none ∧ (p s).log <+: (q s).log

theorem Extends.refl (p : Program State Event α) : Extends p p := fun _ => .inl rfl

/-- Every program extends the one that has no fuel. -/
theorem extends_exhausted : Extends exhausted p := fun _ => .inr ⟨rfl, List.nil_prefix⟩

/-- A sequence extends if both of its programs do. -/
theorem Extends.bind (hp : Extends p q) (hf : ∀ a, Extends (f a) (g a)) : Extends (p >>= f) (q >>= g) := by
  intro s
  rcases hRun : p s with ⟨_ | a, t, log⟩
  · -- The first part has run out of fuel, here and perhaps only here.
    rw [bind_of_none hRun]
    refine .inr ⟨rfl, ?_⟩
    have hLog : log <+: (q s).log := by
      rcases hp s with hSame | ⟨-, hLog⟩
      · rw [← hSame, hRun]
      · rwa [hRun] at hLog
    rcases hMore : q s with ⟨_ | a, u, more⟩
    · rw [bind_of_none hMore]
      rwa [hMore] at hLog
    · rw [bind_of_some hMore]
      rw [hMore] at hLog
      exact hLog.trans (List.prefix_append _ _)
  · have hSame : q s = ⟨some a, t, log⟩ := by
      rcases hp s with hSame | ⟨hNone, -⟩
      · rw [← hSame, hRun]
      · rw [hRun] at hNone
        cases hNone
    rw [bind_of_some hRun, bind_of_some hSame]
    rcases hf a t with hRest | ⟨hNone, hLog⟩
    · exact .inl (by rw [hRest])
    · exact .inr ⟨hNone, (List.prefix_append_right_inj log).mpr hLog⟩

/-- A conditional extends if both of its branches do. -/
theorem extends_ite {c : Prop} [Decidable c] (h : Extends p q) (h' : Extends p' q') :
    Extends (if c then p else p') (if c then q else q') := by
  split_ifs
  · exact h
  · exact h'

/-- Programs that are given their fuel, and one unit less of it in each turn of a loop. -/
theorem extends_of_step {ι : Type u} {p q : Nat → ι → Program State Event α} (hZero : ∀ i, p 0 i = exhausted)
    (hStep : ∀ m n, m ≤ n → (∀ i, Extends (p m i) (q n i)) → ∀ i, Extends (p (m + 1) i) (q (n + 1) i)) {m n : Nat}
    (h : m ≤ n) (i : ι) : Extends (p m i) (q n i) := by
  induction m generalizing n i with
  | zero => exact hZero i ▸ extends_exhausted
  | succ m ih =>
      obtain ⟨n, rfl⟩ := Nat.exists_eq_add_of_le' h
      exact hStep m (n + m) (by omega) (fun i => ih (by omega) i) i

/-! ### Runs that log nothing bad -/

section Quiet

variable {bad : Event → Prop}

/-- A run that returns has logged nothing bad. -/
def Quiet (bad : Event → Prop) (p : Program State Event α) : Prop :=
  ∀ s, (p s).result ≠ none → ∀ e ∈ (p s).log, ¬bad e

/-- A silent program logs nothing bad. -/
theorem Silent.quiet (h : Silent p) : Quiet bad p := by
  intro s _ e he
  rw [h s] at he
  cases he

/-- An event that is not bad may be logged. -/
theorem quiet_emit {event : Event} (h : ¬bad event) : Quiet bad (emit event : Program State Event PUnit) := by
  intro s _ e he
  rwa [List.mem_singleton.mp he]

/-- It is enough that the second part is quiet where the first one has left the state. -/
theorem Quiet.bind (hp : Quiet bad p) (hf : ∀ a, Quiet bad (f a)) : Quiet bad (p >>= f) := by
  intro s hResult e he
  have hFirst := hp s
  rcases hRun : p s with ⟨_ | a, t, log⟩
  · rw [bind_of_none hRun] at hResult
    exact absurd rfl hResult
  · rw [bind_of_some hRun] at hResult he
    rw [hRun] at hFirst
    rcases List.mem_append.mp he with he | he
    · exact hFirst (by simp) e he
    · exact hf a t hResult e he

/-- A conditional is quiet if both of its branches are. -/
theorem quiet_ite {c : Prop} [Decidable c] (hp : Quiet bad p) (hq : Quiet bad q) :
    Quiet bad (if c then p else q) := by
  split_ifs
  · exact hp
  · exact hq

end Quiet

/-! ### Runs with enough fuel -/

section Meets

variable {bad good : Event → Prop} {enough less : Prop} {post weaker : α → State → Prop}

/-- As long as nothing bad is logged, what is logged is good, a result has the property, and
there is one if the fuel is enough. -/
def Meets (bad good : Event → Prop) (enough : Prop) (p : Program State Event α) (s : State)
    (post : α → State → Prop) : Prop :=
  (∀ e ∈ (p s).log, ¬bad e) →
    (∀ e ∈ (p s).log, good e) ∧ (∀ a, (p s).result = some a → post a (p s).state) ∧ (enough → (p s).result ≠ none)

/-- A specification read off a run that has a result. -/
theorem meets_of_some (hRun : p s = ⟨some a, t, log⟩) (hLog : ∀ e ∈ log, ¬bad e → good e)
    (h : (∀ e ∈ log, ¬bad e) → post a t) : Meets bad good enough p s post := by
  intro hBad
  rw [hRun] at hBad ⊢
  refine ⟨fun e he => hLog e he (hBad e he), ?_, fun _ => by simp⟩
  rintro b hb
  rw [← Option.some.inj hb]
  exact h hBad

theorem meets_pure (h : post a s) : Meets bad good enough (pure a) s post :=
  meets_of_some rfl (by simp) fun _ => h

/-- An operation meets what its result satisfies. -/
theorem meets_call {f : State → α × State} (h : post (f s).1 (f s).2) : Meets bad good enough (call f) s post :=
  meets_of_some rfl (by simp) fun _ => h

/-- Logging an event leaves the state. Unless the event is bad it has to be good. -/
theorem meets_emit {event : Event} (hEvent : ¬bad event → good event) :
    Meets bad good enough (emit event) s fun _ t => s = t ∧ ¬bad event :=
  meets_of_some rfl (by simpa using hEvent) fun hBad => ⟨rfl, hBad event (List.mem_singleton.mpr rfl)⟩

/-- A conditional meets what each branch meets under its condition. -/
theorem meets_ite {c : Prop} [Decidable c] (hp : c → Meets bad good enough p s post)
    (hq : ¬c → Meets bad good enough q s post) : Meets bad good enough (if c then p else q) s post := by
  split_ifs with h
  · exact hp h
  · exact hq h

/-- Without fuel there is nothing to meet, as the fuel is not enough. -/
theorem meets_exhausted (h : ¬enough) : Meets bad good enough exhausted s post := fun _ =>
  ⟨by simp [exhausted], by simp [exhausted], fun hEnough => absurd hEnough h⟩

/-- A specification can be weakened, and may ask for more fuel. -/
theorem Meets.mono (h : Meets bad good enough p s post) (hEnough : less → enough)
    (hPost : ∀ a t, post a t → weaker a t) : Meets bad good less p s weaker := by
  intro hBad
  obtain ⟨hLog, hResult, hFuel⟩ := h hBad
  exact ⟨hLog, fun a ha => hPost a _ (hResult a ha), fun hLess => hFuel (hEnough hLess)⟩

/-- More may be bad, and less is then asked of what is logged. -/
theorem Meets.of_bad {bad' good' : Event → Prop} (h : Meets bad good enough p s post) (hBad : ∀ e, bad e → bad' e)
    (hGood : ∀ e, good e → good' e) : Meets bad' good' enough p s post := by
  intro hNot
  obtain ⟨hLog, hRest⟩ := h fun e he => mt (hBad e) (hNot e he)
  exact ⟨fun e he => hGood e (hLog e he), hRest⟩

/-- Two properties of the results of the same runs. -/
theorem Meets.and {good' : Event → Prop} (h : Meets bad good enough p s post) (h' : Meets bad good' less p s weaker) :
    Meets bad good enough p s fun a t => post a t ∧ weaker a t := by
  intro hBad
  obtain ⟨hLog, hResult, hFuel⟩ := h hBad
  exact ⟨hLog, fun a ha => ⟨hResult a ha, (h' hBad).2.1 a ha⟩, hFuel⟩

/-- The rule of sequence: the second program meets its specification where the first leaves the
state. -/
theorem Meets.bind {middle : α → State → Prop} {post : β → State → Prop} (hp : Meets bad good enough p s middle)
    (hf : ∀ a t, middle a t → Meets bad good enough (f a) t post) : Meets bad good enough (p >>= f) s post := by
  intro hBad
  unfold Meets at hp
  rcases hRun : p s with ⟨_ | a, t, log⟩
  · rw [bind_of_none hRun] at hBad ⊢
    rw [hRun] at hp
    obtain ⟨hLog, -, hFuel⟩ := hp hBad
    exact ⟨hLog, by simp, fun hEnough => absurd rfl (hFuel hEnough)⟩
  · rw [bind_of_some hRun] at hBad ⊢
    rw [hRun] at hp
    obtain ⟨hLog, hResult, -⟩ := hp fun e he => hBad e (List.mem_append_left _ he)
    obtain ⟨hRest, hPost, hFuel⟩ := hf a t (hResult a rfl) fun e he => hBad e (List.mem_append_right _ he)
    refine ⟨fun e he => ?_, hPost, hFuel⟩
    rcases List.mem_append.mp he with he | he
    · exact hLog e he
    · exact hRest e he

end Meets

end Fuelled
