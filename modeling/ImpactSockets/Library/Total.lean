import Mathlib.Logic.Basic

/-! Total correctness of runs that may end in a fault: the run ends without one,
and what it yields has a property. A run follows another one if it ends without
a fault wherever the other one does. -/
namespace Total

universe u v

variable {Fault : Type u} {α β : Type v} {property : α → Prop} {run : Except Fault α}

/-- The run ends without a fault, with a value that has the property. -/
def Ends (property : α → Prop) (run : Except Fault α) : Prop := ∃ a, run = .ok a ∧ property a

theorem ends_ok {a : α} (h : property a) : Ends property (.ok a : Except Fault α) := ⟨a, rfl, h⟩

theorem Ends.mono {weaker : α → Prop} (h : Ends property run) (hWeaker : ∀ a, property a → weaker a) :
    Ends weaker run := by
  obtain ⟨a, hRun, ha⟩ := h
  exact ⟨a, hRun, hWeaker a ha⟩

/-- The rule of composition. -/
theorem Ends.bind {after : β → Prop} {next : α → Except Fault β} (h : Ends property run)
    (hNext : ∀ a, property a → Ends after (next a)) : Ends after (run >>= next) := by
  obtain ⟨a, rfl, ha⟩ := h
  exact hNext a ha

/-- The rule of the conditional. -/
theorem ends_ite {condition : Prop} [Decidable condition] {first second : Except Fault α}
    (hFirst : condition → Ends property first) (hSecond : ¬condition → Ends property second) :
    Ends property (if condition then first else second) := by
  by_cases h : condition
  · rw [if_pos h]
    exact hFirst h
  · rw [if_neg h]
    exact hSecond h

/-! ### Two runs -/

variable {Fault' : Type u} {α' β' : Type v} {related : α → α' → Prop} {run' : Except Fault' α'}

/-- Where the second run ends without a fault, so does the first one, and the
values are related. -/
def Follows (related : α → α' → Prop) (run : Except Fault α) (run' : Except Fault' α') : Prop :=
  ∀ a', run' = .ok a' → ∃ a, run = .ok a ∧ related a a'

theorem follows_ok {a : α} {a' : α'} (h : related a a') :
    Follows related (.ok a : Except Fault α) (.ok a' : Except Fault' α') := by
  intro _ hRun
  cases hRun
  exact ⟨a, rfl, h⟩

theorem follows_error {fault : Fault'} : Follows related run (.error fault : Except Fault' α') := nofun

/-- The rule of composition. -/
theorem Follows.bind {after : β → β' → Prop} {next : α → Except Fault β} {next' : α' → Except Fault' β'}
    (h : Follows related run run') (hNext : ∀ a a', run' = .ok a' → related a a' → Follows after (next a) (next' a')) :
    Follows after (run >>= next) (run' >>= next') := by
  intro b' hRun
  cases hRun' : run' with
  | error fault =>
      rw [hRun'] at hRun
      cases hRun
  | ok a' =>
      obtain ⟨a, rfl, hRelated⟩ := h a' hRun'
      rw [hRun'] at hRun
      exact hNext a a' hRun' hRelated b' hRun

/-- What the second run does first need not be done by the first one. -/
theorem follows_ahead {after : β → β' → Prop} {first : Except Fault β} {next' : α' → Except Fault' β'}
    (h : ∀ a', run' = .ok a' → Follows after first (next' a')) : Follows after first (run' >>= next') := by
  cases hRun : run' with
  | error fault => exact follows_error
  | ok a' => exact h a' hRun

/-- The rule of the conditional. -/
theorem follows_ite {condition : Prop} [Decidable condition] {first second : Except Fault α}
    {first' second' : Except Fault' α'} (hFirst : condition → Follows related first first')
    (hSecond : ¬condition → Follows related second second') :
    Follows related (if condition then first else second) (if condition then first' else second') := by
  by_cases h : condition
  · rw [if_pos h, if_pos h]
    exact hFirst h
  · rw [if_neg h, if_neg h]
    exact hSecond h

/-- A property of all values that the second run may have. -/
theorem Ends.of_eq {property : α → Prop} {a : α} (h : Ends property run) (hRun : run = .ok a) : property a := by
  obtain ⟨_, hSame, ha⟩ := h
  cases hSame.symm.trans hRun
  exact ha

end Total
