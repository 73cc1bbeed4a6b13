import ImpactSockets.Library.Transition
import Mathlib.Logic.Function.Basic
import Mathlib.Logic.Relation

/-! Threads around a mutex and a condition variable on which one of them waits. A
program that moves as a monitor does excludes its threads from one another and loses
no wake-up, in whatever order they take their steps. -/
namespace Monitor

open Transition

universe u v w

/-- Where a thread is. It holds the mutex inside, after a change of the data that it has
not announced yet, and between finding the waiter's predicate false and falling asleep. -/
inductive Place where
  | away
  | inside
  | changed
  | owing
  | resolved
  | asleep
deriving DecidableEq

def Place.Holds (place : Place) : Prop := place = .inside ∨ place = .changed ∨ place = .resolved

/-- The thread has changed the data and is still to signal. -/
def Place.Owes (place : Place) : Prop := place = .changed ∨ place = .owing

/-- What the waiter waits for, who has the mutex, and where the threads are. -/
structure Snapshot (Thread : Type u) where
  ready : Prop
  holder : Option Thread
  place : Thread → Place

variable {Thread : Type u} {waiter t other : Thread} {m n : Snapshot Thread}

/-- The holder is where the mutex is held, only the waiter sleeps, and what it has not
seen will be signalled. -/
structure Sound (waiter : Thread) (m : Snapshot Thread) : Prop where
  holds : ∀ t, (m.place t).Holds ↔ m.holder = some t
  waits : ∀ t, m.place t = .resolved ∨ m.place t = .asleep → t = waiter
  unready : m.place waiter = .resolved → ¬m.ready
  owed : m.place waiter = .asleep → m.ready → ∃ t, (m.place t).Owes

/-- No two threads hold the mutex. -/
theorem Sound.exclusive (sound : Sound waiter m) (h : (m.place t).Holds) (hOther : (m.place other).Holds) :
    t = other :=
  Option.some.inj (((sound.holds t).mp h).symm.trans ((sound.holds other).mp hOther))

/-- Once all signals have been given, a waiter that sleeps has nothing to wait for. -/
theorem Sound.not_ready (sound : Sound waiter m) (hAsleep : m.place waiter = .asleep)
    (h : ∀ t, ¬(m.place t).Owes) : ¬m.ready := by
  intro hReady
  obtain ⟨t, hOwes⟩ := sound.owed hAsleep hReady
  exact h t hOwes

/-- Nobody has a place yet. -/
theorem sound_of_away (hAway : ∀ t, m.place t = .away) (hFree : m.holder = none) : Sound waiter m := by
  constructor <;> simp [hAway, hFree, Place.Holds]

variable [DecidableEq Thread]

/-- One thread is elsewhere. -/
def Goes (m n : Snapshot Thread) (t : Thread) (place : Place) : Prop := n.place = Function.update m.place t place

/-- One step of a thread. The waiter changes the data for itself; the others signal what
they have changed after they have left. A signal reaches the waiter if it is asleep, and a
sleep may also end without one. -/
inductive Moves (waiter : Thread) (m n : Snapshot Thread) : Prop where
  | stay (hPlace : n.place = m.place) (hHolder : n.holder = m.holder) (hReady : n.ready = m.ready)
  | enter (t : Thread) (hFree : m.holder = none) (hAway : m.place t = .away) (hGoes : Goes m n t .inside)
      (hHolder : n.holder = some t) (hReady : n.ready = m.ready)
  | change (t : Thread) (hOther : t ≠ waiter) (hInside : m.place t = .inside) (hGoes : Goes m n t .changed)
      (hHolder : n.holder = m.holder)
  | own (hInside : m.place waiter = .inside) (hPlace : n.place = m.place) (hHolder : n.holder = m.holder)
  | leave (t : Thread) (hInside : m.place t = .inside) (hGoes : Goes m n t .away) (hHolder : n.holder = none)
      (hReady : n.ready = m.ready)
  | leaveOwing (t : Thread) (hChanged : m.place t = .changed) (hGoes : Goes m n t .owing)
      (hHolder : n.holder = none) (hReady : n.ready = m.ready)
  | signal (t : Thread) (hOwing : m.place t = .owing) (hAwake : m.place waiter ≠ .asleep) (hGoes : Goes m n t .away)
      (hHolder : n.holder = m.holder) (hReady : n.ready = m.ready)
  | resolve (hInside : m.place waiter = .inside) (hUnready : ¬m.ready) (hGoes : Goes m n waiter .resolved)
      (hHolder : n.holder = m.holder) (hReady : n.ready = m.ready)
  | sleep (hResolved : m.place waiter = .resolved) (hGoes : Goes m n waiter .asleep) (hHolder : n.holder = none)
      (hReady : n.ready = m.ready)
  | wake (hAsleep : m.place waiter = .asleep) (hGoes : Goes m n waiter .away) (hHolder : n.holder = m.holder)
      (hReady : n.ready = m.ready)

theorem Goes.self {place : Place} (hGoes : Goes m n t place) : n.place t = place := by
  rw [hGoes, Function.update_self]

theorem Goes.of_ne {place : Place} (hGoes : Goes m n t place) (h : other ≠ t) : n.place other = m.place other := by
  rw [hGoes, Function.update_of_ne h]

/-- Another thread still owes a signal after a thread has moved that owes none. -/
theorem Goes.owes {place : Place} (hGoes : Goes m n t place) (h : ∃ other, (m.place other).Owes)
    (hMove : (m.place t).Owes → place.Owes) : ∃ other, (n.place other).Owes := by
  obtain ⟨other, hOwes⟩ := h
  refine ⟨other, ?_⟩
  rcases eq_or_ne other t with rfl | hNe
  · exact hGoes.self ▸ hMove hOwes
  · rwa [hGoes.of_ne hNe]

/-- One thread moves, and the mutex or the data may change with it. -/
theorem Sound.moved {place : Place} (sound : Sound waiter m) (hGoes : Goes m n t place)
    (hPlace : place.Holds ↔ n.holder = some t) (hRest : ∀ other ≠ t, (m.place other).Holds ↔ n.holder = some other)
    (hWaits : place = .resolved ∨ place = .asleep → t = waiter ∧ ¬n.ready)
    (hResolved : t ≠ waiter → m.place waiter = .resolved → ¬n.ready)
    (hAsleep : t ≠ waiter → m.place waiter = .asleep → n.ready → ∃ u, (n.place u).Owes) : Sound waiter n := by
  constructor
  · intro other
    rcases eq_or_ne other t with rfl | hNe
    · rwa [hGoes.self]
    · rw [hGoes.of_ne hNe]
      exact hRest other hNe
  · intro other hWaiting
    rcases eq_or_ne other t with rfl | hNe
    · rw [hGoes.self] at hWaiting
      exact (hWaits hWaiting).1
    · rw [hGoes.of_ne hNe] at hWaiting
      exact sound.waits other hWaiting
  · intro hWaiting
    rcases eq_or_ne waiter t with rfl | hNe
    · exact (hWaits (.inl (hGoes.self.symm.trans hWaiting))).2
    · exact hResolved hNe.symm ((hGoes.of_ne hNe).symm.trans hWaiting)
  · intro hWaiting hReady
    rcases eq_or_ne waiter t with rfl | hNe
    · exact absurd hReady (hWaits (.inr (hGoes.self.symm.trans hWaiting))).2
    · exact hAsleep hNe.symm ((hGoes.of_ne hNe).symm.trans hWaiting) hReady

/-- A thread that does not hold the mutex leaves, or has been woken. -/
theorem Sound.moved_away (sound : Sound waiter m) (hGoes : Goes m n t .away) (hOut : ¬(m.place t).Holds)
    (hHolder : n.holder = m.holder) (hReady : n.ready = m.ready) (hAsleep : t ≠ waiter → m.place waiter ≠ .asleep) :
    Sound waiter n := by
  refine sound.moved hGoes ?_ ?_ (by simp) ?_ ?_
  · have hNone : m.holder ≠ some t := fun h => hOut ((sound.holds t).mpr h)
    simpa [hHolder, Place.Holds] using hNone
  · exact fun other _ => hHolder ▸ sound.holds other
  · exact fun _ => hReady ▸ sound.unready
  · exact fun hNe hWaiting => absurd hWaiting (hAsleep hNe)

/-- The holder releases the mutex and moves to where it does not hold it. -/
theorem Sound.moved_release {place : Place} (sound : Sound waiter m) (hGoes : Goes m n t place)
    (hHolds : (m.place t).Holds) (hOut : ¬place.Holds) (hHolder : n.holder = none) (hReady : n.ready = m.ready)
    (hWaits : place = .resolved ∨ place = .asleep → t = waiter ∧ ¬m.ready) (hOwes : (m.place t).Owes → place.Owes) :
    Sound waiter n := by
  refine sound.moved hGoes (by simpa [hHolder] using hOut) ?_ (hReady ▸ hWaits) ?_ ?_
  · intro other hNe
    have hOther : ¬(m.place other).Holds := fun h => hNe (sound.exclusive h hHolds)
    simpa [hHolder] using hOther
  · exact fun _ => hReady ▸ sound.unready
  · exact fun _ hAsleep hStill => hGoes.owes (sound.owed hAsleep (hReady ▸ hStill)) hOwes

/-- The holder keeps the mutex. -/
theorem Sound.moved_keep {place : Place} (sound : Sound waiter m) (hGoes : Goes m n t place)
    (hHolds : (m.place t).Holds) (hKeeps : place.Holds) (hHolder : n.holder = m.holder)
    (hWaits : place = .resolved ∨ place = .asleep → t = waiter ∧ ¬n.ready)
    (hOwes : t ≠ waiter → place.Owes) : Sound waiter n := by
  refine sound.moved hGoes ?_ (fun other _ => hHolder ▸ sound.holds other) hWaits ?_ ?_
  · exact iff_of_true hKeeps (hHolder ▸ (sound.holds t).mp hHolds)
  · exact fun hNe hResolved => absurd (sound.exclusive hHolds (.inr (.inr hResolved))) hNe
  · exact fun hNe _ _ => ⟨t, hGoes.self ▸ hOwes hNe⟩

/-- Every step of a monitor leaves it sound. -/
theorem Sound.moves (sound : Sound waiter m) (hMoves : Moves waiter m n) : Sound waiter n := by
  cases hMoves with
  | stay hPlace hHolder hReady =>
      constructor <;> rw [hPlace]
      · exact hHolder ▸ sound.holds
      · exact sound.waits
      · exact hReady ▸ sound.unready
      · exact hReady ▸ sound.owed
  | enter t hFree hAway hGoes hHolder hReady =>
      refine sound.moved hGoes (iff_of_true (.inl rfl) hHolder) ?_ (by simp) (fun _ => hReady ▸ sound.unready) ?_
      · intro other hNe
        rw [sound.holds other, hFree, hHolder]
        simp [hNe.symm]
      · intro _ hAsleep hStill
        exact hGoes.owes (sound.owed hAsleep (hReady ▸ hStill)) (by simp [hAway, Place.Owes])
  | change t hOther hInside hGoes hHolder =>
      exact sound.moved_keep hGoes (.inl hInside) (.inr (.inl rfl)) hHolder (by simp) fun _ => .inl rfl
  | own hInside hPlace hHolder =>
      constructor <;> rw [hPlace]
      · exact hHolder ▸ sound.holds
      · exact sound.waits
      · simp [hInside]
      · simp [hInside]
  | leave t hInside hGoes hHolder hReady =>
      exact sound.moved_release hGoes (.inl hInside) (by simp [Place.Holds]) hHolder hReady (by simp)
        (by simp [hInside, Place.Owes])
  | leaveOwing t hChanged hGoes hHolder hReady =>
      exact sound.moved_release hGoes (.inr (.inl hChanged)) (by simp [Place.Holds]) hHolder hReady (by simp)
        (fun _ => .inr rfl)
  | signal t hOwing hAwake hGoes hHolder hReady =>
      exact sound.moved_away hGoes (by simp [hOwing, Place.Holds]) hHolder hReady fun _ => hAwake
  | resolve hInside hUnready hGoes hHolder hReady =>
      exact sound.moved_keep hGoes (.inl hInside) (.inr (.inr rfl)) hHolder (fun _ => ⟨rfl, hReady ▸ hUnready⟩)
        (absurd rfl)
  | sleep hResolved hGoes hHolder hReady =>
      exact sound.moved_release hGoes (.inr (.inr hResolved)) (by simp [Place.Holds]) hHolder hReady
        (fun _ => ⟨rfl, sound.unready hResolved⟩) (by simp [hResolved, Place.Owes])
  | wake hAsleep hGoes hHolder hReady =>
      exact sound.moved_away hGoes (by simp [hAsleep, Place.Holds]) hHolder hReady (absurd rfl)

theorem Sound.all_moves (sound : Sound waiter m) (hMoves : Relation.ReflTransGen (Moves waiter) m n) :
    Sound waiter n := by
  induction hMoves with
  | refl => exact sound
  | tail _ last ih => exact ih.moves last

/-- Every run of a system whose steps are moves of a monitor leaves it sound. -/
theorem sound_of_runs {State : Type v} {Action : Type w} {step : State → Action → Option State} {start finish : State}
    {view : State → Snapshot Thread} {actions : List Action} (run : Runs step start actions finish)
    (hAway : ∀ t, (view start).place t = .away) (hFree : (view start).holder = none)
    (hStep : ∀ actions action s t, Runs step start actions s → step s action = some t →
      Relation.ReflTransGen (Moves waiter) (view s) (view t)) : Sound waiter (view finish) := by
  refine @Runs.history _ _ step start (fun _ s => Sound waiter (view s)) _ _ run (sound_of_away hAway hFree) ?_
  intro actions action s t prior sound h
  exact sound.all_moves (hStep actions action s t prior h)

end Monitor
