import ImpactSockets.Sockets.AsyncPipeline.Representation

/-! The count of pending requests. It and the queues are guarded by different
mutexes, so it only trails them. -/
namespace ImpactSockets.AsyncPipeline

open Transition

variable {Object : Type}

/-- `pending_satisfied`, from the drain that counts it to the store that
subtracts it. -/
def Worker.unsubtracted : Worker → Int
  | .polling satisfied => satisfied
  | .updating satisfied _ => satisfied
  | .storing satisfied _ => satisfied
  | _ => 0

/-- The balance of queued requests and the counter, which trails the queues by
the clients in mid-call and by the pass in progress. -/
def Balanced (s : Pipeline Object) : Prop :=
  s.threadPending + s.notifying =
    s.workPending.length + s.workRemoved.length + s.worker.unsubtracted

theorem Balanced.step {s t : Pipeline Object} (balanced : Balanced s) (sound : Sound t)
    {action : Action Object} (h : step s action = some t) : Balanced t := by
  unfold Balanced at *
  cases action with
  | pushAdd socket object =>
      obtain ⟨_, rfl⟩ := pushAdd_eq_some.mp h
      simp only [List.length_append, List.length_singleton]
      omega
  | pushRemove socket =>
      obtain ⟨_, rfl⟩ := pushRemove_eq_some.mp h
      simp only [List.length_append, List.length_singleton]
      omega
  | notifyPending =>
      obtain ⟨hClient, rfl⟩ := notifyPending_eq_some.mp h
      dsimp only
      omega
  | notify =>
      cases h
      exact balanced
  | close =>
      cases h
      exact balanced
  | wake =>
      obtain ⟨hWorker, _, rfl⟩ := wake_eq_some.mp h
      rw [hWorker] at balanced
      dsimp only
      split_ifs <;> exact balanced
  | drain =>
      obtain ⟨hWorker, ⟨_, rfl⟩ | ⟨work, _, rfl⟩⟩ := drain_eq_some.mp h
      · exact (sound.running rfl).elim
      · rw [hWorker] at balanced
        simp only [Worker.unsubtracted, List.length_nil] at balanced ⊢
        omega
  | poll revents =>
      obtain ⟨satisfied, hWorker, rfl⟩ := poll_eq_some.mp h
      rw [hWorker] at balanced
      exact balanced
  | callback answer =>
      obtain ⟨satisfied, cursor, key, hWorker, _, ⟨_, rfl⟩ | ⟨work, next, _, rfl⟩⟩ :=
        callback_eq_some.mp h
      · exact (sound.running rfl).elim
      · rw [hWorker] at balanced
        exact balanced
  | endUpdate =>
      obtain ⟨satisfied, cursor, hWorker, _, rfl⟩ := endUpdate_eq_some.mp h
      rw [hWorker] at balanced
      exact balanced
  | store =>
      obtain ⟨satisfied, hasWork, hWorker, rfl⟩ := store_eq_some.mp h
      rw [hWorker] at balanced
      simp only [Worker.unsubtracted] at balanced ⊢
      omega

theorem balanced_of_runs {actions : List (Action Object)} {s : Pipeline Object}
    (run : Runs step init actions s) : Balanced s := by
  refine @Runs.history _ _ step init (fun _ => Balanced) _ _ run rfl ?_
  intro actions action s t prior balanced h
  exact balanced.step (sound_of_runs (prior.snoc h)) h

/-- The counter balances the queues in every reachable state. When the worker
is at its wait and no client is in mid-call, it is positive exactly when a
request is queued, so the worker does not sleep on one. -/
theorem reachable_accounting (actions : List (Action Object)) (s : Pipeline Object)
    (run : Runs step init actions s) :
    s.threadPending + s.notifying =
        s.workPending.length + s.workRemoved.length + s.worker.unsubtracted ∧
      (s.worker = .waiting → s.notifying = 0 →
        ((s.workPending ≠ [] ∨ s.workRemoved ≠ []) → waitPredicate s = true) ∧
        (0 < s.threadPending ↔ s.workPending ≠ [] ∨ s.workRemoved ≠ [])) := by
  have balanced := balanced_of_runs run
  refine ⟨balanced, fun hWorker hClients => ?_⟩
  have hQueued : 0 < s.threadPending ↔ s.workPending ≠ [] ∨ s.workRemoved ≠ [] := by
    rw [Balanced, hWorker, hClients] at balanced
    simp only [Worker.unsubtracted] at balanced
    rw [← List.length_pos_iff, ← List.length_pos_iff]
    omega
  refine ⟨fun h => ?_, hQueued⟩
  simp [waitPredicate, hQueued.mpr h]

/-- Two requests of which only the first has been counted. -/
def inCall : List (Action Unit) := [.pushAdd 5 (), .notifyPending, .pushRemove 5]

theorem reachable_accounting_inCall :
    ∃ s, Runs step init inCall s ∧
      (s.threadPending + s.notifying =
          s.workPending.length + s.workRemoved.length + s.worker.unsubtracted ∧
        (s.worker = .waiting → s.notifying = 0 →
          ((s.workPending ≠ [] ∨ s.workRemoved ≠ []) → waitPredicate s = true) ∧
          (0 < s.threadPending ↔ s.workPending ≠ [] ∨ s.workRemoved ≠ []))) :=
  ⟨_, runs_iff_foldlM.mpr rfl, reachable_accounting inCall _ (runs_iff_foldlM.mpr rfl)⟩

end ImpactSockets.AsyncPipeline
