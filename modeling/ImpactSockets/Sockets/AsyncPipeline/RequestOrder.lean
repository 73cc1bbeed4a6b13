import ImpactSockets.Library.Batching
import ImpactSockets.Sockets.AsyncPipeline.Representation

/-! The requests of the clients as operations on one map, and what the worker
makes of them when it drains its two queues one after the other. -/
namespace ImpactSockets.AsyncPipeline

open Batching Transition

variable {Object : Type}

/-- The request that a step pushes: adding an object is a put, removing a
socket is a deletion. -/
def Action.request : Action Object → Option (Request Int Object)
  | .pushAdd socket object => some (.put socket object)
  | .pushRemove socket => some (.delete socket)
  | _ => none

/-- The requests of a run in push order. -/
def requests (actions : List (Action Object)) : List (Request Int Object) :=
  actions.filterMap Action.request

def queueRequest (batch : List (Request Int Object)) : Action Object → List (Request Int Object)
  | .drain => []
  | action => batch ++ action.request.toList

/-- The requests pushed since the last drain. -/
def batch (actions : List (Action Object)) : List (Request Int Object) :=
  actions.foldl queueRequest []

theorem requests_concat (actions : List (Action Object)) (action : Action Object) :
    requests (actions ++ [action]) = requests actions ++ action.request.toList := by
  cases hRequest : action.request <;> simp [requests, hRequest]

/-- One more action adds to the batch or ends it. -/
theorem batch_concat (actions : List (Action Object)) (action : Action Object) :
    batch (actions ++ [action]) = queueRequest (batch actions) action := by
  simp [batch]

theorem queueRequest_of_not_drain (pushed : List (Request Int Object)) {action : Action Object}
    (h : action ≠ .drain) : queueRequest pushed action = pushed ++ action.request.toList := by
  cases action with
  | drain => exact (h rfl).elim
  | _ => rfl

/-- The worker's map is the one the pushed requests give one at a time, once
both queues are empty. -/
def Applied (actions : List (Action Object)) (s : Pipeline Object) : Prop :=
  s.workPending = [] → s.workRemoved = [] →
    s.work.info = applyAll (fun _ => none) (requests actions)

/-- No drain finds an `add_object` that came after a `remove_object` of its
socket in the same batch, unless another `remove_object` follows. -/
def DrainsInOrder (actions : List (Action Object)) (_ : Pipeline Object)
    (action : Action Object) : Prop :=
  action = .drain → InOrder (batch actions)

def Action.Quits : Action Object → Prop
  | .callback answer => answer.option = .quit
  | _ => False

/-! ### The queues -/

/-- The two queues hold the requests of the batch, each kind in its order. -/
structure Queued (actions : List (Action Object)) (s : Pipeline Object) : Prop where
  pending : s.workPending = puts (batch actions)
  removed : s.workRemoved = deletions (batch actions)

/-- The two queues grow by the request, but for a drain. -/
theorem queues_of_step {s t : Pipeline Object} {action : Action Object}
    (h : step s action = some t) (hDrain : action ≠ .drain) :
    t.workPending = s.workPending ++ puts action.request.toList ∧
      t.workRemoved = s.workRemoved ++ deletions action.request.toList := by
  cases action with
  | pushAdd socket object =>
      obtain ⟨_, rfl⟩ := pushAdd_eq_some.mp h
      exact ⟨rfl, (List.append_nil _).symm⟩
  | pushRemove socket =>
      obtain ⟨_, rfl⟩ := pushRemove_eq_some.mp h
      exact ⟨(List.append_nil _).symm, rfl⟩
  | notifyPending =>
      obtain ⟨_, rfl⟩ := notifyPending_eq_some.mp h
      exact ⟨(List.append_nil _).symm, (List.append_nil _).symm⟩
  | notify =>
      cases h
      exact ⟨(List.append_nil _).symm, (List.append_nil _).symm⟩
  | close =>
      cases h
      exact ⟨(List.append_nil _).symm, (List.append_nil _).symm⟩
  | wake =>
      obtain ⟨_, _, rfl⟩ := wake_eq_some.mp h
      exact ⟨(List.append_nil _).symm, (List.append_nil _).symm⟩
  | drain => exact (hDrain rfl).elim
  | poll revents =>
      obtain ⟨_, _, rfl⟩ := poll_eq_some.mp h
      exact ⟨(List.append_nil _).symm, (List.append_nil _).symm⟩
  | callback answer =>
      obtain ⟨_, _, _, _, _, ⟨_, rfl⟩ | ⟨_, _, _, rfl⟩⟩ := callback_eq_some.mp h
      · exact ⟨(List.append_nil _).symm, (List.append_nil _).symm⟩
      · exact ⟨(List.append_nil _).symm, (List.append_nil _).symm⟩
  | endUpdate =>
      obtain ⟨_, _, _, _, rfl⟩ := endUpdate_eq_some.mp h
      exact ⟨(List.append_nil _).symm, (List.append_nil _).symm⟩
  | store =>
      obtain ⟨_, _, _, rfl⟩ := store_eq_some.mp h
      exact ⟨(List.append_nil _).symm, (List.append_nil _).symm⟩

theorem copyPendingToQueue_info (pending : List (Int × Object)) (work : Work Object) :
    (copyPendingToQueue pending work).info = putAll work.info pending := by
  induction pending generalizing work with
  | nil => rfl
  | cons token rest ih =>
      have hToken : (copyToken work token).info =
          Function.update work.info token.1 (some token.2) := by
        unfold copyToken
        cases work.info token.1 <;> rfl
      rw [copyPendingToQueue, List.foldl_cons, ← copyPendingToQueue, ih, hToken]
      rfl

/-- A drain empties the queues and applies them as one batch. -/
theorem drain_applies {actions : List (Action Object)} {s t : Pipeline Object} (sound : Sound s)
    (queued : Queued actions s) (h : step s .drain = some t) :
    t.workPending = [] ∧ t.workRemoved = [] ∧
      t.work.info = applyBatch s.work.info (batch actions) := by
  obtain ⟨work, hWork, _, hInfo⟩ := sound.drained
  obtain ⟨_, ⟨hFault, _⟩ | ⟨next, hNext, rfl⟩⟩ := drain_eq_some.mp h
  · rw [hFault] at hWork
    cases hWork
  · rw [hNext] at hWork
    cases hWork
    refine ⟨rfl, rfl, ?_⟩
    funext socket
    rw [hInfo, copyPendingToQueue_info, queued.pending, queued.removed]
    rfl

/-- One more action keeps the queues in step with the batch. -/
theorem Queued.step {actions : List (Action Object)} {s t : Pipeline Object} (sound : Sound s)
    (queued : Queued actions s) {action : Action Object} (h : step s action = some t) :
    Queued (actions ++ [action]) t := by
  by_cases hDrain : action = .drain
  · subst hDrain
    obtain ⟨hPending, hRemoved, _⟩ := drain_applies sound queued h
    constructor
    · rw [hPending, batch_concat]
      rfl
    · rw [hRemoved, batch_concat]
      rfl
  · obtain ⟨hPending, hRemoved⟩ := queues_of_step h hDrain
    constructor
    · rw [hPending, queued.pending, batch_concat, queueRequest_of_not_drain _ hDrain]
      exact List.filterMap_append.symm
    · rw [hRemoved, queued.removed, batch_concat, queueRequest_of_not_drain _ hDrain]
      exact List.filterMap_append.symm

theorem queued_of_runs {actions : List (Action Object)} {s : Pipeline Object}
    (run : Runs step init actions s) : Queued actions s :=
  run.history ⟨rfl, rfl⟩ fun _ _ _ _ prior queued h => queued.step (sound_of_runs prior) h

/-! ### The map -/

/-- The worker's map is the one that all requests before the batch give. -/
def Settled (actions : List (Action Object)) (s : Pipeline Object) : Prop :=
  ∃ done, requests actions = done ++ batch actions ∧ s.work.info = applyAll (fun _ => none) done

/-- Only drains and callbacks that quit change the map. -/
theorem info_of_step {s t : Pipeline Object} (sound : Sound s) {action : Action Object}
    (h : step s action = some t) (hDrain : action ≠ .drain) (hQuits : ¬ action.Quits) :
    t.work.info = s.work.info := by
  cases action with
  | pushAdd socket object => obtain ⟨_, rfl⟩ := pushAdd_eq_some.mp h; rfl
  | pushRemove socket => obtain ⟨_, rfl⟩ := pushRemove_eq_some.mp h; rfl
  | notifyPending => obtain ⟨_, rfl⟩ := notifyPending_eq_some.mp h; rfl
  | notify => cases h; rfl
  | close => cases h; rfl
  | wake => obtain ⟨_, _, rfl⟩ := wake_eq_some.mp h; rfl
  | drain => exact (hDrain rfl).elim
  | poll revents => obtain ⟨_, _, rfl⟩ := poll_eq_some.mp h; rfl
  | callback answer =>
      obtain ⟨satisfied, cursor, key, _, hKey, hUpdate⟩ := callback_eq_some.mp h
      obtain ⟨work, cursor', hWork, _, hInfo⟩ := updateHandle_valid sound.valid answer cursor hKey
      rcases hUpdate with ⟨_, rfl⟩ | ⟨next, _, hNext, rfl⟩
      · rfl
      · rw [hNext] at hWork
        cases hWork
        exact hInfo hQuits
  | endUpdate => obtain ⟨_, _, _, _, rfl⟩ := endUpdate_eq_some.mp h; rfl
  | store => obtain ⟨_, _, _, rfl⟩ := store_eq_some.mp h; rfl

/-- One more action keeps the tables in step with the requests. -/
theorem Settled.step {actions : List (Action Object)} {s t : Pipeline Object}
    (settled : Settled actions s) (sound : Sound s) (queued : Queued actions s)
    {action : Action Object} (hQuits : ¬ action.Quits) (hOrder : DrainsInOrder actions s action)
    (h : step s action = some t) : Settled (actions ++ [action]) t := by
  obtain ⟨done, hRequests, hInfo⟩ := settled
  by_cases hDrain : action = .drain
  · subst hDrain
    obtain ⟨_, _, hBatch⟩ := drain_applies sound queued h
    refine ⟨requests actions, ?_, ?_⟩
    · rw [requests_concat, batch_concat]
      rfl
    · rw [hBatch, applyBatch_of_inOrder (hOrder rfl), hRequests, applyAll_append, hInfo]
  · refine ⟨done, ?_, ?_⟩
    · rw [requests_concat, hRequests, batch_concat, queueRequest_of_not_drain _ hDrain,
        List.append_assoc]
    · rw [info_of_step sound h hDrain hQuits, hInfo]

theorem eq_nil_of_queues {pushed : List (Request Int Object)} (hPuts : puts pushed = [])
    (hDeletions : deletions pushed = []) : pushed = [] := by
  cases pushed with
  | nil => rfl
  | cons request rest =>
      cases request with
      | put socket object => simp [puts] at hPuts
      | delete socket => simp [deletions] at hDeletions

/-- What is settled has been applied. -/
theorem Settled.applied {actions : List (Action Object)} {s : Pipeline Object}
    (settled : Settled actions s) (queued : Queued actions s) : Applied actions s := by
  intro hPending hRemoved
  obtain ⟨done, hRequests, hInfo⟩ := settled
  have hBatch := eq_nil_of_queues (queued.pending ▸ hPending) (queued.removed ▸ hRemoved)
  rw [hInfo, hRequests, hBatch, List.append_nil]

/-- The batch is the part of the requests that no drain has taken yet. -/
theorem batch_suffix (actions : List (Action Object)) : batch actions <:+ requests actions := by
  induction actions using List.reverseRecOn with
  | nil => exact List.suffix_refl _
  | append_singleton actions action ih =>
      rw [requests_concat, batch_concat]
      by_cases hDrain : action = .drain
      · rw [hDrain]
        exact List.nil_suffix
      · rw [queueRequest_of_not_drain _ hDrain]
        obtain ⟨done, hDone⟩ := ih
        exact ⟨done, by rw [← hDone, List.append_assoc]⟩

/-- The exact runs without QUIT in which the worker applies the requests in the
order they were pushed: those in which every drained batch is in order. -/
theorem applied_throughout_iff (actions : List (Action Object)) (s : Pipeline Object)
    (run : Runs step init actions s) (hQuits : ∀ action ∈ actions, ¬ action.Quits) :
    Throughout step init actions Applied ↔ EachStep step init actions DrainsInOrder := by
  constructor
  · refine eachStep_of_throughout ?_ run
    intro actions action s t prior h applied hDrain
    subst hDrain
    obtain ⟨hPending, hRemoved, hInfo⟩ := drain_applies (sound_of_runs prior) (queued_of_runs prior) h
    obtain ⟨done, hDone⟩ := batch_suffix actions
    have hRequests : requests (actions ++ [.drain]) = done ++ batch actions := by
      rw [requests_concat, hDone]
      exact List.append_nil _
    have hApplied := applied hPending hRemoved
    rw [hInfo, hRequests, applyAll_append] at hApplied
    exact inOrder_of_applyBatch hApplied
  · intro hEach
    have hSettled : Throughout step init actions Settled := by
      refine @throughout_of_eachStep _ _ step init Settled
        (fun actions s action => DrainsInOrder actions s action ∧ ¬ action.Quits) ?_ ?_ actions ?_
      · exact ⟨[], rfl, rfl⟩
      · intro actions action s t prior settled hCondition h
        exact settled.step (sound_of_runs prior) (queued_of_runs prior) hCondition.2 hCondition.1 h
      · intro before action s hPrefix prior
        exact ⟨hEach before action s hPrefix prior, hQuits action (hPrefix.mem (by simp))⟩
    intro before s hPrefix prior
    exact (hSettled before s hPrefix prior).applied (queued_of_runs prior)

/-- A descriptor is registered, removed and registered again by its next owner
before the worker makes a pass. -/
def reusedDescriptor : List (Action Bool) :=
  [.pushAdd 5 false, .notifyPending, .pushRemove 5, .notifyPending, .pushAdd 5 true, .notifyPending,
    .wake, .drain]

/-- The pass drops the second registration. -/
theorem reusedDescriptor_not_applied :
    ∃ s, Runs step init reusedDescriptor s ∧ (∀ action ∈ reusedDescriptor, ¬ action.Quits) ∧
      s.workPending = [] ∧ s.workRemoved = [] ∧ s.work.info 5 = none ∧
      applyAll (fun _ => none) (requests reusedDescriptor) 5 = some true ∧
      ¬ Applied reusedDescriptor s := by
  refine ⟨_, runs_iff_foldlM.mpr rfl, by simp [reusedDescriptor, Action.Quits], rfl, rfl, rfl, rfl, ?_⟩
  intro applied
  have h := congrFun (applied rfl rfl) 5
  cases h

/-- With a pass between the removal and the new registration nothing is lost. -/
theorem applied_throughout_iff_separated :
    Throughout step init
        ([.pushAdd 5 false, .pushRemove 5, .notifyPending, .notifyPending, .wake, .drain,
          .pushAdd 5 true, .notifyPending] : List (Action Bool)) Applied ↔
      EachStep step init
        [.pushAdd 5 false, .pushRemove 5, .notifyPending, .notifyPending, .wake, .drain,
          .pushAdd 5 true, .notifyPending] DrainsInOrder :=
  applied_throughout_iff _ _ (runs_iff_foldlM.mpr rfl) (by simp [Action.Quits])

end ImpactSockets.AsyncPipeline
