import Mathlib.Data.List.Infix
import Mathlib.Logic.Function.Basic

/-! Requests on a keyed store that are applied batch by batch, where a batch
makes all its puts before all its deletions. -/
namespace Batching

universe u v

inductive Request (Key : Type u) (Value : Type v) where
  | put (key : Key) (value : Value)
  | delete (key : Key)
deriving DecidableEq

variable {Key : Type u} {Value : Type v}

def puts : List (Request Key Value) → List (Key × Value) :=
  List.filterMap fun
    | .put key value => some (key, value)
    | .delete _ => none

def deletions : List (Request Key Value) → List Key :=
  List.filterMap fun
    | .put _ _ => none
    | .delete key => some key

/-- Every put of the key that comes after a deletion of it is followed by
another deletion. -/
def InOrderAt (key : Key) (batch : List (Request Key Value)) : Prop :=
  ∀ before value after, batch = before ++ .put key value :: after →
    .delete key ∈ before → .delete key ∈ after

def InOrder (batch : List (Request Key Value)) : Prop := ∀ key, InOrderAt key batch

/-- The keys of the deletions of a batch. -/
theorem mem_deletions {batch : List (Request Key Value)} {key : Key} :
    key ∈ deletions batch ↔ .delete key ∈ batch := by
  simp only [deletions, List.mem_filterMap]
  constructor
  · rintro ⟨request, hMem, hEq⟩
    cases request with
    | put other value => cases hEq
    | delete other =>
        cases hEq
        exact hMem
  · intro hMem
    exact ⟨_, hMem, rfl⟩

/-- Only a deletion of the key matters to what comes before it. -/
theorem InOrderAt.init {key : Key} {batch : List (Request Key Value)} {last : Request Key Value}
    (h : InOrderAt key (batch ++ [last])) (hLast : last ≠ .delete key) : InOrderAt key batch := by
  rintro before value after rfl hBefore
  rcases List.mem_append.mp (h before value (after ++ [last]) (by simp) hBefore) with hAfter | hAfter
  · exact hAfter
  · exact (hLast (List.mem_singleton.mp hAfter).symm).elim

variable [DecidableEq Key]

/-- The store after one request. -/
def apply (store : Key → Option Value) : Request Key Value → Key → Option Value
  | .put key value => Function.update store key (some value)
  | .delete key => Function.update store key none

/-- The store after the requests, one at a time and in order. -/
def applyAll (store : Key → Option Value) (requests : List (Request Key Value)) : Key → Option Value :=
  requests.foldl apply store

/-- The store after all puts of a list, in order. -/
def putAll (store : Key → Option Value) (entries : List (Key × Value)) : Key → Option Value :=
  entries.foldl (fun store entry => Function.update store entry.1 (some entry.2)) store

/-- The store after a batch: its puts in order, and then its deletions. -/
def applyBatch (store : Key → Option Value) (batch : List (Request Key Value)) (key : Key) :
    Option Value :=
  if key ∈ deletions batch then none else putAll store (puts batch) key

@[simp]
theorem applyAll_nil (store : Key → Option Value) : applyAll store [] = store := rfl

/-- Two sequences of requests, one after the other. -/
theorem applyAll_append (store : Key → Option Value) (front back : List (Request Key Value)) :
    applyAll store (front ++ back) = applyAll (applyAll store front) back :=
  List.foldl_append

theorem applyAll_concat (store : Key → Option Value) (requests : List (Request Key Value))
    (last : Request Key Value) : applyAll store (requests ++ [last]) = apply (applyAll store requests) last :=
  applyAll_append store requests [last]

@[simp]
theorem apply_put_self (store : Key → Option Value) (key : Key) (value : Value) :
    apply store (.put key value) key = some value := by
  simp [apply]

@[simp]
theorem apply_delete_self (store : Key → Option Value) (key : Key) :
    apply store (.delete key) key = none := by
  simp [apply]

/-- Puts alone keep their order in a batch. -/
theorem putAll_puts {batch : List (Request Key Value)} {key : Key} (h : .delete key ∉ batch)
    (store : Key → Option Value) : putAll store (puts batch) key = applyAll store batch key := by
  induction batch using List.reverseRecOn with
  | nil => rfl
  | append_singleton batch last ih =>
      simp only [List.mem_append, List.mem_singleton, not_or] at h
      rw [applyAll_concat]
      cases last with
      | put other value =>
          have hPuts : puts (batch ++ [.put other value]) = puts batch ++ [(other, value)] := by
            simp [puts]
          rw [hPuts, putAll, List.foldl_append]
          simp only [List.foldl_cons, List.foldl_nil, apply, Function.update_apply]
          split_ifs with hKey
          · rfl
          · exact ih h.1
      | delete other =>
          have hPuts : puts (batch ++ [.delete other]) = puts batch := by
            simp [puts]
          have hKey : key ≠ other := fun hKey => h.2 (hKey ▸ rfl)
          rw [hPuts, ih h.1, apply, Function.update_of_ne hKey]

/-- When no put of the key outlives the deletions, the key ends up deleted. -/
theorem applyAll_deleted {batch : List (Request Key Value)} {key : Key}
    (hOrder : InOrderAt key batch) (h : .delete key ∈ batch) (store : Key → Option Value) :
    applyAll store batch key = none := by
  induction batch using List.reverseRecOn with
  | nil => cases h
  | append_singleton batch last ih =>
      rw [applyAll_concat]
      by_cases hLast : last = .delete key
      · rw [hLast, apply_delete_self]
      · have hMem : .delete key ∈ batch := by
          rcases List.mem_append.mp h with h | h
          · exact h
          · exact (hLast (List.mem_singleton.mp h).symm).elim
        have hRest := ih (hOrder.init hLast) hMem
        cases last with
        | put other value =>
            by_cases hKey : key = other
            · subst hKey
              exact (List.not_mem_nil (hOrder batch value [] rfl hMem)).elim
            · rw [apply, Function.update_of_ne hKey, hRest]
        | delete other =>
            have hKey : key ≠ other := fun hKey => hLast (hKey ▸ rfl)
            rw [apply, Function.update_of_ne hKey, hRest]

/-- A put with no later deletion of its key is still there at the end. -/
theorem applyAll_isSome {after : List (Request Key Value)} {key : Key} (h : .delete key ∉ after)
    {store : Key → Option Value} (hStore : (store key).isSome = true) :
    (applyAll store after key).isSome = true := by
  induction after generalizing store with
  | nil => exact hStore
  | cons request rest ih =>
      rw [List.mem_cons, not_or] at h
      refine ih h.2 ?_
      cases request with
      | put other value =>
          simp only [apply, Function.update_apply]
          split_ifs <;> simp [hStore]
      | delete other =>
          have hKey : key ≠ other := fun hKey => h.1 (hKey ▸ rfl)
          rw [apply, Function.update_of_ne hKey]
          exact hStore

/-- In order, a batch does what its requests do one by one. -/
theorem applyBatch_of_inOrder {batch : List (Request Key Value)} (h : InOrder batch)
    (store : Key → Option Value) : applyBatch store batch = applyAll store batch := by
  funext key
  rw [applyBatch]
  split_ifs with hDeleted
  · exact (applyAll_deleted (h key) (mem_deletions.mp hDeleted) store).symm
  · exact putAll_puts (fun hMem => hDeleted (mem_deletions.mpr hMem)) store

/-- A batch out of order loses the put that came last, whatever the stores were
before it. -/
theorem inOrder_of_applyBatch {batch : List (Request Key Value)} {store other : Key → Option Value}
    (h : applyBatch store batch = applyAll other batch) : InOrder batch := by
  rintro key before value after rfl hBefore
  by_contra hAfter
  have hDeleted := mem_deletions.mpr (List.mem_append_left (.put key value :: after) hBefore)
  have hNone := congrFun h key
  rw [applyBatch, if_pos hDeleted, applyAll_append] at hNone
  have hSome : (applyAll (applyAll other before) (.put key value :: after) key).isSome = true := by
    refine applyAll_isSome hAfter ?_
    rw [apply_put_self]
    rfl
  rw [← hNone] at hSome
  cases hSome

end Batching
