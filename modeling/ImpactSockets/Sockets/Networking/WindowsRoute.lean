import ImpactSockets.Sockets.Networking.DefaultRoute
import ImpactSockets.Sockets.Networking.WindowsAdapters

/-! `find_default_route` on Windows, which searches a table that the system writes into a
buffer. -/
namespace ImpactSockets.Networking.Windows

open BasicSocket (ImpactError)

def ERROR_INSUFFICIENT_BUFFER : UInt32 := 122

/-- `MIB_IPFORWARDROW`, as far as it is read. -/
structure ForwardRow where
  forwardDest : UInt32
  forwardNextHop : UInt32
  forwardIfIndex : UInt32
deriving DecidableEq, Repr

/-- What the system makes of the two calls of `malloc` and of `GetIpForwardTable`, and the
text that `win_error_message` has for the status of the second. -/
structure TableSystem where
  firstBlock : Option Nat
  firstStatus : UInt32
  secondBlock : Option Nat
  status : UInt32
  statusText : String
  table : List ForwardRow
deriving DecidableEq, Repr

variable (env : Environment)

def forwardRoute (row : ForwardRow) : NetRoute where
  name := (env.indexToName row.forwardIfIndex).getD env.staleName
  ifaceIndex := row.forwardIfIndex
  gateway := some ⟨AF_INET, row.forwardNextHop⟩

/-- The loop over the table, which the first row to the destination zero ends. -/
def findForwardRow (result : NetRoute) : List ForwardRow → NetRoute
  | [] => result
  | row :: table => if row.forwardDest = 0 then forwardRoute env row else findForwardRow result table

def outOfMemory : ImpactError := .message "Memory allocation error: MIB_IPFORWARDTABLE"

/-- The second call, on the block that the table is written to. -/
def readTable (system : TableSystem) (block : Nat) (heap : Heap) : Option (Heap × Except ImpactError NetRoute) :=
  if system.status = NO_ERROR then
    let result := findForwardRow env (emptyRoute env) system.table
    (free block heap).map fun heap => (heap, .ok result)
  else (free block heap).map fun heap => (heap, .error (.message system.statusText))

def findDefaultRoute (system : TableSystem) (heap : Heap) : Option (Heap × Except ImpactError NetRoute) :=
  match system.firstBlock with
  | none => some (heap, .error outOfMemory)
  | some first =>
      let heap := heap ++ [first]
      if system.firstStatus = ERROR_INSUFFICIENT_BUFFER then
        match free first heap with
        | none => none
        | some heap =>
            match system.secondBlock with
            | none => some (heap, .error outOfMemory)
            | some second => readTable env system second (heap ++ [second])
      else readTable env system first heap

/-! ### The result -/

theorem findForwardRow_eq (result : NetRoute) (table : List ForwardRow) :
    findForwardRow env result table =
      ((table.find? (·.forwardDest = 0)).map (forwardRoute env)).getD result := by
  induction table with
  | nil => rfl
  | cons row table ih =>
      rw [findForwardRow, List.find?_cons]
      by_cases h : row.forwardDest = 0
      · simp [h]
      · simp [h, ih]

/-- The route of the first row to the destination zero, or an empty one. -/
def TableSystem.route (system : TableSystem) : NetRoute :=
  ((system.table.find? (·.forwardDest = 0)).map (forwardRoute env)).getD (emptyRoute env)

/-- The block that the table is in, unless there is no memory for it. -/
def TableSystem.block (system : TableSystem) : Option Nat :=
  if system.firstStatus = ERROR_INSUFFICIENT_BUFFER then system.firstBlock.bind fun _ => system.secondBlock
  else system.firstBlock

variable {system : TableSystem} {heap : Heap}

theorem readTable_eq {block : Nat} (h : block ∉ heap) :
    readTable env system block (heap ++ [block]) =
      some (heap, if system.status = NO_ERROR then .ok (system.route env)
        else .error (.message system.statusText)) := by
  rw [readTable, free_new h, findForwardRow_eq]
  split_ifs <;> rfl

/-- Each block is freed once on every way out, and the route is that of the first row to the
destination zero. -/
theorem findDefaultRoute_eq (hFirst : ∀ block, system.firstBlock = some block → block ∉ heap)
    (hSecond : ∀ block, system.secondBlock = some block → block ∉ heap) :
    findDefaultRoute env system heap =
      some (heap,
        if system.block = none then .error outOfMemory
        else if system.status = NO_ERROR then .ok (system.route env)
        else .error (.message system.statusText)) := by
  rw [findDefaultRoute]
  cases hBlock : system.firstBlock with
  | none =>
      have hNone : system.block = none := by
        rw [TableSystem.block, hBlock]
        split_ifs <;> rfl
      rw [if_pos hNone]
  | some first =>
      rw [TableSystem.block, hBlock]
      dsimp only
      by_cases hStatus : system.firstStatus = ERROR_INSUFFICIENT_BUFFER
      · rw [if_pos hStatus, if_pos hStatus, free_new (hFirst first hBlock)]
        cases hAgain : system.secondBlock with
        | none => rfl
        | some second =>
            dsimp only
            rw [readTable_eq env (hSecond second hAgain)]
            rfl
      · rw [if_neg hStatus, if_neg hStatus, readTable_eq env (hFirst first hBlock),
          if_neg (Option.some_ne_none first)]

end ImpactSockets.Networking.Windows
