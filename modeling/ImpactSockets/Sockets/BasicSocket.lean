import ImpactSockets.Library.Transition
import Mathlib.Data.List.Nodup

/-! Socket handles and the records they share, `sockets/basic_socket.cpp`. A
handle is named by its place in the order of construction and an info record
by its place in the order of allocation. -/
namespace ImpactSockets.BasicSocket

/-- `INVALID_SOCKET`. -/
def invalidSocket : Int := -1

/-- A `basic_socket` object. Its `m_info_` is null once it has been moved. -/
inductive Handle where
  | live (info : Option Nat)
  | destroyed
deriving DecidableEq, Repr

/-- An `impact_error`, with its text or with the text of the system's error. -/
inductive ImpactError where
  | message (text : String)
  | system
deriving DecidableEq, Repr

/-- The handles, the `descriptor` of every info record, the descriptors that
the system has open, and those the library has passed to the close call. -/
structure Process where
  handles : List Handle
  infos : List Int
  opened : List Int
  closes : List Int
deriving DecidableEq, Repr

def init : Process := ⟨[], [], [], []⟩

namespace Process

variable (s : Process)

/-- `m_info_` of a handle; `none` is the null pointer. -/
def info (handle : Nat) : Option Nat :=
  match s.handles[handle]? with
  | some (.live info) => info
  | _ => none

def Live (handle : Nat) : Prop := ∃ info, s.handles[handle]? = some (.live info)

instance (handle : Nat) : Decidable (s.Live handle) :=
  match h : s.handles[handle]? with
  | some (.live info) => isTrue ⟨info, h⟩
  | some .destroyed => isFalse fun ⟨_, hInfo⟩ => by rw [h] at hInfo; cases hInfo
  | none => isFalse fun ⟨_, hInfo⟩ => by rw [h] at hInfo; cases hInfo

/-- `m_info_->descriptor`. -/
def descriptor (info : Nat) : Int := s.infos.getD info invalidSocket

/-- `m_info_.use_count()`. -/
def useCount (info : Nat) : Nat := s.handles.count (.live (some info))

def setInfo (handle : Nat) (info : Option Nat) : Process :=
  { s with handles := s.handles.set handle (.live info) }

def setDescriptor (info : Nat) (descriptor : Int) : Process :=
  { s with infos := s.infos.set info descriptor }

end Process

/-- What a member function leaves behind: the process and what it throws. -/
abbrev Outcome : Type := Process × Option ImpactError

/-- `CLOSE_SOCKET`, which succeeds on the descriptors that are open. -/
def closeSocket (descriptor : Int) (s : Process) : Process × Bool :=
  if descriptor = invalidSocket then (s, false)
  else
    ({ s with opened := s.opened.erase descriptor, closes := s.closes ++ [descriptor] },
      descriptor ∈ s.opened)

/-- `close()` on a handle whose `m_info_` is `info`. -/
def closeInfo (info : Nat) (s : Process) : Outcome :=
  let result := closeSocket (s.descriptor info) s
  (result.1.setDescriptor info invalidSocket, if result.2 then none else some .system)

/-- `close()`. -/
def close (handle : Nat) (s : Process) : Outcome :=
  match s.info handle with
  | none => (s, some (.message "Socket moved"))
  | some info => closeInfo info s

/-- `_M_dtor`. -/
def dtor (handle : Nat) (s : Process) : Outcome :=
  match s.info handle with
  | none => (s, none)
  | some info =>
      if s.useCount info = 1 then
        match if s.descriptor info ≠ invalidSocket then closeInfo info s else (s, none) with
        | (s, some error) => (s, some error)
        | (s, none) => ((s.setDescriptor info invalidSocket).setInfo handle none, none)
      else (s, none)

/-- `_M_copy`. -/
def copy (source target : Nat) (s : Process) : Outcome :=
  match s.info source with
  | none => (s, some (.message "Copying moved socket"))
  | some info => (s.setInfo target (some info), none)

/-- `_M_move`. -/
def move (source target : Nat) (s : Process) : Outcome :=
  match s.info source with
  | none => (s, some (.message "Moving already moved object"))
  | some info => ((s.setInfo target (some info)).setInfo source none, none)

/-- The constructors from another handle. One that throws makes no object. -/
def constructBy (assign : Nat → Process → Outcome) (s : Process) : Outcome :=
  match assign s.handles.length { s with handles := s.handles ++ [.live none] } with
  | (_, some error) => (s, some error)
  | (s, none) => (s, none)

/-- The assignment operators, which differ in what they call in the end. -/
def assignBy (assign : Nat → Process → Outcome) (target : Nat) (s : Process) : Outcome :=
  let result :=
    match s.info target with
    | none => (s, none)
    | some info => if 0 < s.useCount info then dtor target s else (s, none)
  match result with
  | (s, some error) => (s, some error)
  | (s, none) => assign target s

/-- A new info record and the handle that owns it. -/
def construct (descriptor : Int) (s : Process) : Process :=
  { s with
    handles := s.handles ++ [.live (some s.infos.length)]
    infos := s.infos ++ [descriptor] }

/-- `make_socket`, where the system call returns `descriptor`. -/
def makeSocket (descriptor : Int) (s : Process) : Outcome :=
  if descriptor = invalidSocket then (s, some .system)
  else ({ construct descriptor s with opened := s.opened ++ [descriptor] }, none)

/-- `~basic_socket`, which swallows what `_M_dtor` throws. -/
def destroy (handle : Nat) (s : Process) : Process :=
  let s := (dtor handle s).1
  { s with handles := s.handles.set handle .destroyed }

inductive Action where
  | construct
  | makeSocket (descriptor : Int)
  | copyConstruct (source : Nat)
  | moveConstruct (source : Nat)
  | copyAssign (target source : Nat)
  | moveAssign (target source : Nat)
  | close (handle : Nat)
  | destroy (handle : Nat)
deriving DecidableEq, Repr

/-- One operation on live handles. The system hands out no descriptor that is
still open. -/
def perform (s : Process) : Action → Option Outcome
  | .construct => some (construct invalidSocket s, none)
  | .makeSocket descriptor =>
      if descriptor = invalidSocket ∨ (0 ≤ descriptor ∧ descriptor ∉ s.opened) then
        some (makeSocket descriptor s)
      else none
  | .copyConstruct source => if s.Live source then some (constructBy (copy source) s) else none
  | .moveConstruct source => if s.Live source then some (constructBy (move source) s) else none
  | .copyAssign target source =>
      if s.Live target ∧ s.Live source then some (assignBy (copy source) target s) else none
  | .moveAssign target source =>
      if s.Live target ∧ s.Live source then some (assignBy (move source) target s) else none
  | .close handle => if s.Live handle then some (close handle s) else none
  | .destroy handle => if s.Live handle then some (destroy handle s, none) else none

/-- The process after an operation, whether or not it throws. -/
def step (s : Process) (action : Action) : Option Process := (perform s action).map Prod.fst

end ImpactSockets.BasicSocket
