import ImpactSockets.Sockets.BasicSocket.References

/-! Raw sockets on Linux, `sockets/raw_socket.cpp`. Copies are made member by member, and
share the record of their sockets. A raw socket is named by its place in the order of
construction. -/
namespace ImpactSockets.RawSockets

open BasicSocket

/-- A `raw_socket`. Its `m_socket_` is one of the handles of the process. -/
structure RawSocket where
  socket : Nat
  interfaceName : String
deriving DecidableEq, Repr

/-- A process with raw sockets, of which some have been destroyed. -/
structure Program where
  process : Process
  objects : List (Option RawSocket)
deriving DecidableEq, Repr

def init : Program := ⟨BasicSocket.init, []⟩

namespace Program

variable (m : Program)

def object (k : Nat) : Option RawSocket := m.objects[k]?.join

def socket (k : Nat) : Option Nat := (m.object k).map RawSocket.socket

/-- The record of the socket, unless there is none. -/
def record (k : Nat) : Option Nat := (m.socket k).bind m.process.info

end Program

/-- What a member function leaves behind: the program and what it throws. -/
abbrev Outcome : Type := Program × Option ImpactError

/-- `raw_socket()`. When it throws, its members are destroyed. -/
def construct (descriptor : Int) (m : Program) : Outcome :=
  let handle := m.process.handles.length
  match openSocket descriptor handle (BasicSocket.construct invalidSocket m.process) with
  | (s, some error) => ({ m with process := BasicSocket.destroy handle s }, some error)
  | (s, none) => (⟨s, m.objects ++ [some ⟨handle, ""⟩]⟩, none)

/-- `raw_socket(const raw_socket&)`, the one of the language. -/
def copyConstruct (source : RawSocket) (m : Program) : Outcome :=
  match constructBy (copy source.socket) m.process with
  | (s, some error) => ({ m with process := s }, some error)
  | (s, none) => (⟨s, m.objects ++ [some ⟨m.process.handles.length, source.interfaceName⟩]⟩, none)

/-- `operator=(const raw_socket&)`, the one of the language. The name is copied even if the
socket is not. -/
def copyAssign (k : Nat) (target source : RawSocket) (m : Program) : Outcome :=
  let assigned := assignBy (copy source.socket) target.socket m.process
  (⟨assigned.1, m.objects.set k (some { target with interfaceName := source.interfaceName })⟩, assigned.2)

/-- `attach`, where the system has the interface and can bind to it, or not. The name is kept
in either case. -/
def attach (k : Nat) (target : RawSocket) (name : String) (found : Bool) (m : Program) : Outcome :=
  let isOpen := match m.process.info target.socket with
    | some info => decide (m.process.descriptor info ∈ m.process.opened)
    | none => false
  ({ m with objects := m.objects.set k (some { target with interfaceName := name }) },
    if isOpen && found then none else some .system)

/-- `~raw_socket`, which closes the socket, swallows the error and destroys the members. -/
def destroy (k : Nat) (target : RawSocket) (m : Program) : Program :=
  ⟨BasicSocket.destroy target.socket (close target.socket m.process).1, m.objects.set k none⟩

inductive Action where
  | construct (descriptor : Int)
  | copyConstruct (source : Nat)
  | copyAssign (target source : Nat)
  | attach (target : Nat) (name : String) (found : Bool)
  | destroy (target : Nat)
deriving DecidableEq, Repr

/-- One operation on raw sockets that have not been destroyed. -/
def perform (m : Program) : Action → Option Outcome
  | .construct descriptor =>
      if descriptor = invalidSocket ∨ (0 ≤ descriptor ∧ descriptor ∉ m.process.opened) then
        some (construct descriptor m)
      else none
  | .copyConstruct source => (m.object source).map fun source => copyConstruct source m
  | .copyAssign k source =>
      match m.object k, m.object source with
      | some target, some source => some (copyAssign k target source m)
      | _, _ => none
  | .attach k name found => (m.object k).map fun target => attach k target name found m
  | .destroy k => (m.object k).map fun target => (destroy k target m, none)

/-- The program after an operation, whether or not it throws. -/
def step (m : Program) (action : Action) : Option Program := (perform m action).map Prod.fst

end ImpactSockets.RawSockets
