import ImpactSockets.Sockets.Networking.LinuxInterfaces
import ImpactSockets.Sockets.Networking.RouteReply

/-! The socket on which `find_default_route` asks the kernel, and what becomes of it when a
call on it fails. -/
namespace ImpactSockets.Networking

open BasicSocket

variable {α : Type} {s : Process}

/-- The descriptor of the handle is one that the system has open. -/
def isOpen (handle : Nat) (s : Process) : Bool :=
  match s.info handle with
  | some info => s.descriptor info ∈ s.opened
  | none => false

/-- A function with a `kernel_socket`. What comes of the calls of `send` and `recv` is `talk`,
unless one of them waits forever. When they throw, the socket is destroyed without a call of
`close`. -/
def onKernelSocket (descriptor : Int) (talk : Option (Except ImpactError α)) (s : Process) :
    Option (Process × Except ImpactError α) :=
  let kernelSocket := s.handles.length
  match openSocket descriptor kernelSocket (construct invalidSocket s) with
  | (s, some error) => some (destroy kernelSocket s, .error error)
  | (s, none) =>
      (if isOpen kernelSocket s then talk else some (.error .system)).map fun
        | .error error => (destroy kernelSocket s, .error error)
        | .ok value =>
            match close kernelSocket s with
            | (s, some error) => (destroy kernelSocket s, .error error)
            | (s, none) => (destroy kernelSocket s, .ok value)

theorem isOpen_grown {descriptor : Int} (hOpen : descriptor ∈ s.opened) :
    isOpen s.handles.length
      (grown s [.live (some (s.infos.length + 1)), .destroyed] [invalidSocket, descriptor]) = true := by
  have hMem : descriptor ∈ (grown s [.live (some (s.infos.length + 1)), .destroyed]
    [invalidSocket, descriptor]).opened := hOpen
  simp [isOpen, hMem]

theorem onKernelSocket_opened (referenced : Referenced s) {descriptor : Int} (h : descriptor ≠ invalidSocket)
    (hFresh : descriptor ∉ s.opened) (talk : Option (Except ImpactError α)) :
    onKernelSocket descriptor talk s =
      talk.map (grown { s with closes := s.closes ++ [descriptor] } [.destroyed, .destroyed]
        [invalidSocket, invalidSocket], ·) := by
  have hIsOpen := @isOpen_grown (opening descriptor s) descriptor (mem_opening descriptor)
  have hDestroy := @destroy_opened (opening descriptor s) referenced descriptor h (mem_opening descriptor)
  have hClose := @close_grown (opening descriptor s) descriptor h (mem_opening descriptor) .destroyed
  have hClosed := @destroy_closed { s with closes := s.closes ++ [descriptor] } referenced
  simp only [opening_handles, opening_infos, opening_closes, erase_opening hFresh] at hIsOpen hDestroy hClose
  dsimp only at hClosed
  simp only [onKernelSocket, openSocket_constructed referenced h, hIsOpen, if_true]
  cases talk with
  | none => rfl
  | some outcome =>
      cases outcome with
      | error error => exact congrArg (fun t => some (t, _)) hDestroy
      | ok value =>
          simp only [Option.map_some, hClose]
          exact congrArg (fun t => some (t, _)) hClosed

/-- However the talk ends, the socket is closed once and nothing else has changed. -/
theorem onKernelSocket_restores (referenced : Referenced s) {descriptor : Int} (hFresh : Fresh s descriptor)
    (talk : Option (Except ImpactError α)) :
    ∃ t, onKernelSocket descriptor talk s =
        (if descriptor = invalidSocket then some (.error .system) else talk).map (t, ·) ∧
      Restored (opensOf descriptor) s t := by
  by_cases h : descriptor = invalidSocket
  · refine ⟨grown s [.destroyed] [invalidSocket], ?_, ⟨1, rfl⟩, ⟨1, rfl⟩, rfl, ?_⟩
    · simp only [onKernelSocket, h, openSocket_invalid, construct_eq_grown, destroy_unopened referenced]
      rfl
    · rw [opensOf, if_pos h, List.append_nil]
      rfl
  · rw [if_neg h]
    refine ⟨_, onKernelSocket_opened referenced h (hFresh h) talk, ⟨2, rfl⟩, ⟨2, rfl⟩, rfl, ?_⟩
    rw [opensOf, if_neg h]
    rfl

/-- What is done with the value once the socket has been closed. -/
theorem map_onKernelSocket {β : Type} (descriptor : Int) (talk : Option (Except ImpactError α)) (f : α → β) :
    (onKernelSocket descriptor talk s).map (fun outcome => (outcome.1, outcome.2.map f)) =
      onKernelSocket descriptor (talk.map (Except.map f)) s := by
  unfold onKernelSocket
  dsimp only
  rcases openSocket descriptor s.handles.length (construct invalidSocket s) with ⟨t, _ | error⟩
  · dsimp only
    cases isOpen s.handles.length t with
    | false => rfl
    | true =>
        rcases talk with _ | _ | value
        · rfl
        · rfl
        · simp only [if_true, Option.map_some, Except.map]
          rcases close s.handles.length t with ⟨u, _ | error⟩ <;> rfl
  · rfl

/-! ### Linux -/

variable (env : Environment)

/-- The request and its reply: whether the request is sent, and whether `recv` fails once
there are no more datagrams or waits for another. -/
def askKernel (heap : Memory) (pid : UInt32) (sent fails : Bool) (datagrams : List Bytes) :
    Option (Except ImpactError NetRoute) :=
  if sent then
    match findDefaultRouteFrom env heap pid datagrams with
    | .returned route => some (.ok route)
    | .threw text => some (.error (.message text))
    | .waiting => if fails then some (.error .system) else none
  else some (.error .system)

/-- `find_default_route` with its socket. -/
def findDefaultRouteOn (descriptor : Int) (heap : Memory) (pid : UInt32) (sent fails : Bool) (datagrams : List Bytes)
    (s : Process) : Option (Process × Except ImpactError NetRoute) :=
  onKernelSocket descriptor (askKernel env heap pid sent fails datagrams) s

end ImpactSockets.Networking
