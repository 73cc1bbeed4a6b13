import Mathlib.Data.List.ReduceOption
import ImpactSockets.Sockets.BasicSocket.References
import ImpactSockets.Sockets.Networking.Interfaces

/-! The interfaces on Linux: for the type and the hardware address of each entry a socket
is opened, asked and closed. -/
namespace ImpactSockets.Networking

open BasicSocket

/-- `get_interface_type`, of the `ARPHRD` codes. -/
def getInterfaceType (family : UInt16) : InterfaceType :=
  if family = 1 ∨ family = 2 then .ethernet
  else if family = 6 ∨ family = 800 ∨ family = 801 ∨ family = 802 ∨ family = 803 then .wifi
  else if family = 24 then .firewire
  else if family = 512 then .ppp
  else if family = 19 then .atm
  else .other

/-- `ifr_hwaddr`. -/
structure HardwareAddress where
  family : UInt16
  data : Vector UInt8 14
deriving DecidableEq, Repr

/-- What the system answers for one entry: the descriptor of the socket, the hardware
address, and what `error_message` says of a failure of the latter. -/
structure EntryAnswer where
  descriptor : Int
  hardware : Option HardwareAddress
  error : String
deriving DecidableEq, Repr

/-- `::ioctl` with `SIOCGIFHWADDR`, which fails on a descriptor that is not open. -/
def ioctl (answer : EntryAnswer) (handle : Nat) (s : Process) : Option HardwareAddress :=
  match s.info handle with
  | some info => if s.descriptor info ∈ s.opened then answer.hardware else none
  | none => none

/-- The function once `handle` has been constructed. -/
def queryInterface (answer : EntryAnswer) (handle : Nat) (token : NetInterface) (s : Process) :
    Process × Except ImpactError NetInterface :=
  match openSocket answer.descriptor handle s with
  | (s, some error) => (s, .error error)
  | (s, none) =>
      let status := ioctl answer handle s
      match close handle s with
      | (s, some error) => (s, .error error)
      | (s, none) =>
          match status with
          | none => (s, .error (.message (answer.error ++ " " ++ token.name ++ "\n")))
          | some request =>
              (s, .ok { token with
                type := getInterfaceType request.family
                mac := request.data.toList.take 6 })

/-- `handle` is destroyed on every way out. -/
def setInterfaceTypeMac (answer : EntryAnswer) (token : NetInterface) (s : Process) :
    Process × Except ImpactError NetInterface :=
  let handle := s.handles.length
  let outcome := queryInterface answer handle token (construct invalidSocket s)
  (destroy handle outcome.1, outcome.2)

variable (nameToIndex : String → UInt32)

def traverseLinks (list : List NetInterface) (s : Process) :
    List (IfAddrs × EntryAnswer) → Process × Except ImpactError (List NetInterface)
  | [] => (s, .ok list)
  | (target, answer) :: addresses =>
      match setInterfaceTypeMac answer (linkToken nameToIndex target) s with
      | (s, .error error) => (s, .error error)
      | (s, .ok token) => traverseLinks (if target.IsLink then list else list ++ [token]) s addresses

/-- `find_network_interfaces`, with the entries that `getifaddrs` lists unless it fails. -/
def findNetworkInterfaces (addresses : Option (List (IfAddrs × EntryAnswer))) (s : Process) :
    Process × Except ImpactError (List NetInterface) :=
  match addresses with
  | none => (s, .error .system)
  | some addresses => traverseLinks nameToIndex [] s addresses

/-! ### One entry -/

/-- What is returned or thrown for an entry. -/
def EntryAnswer.interface (answer : EntryAnswer) (token : NetInterface) : Except ImpactError NetInterface :=
  if answer.descriptor = invalidSocket then .error .system
  else
    match answer.hardware with
    | none => .error (.message (answer.error ++ " " ++ token.name ++ "\n"))
    | some request =>
        .ok { token with
          type := getInterfaceType request.family
          mac := request.data.toList.take 6 }

/-- What a call leaves behind: what it made is destroyed, and each descriptor that it opened
it has closed. -/
structure Restored (opens : List Int) (s t : Process) : Prop where
  handles : ∃ count, t.handles = s.handles ++ List.replicate count .destroyed
  infos : ∃ count, t.infos = s.infos ++ List.replicate count invalidSocket
  opened : t.opened = s.opened
  closes : t.closes = s.closes ++ opens

variable {s t : Process}

/-- No socket for the query: the exception leaves nothing behind. -/
theorem setInterfaceTypeMac_unopened (referenced : Referenced s) {answer : EntryAnswer}
    (h : answer.descriptor = invalidSocket) (token : NetInterface) :
    setInterfaceTypeMac answer token s = (grown s [.destroyed] [invalidSocket], .error .system) := by
  simp only [setInterfaceTypeMac, queryInterface, h, openSocket_invalid, construct_eq_grown,
    destroy_unopened referenced]

/-- The request is made on the socket that has just been opened. -/
theorem ioctl_grown {answer : EntryAnswer} (hOpen : answer.descriptor ∈ s.opened) :
    ioctl answer s.handles.length (grown s [.live (some (s.infos.length + 1)), .destroyed]
      [invalidSocket, answer.descriptor]) = answer.hardware := by
  have hMem : answer.descriptor ∈ (grown s [.live (some (s.infos.length + 1)), .destroyed]
      [invalidSocket, answer.descriptor]).opened := hOpen
  simp [ioctl, hMem]

/-- The socket of the query is closed before the entry is returned or the exception leaves. -/
theorem setInterfaceTypeMac_opened (referenced : Referenced s) {answer : EntryAnswer}
    (h : answer.descriptor ≠ invalidSocket) (hFresh : answer.descriptor ∉ s.opened) (token : NetInterface) :
    setInterfaceTypeMac answer token s =
      (grown { s with closes := s.closes ++ [answer.descriptor] } [.destroyed, .destroyed]
        [invalidSocket, invalidSocket],
        answer.interface token) := by
  have hAsk := @ioctl_grown (opening answer.descriptor s) answer (mem_opening answer.descriptor)
  have hClose := @close_grown (opening answer.descriptor s) answer.descriptor h (mem_opening answer.descriptor)
    .destroyed
  have hDestroy := @destroy_closed { s with closes := s.closes ++ [answer.descriptor] } referenced
  simp only [opening_handles, opening_infos, opening_closes, erase_opening hFresh] at hAsk hClose
  dsimp only at hDestroy
  simp only [setInterfaceTypeMac, queryInterface, openSocket_constructed referenced h, hAsk, hClose,
    EntryAnswer.interface, if_neg h]
  cases answer.hardware with
  | none => exact congrArg (·, _) hDestroy
  | some request => exact congrArg (·, _) hDestroy

/-- What a call of `make_socket` opens. -/
def opensOf (descriptor : Int) : List Int := if descriptor = invalidSocket then [] else [descriptor]

/-- The system hands out no descriptor that is open. -/
def Fresh (s : Process) (descriptor : Int) : Prop := descriptor ≠ invalidSocket → descriptor ∉ s.opened

/-- One entry leaves the process as it was, but for the descriptor that came and went. -/
theorem restored_of_entry (referenced : Referenced s) {answer : EntryAnswer} (hFresh : Fresh s answer.descriptor)
    (token : NetInterface) :
    ∃ t, setInterfaceTypeMac answer token s = (t, answer.interface token) ∧
      Restored (opensOf answer.descriptor) s t := by
  by_cases h : answer.descriptor = invalidSocket
  · refine ⟨grown s [.destroyed] [invalidSocket], ?_, ⟨1, rfl⟩, ⟨1, rfl⟩, rfl, ?_⟩
    · rw [setInterfaceTypeMac_unopened referenced h, EntryAnswer.interface, if_pos h]
    · rw [opensOf, if_pos h, List.append_nil]
      rfl
  · refine ⟨_, setInterfaceTypeMac_opened referenced h (hFresh h) token, ⟨2, rfl⟩, ⟨2, rfl⟩, rfl, ?_⟩
    rw [opensOf, if_neg h]
    rfl

/-! ### All entries -/

theorem Restored.refl (s : Process) : Restored [] s s := ⟨⟨0, by simp⟩, ⟨0, by simp⟩, rfl, by simp⟩

/-- Two parts that restore the process, one after the other. -/
theorem Restored.trans {first second : List Int} {middle : Process} (before : Restored first s middle)
    (after : Restored second middle t) : Restored (first ++ second) s t := by
  obtain ⟨⟨handles, hHandles⟩, ⟨infos, hInfos⟩, hOpened, hCloses⟩ := before
  obtain ⟨⟨handles', hHandles'⟩, ⟨infos', hInfos'⟩, hOpened', hCloses'⟩ := after
  refine ⟨⟨handles + handles', ?_⟩, ⟨infos + infos', ?_⟩, hOpened'.trans hOpened, ?_⟩
  · rw [hHandles', hHandles, List.append_assoc, List.replicate_append_replicate]
  · rw [hInfos', hInfos, List.append_assoc, List.replicate_append_replicate]
  · rw [hCloses', hCloses, List.append_assoc]

/-- What is restored still refers to records that exist. -/
theorem Restored.referenced {opens : List Int} (restored : Restored opens s t) (referenced : Referenced s) :
    Referenced t := by
  obtain ⟨⟨count, hHandles⟩, ⟨records, hInfos⟩, -, -⟩ := restored
  intro handle info h
  rw [Process.info_eq_some, hHandles, List.getElem?_append] at h
  rw [hInfos, List.length_append]
  split_ifs at h
  · exact Nat.lt_add_right _ (referenced handle info (Process.info_eq_some.mpr h))
  · have hMem := List.eq_of_mem_replicate (List.mem_of_getElem? h)
    cases hMem

/-- What is listed of an entry, or thrown. -/
def entryInterface (entry : IfAddrs × EntryAnswer) : Except ImpactError (Option NetInterface) :=
  (entry.2.interface (linkToken nameToIndex entry.1)).map fun token => if entry.1.IsLink then none else some token

/-- The descriptors that are opened, up to an entry that fails. -/
def opensFor : List (IfAddrs × EntryAnswer) → List Int
  | [] => []
  | entry :: addresses =>
      match entryInterface nameToIndex entry with
      | .error _ => opensOf entry.2.descriptor
      | .ok _ => opensOf entry.2.descriptor ++ opensFor addresses

/-- The entries are visited in order up to one whose query throws, and each restores the process. -/
theorem traverseLinks_spec (referenced : Referenced s) {addresses : List (IfAddrs × EntryAnswer)}
    (hFresh : ∀ entry ∈ addresses, Fresh s entry.2.descriptor) (list : List NetInterface) :
    ∃ t, traverseLinks nameToIndex list s addresses =
        (t, (addresses.mapM (entryInterface nameToIndex)).map fun tokens => list ++ tokens.reduceOption) ∧
      Restored (opensFor nameToIndex addresses) s t := by
  induction addresses generalizing s list with
  | nil =>
      refine ⟨s, ?_, .refl s⟩
      rw [traverseLinks, List.mapM_nil]
      exact congrArg (fun tokens => (s, Except.ok tokens)) (List.append_nil list).symm
  | cons entry addresses ih =>
      obtain ⟨target, answer⟩ := entry
      obtain ⟨middle, hEntry, before⟩ := restored_of_entry referenced (hFresh (target, answer) (by simp))
        (linkToken nameToIndex target)
      have hRest : ∀ entry ∈ addresses, Fresh middle entry.2.descriptor := by
        intro entry hMem hValid
        rw [before.opened]
        exact hFresh entry (List.mem_cons_of_mem _ hMem) hValid
      rw [traverseLinks, hEntry, List.mapM_cons, opensFor, entryInterface]
      cases answer.interface (linkToken nameToIndex target) with
      | error error => exact ⟨middle, rfl, before⟩
      | ok token =>
          obtain ⟨t, hTraverse, after⟩ := ih (before.referenced referenced) hRest
            (if target.IsLink then list else list ++ [token])
          refine ⟨t, hTraverse.trans (congrArg (t, ·) ?_), before.trans after⟩
          cases addresses.mapM (entryInterface nameToIndex) with
          | error error => rfl
          | ok tokens =>
              refine congrArg Except.ok ?_
              dsimp only
              split_ifs <;> simp

/-- Whatever handles the process has, and whatever the system answers, the enumeration
leaves no descriptor open and no handle changed. It returns the entries that are not links,
in their order, with their types and hardware addresses, or throws the first error. -/
theorem findNetworkInterfaces_spec {actions : List Action} (run : Transition.Runs step init actions s)
    (addresses : List (IfAddrs × EntryAnswer)) (hFresh : ∀ entry ∈ addresses, Fresh s entry.2.descriptor) :
    ∃ t, findNetworkInterfaces nameToIndex (some addresses) s =
        (t, (addresses.mapM (entryInterface nameToIndex)).map List.reduceOption) ∧
      Restored (opensFor nameToIndex addresses) s t :=
  traverseLinks_spec nameToIndex (referenced_of_runs run) hFresh []

/-- A link, and an interface that has lost its hardware address when it is asked for. -/
def unplugged : List (IfAddrs × EntryAnswer) :=
  [(⟨"eth0", 0, some (.link 0 []), none, none⟩, ⟨4, some ⟨1, Vector.replicate 14 7⟩, ""⟩),
    (⟨"eth1", 0, some (.inet (Vector.replicate 14 0)), none, none⟩, ⟨4, none, "No such device [19]"⟩)]

/-- A process with one socket. -/
def oneSocket : Process := ⟨[.live (some 0)], [3], [3], []⟩

/-- An interface that is gone between the list and the query. -/
theorem findNetworkInterfaces_unplugged :
    ∃ t, findNetworkInterfaces (fun _ => 1) (some unplugged) oneSocket =
        (t, .error (.message "No such device [19] eth1\n")) ∧
      Restored [4, 4] oneSocket t :=
  @findNetworkInterfaces_spec (fun _ => 1) oneSocket [.makeSocket 3] (Transition.runs_iff_foldlM.mpr rfl) unplugged
    (by simp [unplugged, Fresh, oneSocket])

end ImpactSockets.Networking
