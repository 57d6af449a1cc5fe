import Eagine.Serialization.Block
import Eagine.Theory.Refinement
import Eagine.Utility.DoubleBuffer

/-!
# The text output over sockets

The text is written to all the clients that are connected.  A client has at most one
asynchronous write in flight, which reads the current buffer, and collects in the next
buffer what is written in the meantime.
-/

open List

namespace Eagine.LogServer

open Serialization

/-- `asio_output_stream`, with the data of the write operation that is in flight, what
the other side received, and what was written before it was accepted. -/
structure AsioClient where
  buffers : DoubleBuffer Block := { first := [], second := [] }
  failed : Bool := false
  writing : Bool := false
  operation : Option Block := none
  received : Block := []
  missed : Block := []
  deriving DecidableEq, Repr

namespace AsioClient

/-- `_write` -/
def writeNext (client : AsioClient) : AsioClient :=
  let buffers := client.buffers.swap.setNext []
  if buffers.current = [] then { client with buffers := buffers, writing := false }
  else { client with buffers := buffers, writing := true, operation := some buffers.current }

def write (data : Block) (client : AsioClient) : AsioClient :=
  let collected :=
    { client with buffers := client.buffers.setNext (client.buffers.next ++ data) }
  if client.writing then collected else collected.writeNext

/-- The handler of a write operation, which read the current buffer.  The operation
`fails` after some of the bytes, or not at all. -/
def handle (fails : Option Nat) (client : AsioClient) : Option AsioClient :=
  client.operation.map fun _ =>
    match fails with
    | none =>
        writeNext { client with
          operation := none
          received := client.received ++ client.buffers.current }
    | some size =>
        { client with
          operation := none
          received := client.received ++ client.buffers.current.take size
          failed := true }

end AsioClient

/-- `asio_output_base`, with all the text that was written to it. -/
structure AsioOutput where
  clients : List AsioClient := []
  written : Block := []
  deriving DecidableEq, Repr

/-- A client is accepted, a text is written, or the handler of a client is called. -/
inductive AsioOutputEvent where
  | accept
  | write (text : Block)
  | handle (index : Nat) (fails : Option Nat)
  deriving DecidableEq, Repr

namespace AsioOutput

def accept (output : AsioOutput) : AsioOutput :=
  { output with clients := output.clients ++ [{ missed := output.written }] }

def write (text : Block) (output : AsioOutput) : AsioOutput :=
  { clients := (output.clients.filter (!·.failed)).map (AsioClient.write text)
    written := output.written ++ text }

def handle (index : Nat) (fails : Option Nat) (output : AsioOutput) : Option AsioOutput :=
  (output.clients[index]?.bind (AsioClient.handle fails)).map fun client =>
    { output with clients := output.clients.set index client }

def step (output : AsioOutput) : AsioOutputEvent → Option AsioOutput
  | .accept => some output.accept
  | .write text => some (output.write text)
  | .handle index fails => output.handle index fails

end AsioOutput

namespace AsioClient

/-- One write operation is in flight while the client is writing, and its data is left
alone.  Nothing of what was written since the client was accepted is lost, and nothing
waits while the client is idle.  A client that has failed received a part of it. -/
structure IsServed (written : Block) (client : AsioClient) : Prop where
  intact : ∀ data, client.operation = some data →
    client.buffers.current = data ∧ client.writing = true ∧ client.failed = false
  resting : client.operation = none → client.failed = false →
    client.writing = false ∧ client.buffers.next = []
  complete : client.failed = false → client.missed ++ (client.received ++
    (client.operation.getD [] ++ client.buffers.next)) = written
  part : client.missed ++ client.received <+: written

variable {written : Block} {client : AsioClient}

theorem isServed_accepted (written : Block) : IsServed written { missed := written } := by
  refine ⟨fun data none => absurd none (Option.some_ne_none data).symm, fun _ _ => ⟨rfl, rfl⟩,
    fun _ => append_nil written, ?_⟩
  rw [append_nil]

/-- What was collected is written when no operation is in flight. -/
theorem isServed_writeNext (connected : client.failed = false)
    (noneInFlight : client.operation = none)
    (complete : client.missed ++ (client.received ++ client.buffers.next) = written) :
    IsServed written client.writeNext := by
  have current : (client.buffers.swap.setNext []).current = client.buffers.next := by
    rw [DoubleBuffer.current_setNext, DoubleBuffer.current_swap]
  have cleared : (client.buffers.swap.setNext []).next = [] := DoubleBuffer.next_setNext _ _
  have part : client.missed ++ client.received <+: written := by
    rw [← complete, ← append_assoc]
    exact prefix_append _ _
  rw [writeNext]
  simp only [current]
  by_cases empty : client.buffers.next = []
  · rw [if_pos empty]
    refine ⟨fun data inFlight => ?_, fun _ _ => ⟨rfl, cleared⟩, fun _ => ?_, part⟩
    · exact absurd (noneInFlight.symm.trans inFlight) (Option.some_ne_none data).symm
    · rw [← complete, empty, cleared, noneInFlight]
      rfl
  · rw [if_neg empty]
    refine ⟨fun data inFlight => ⟨?_, rfl, connected⟩, fun none => ?_, fun _ => ?_, part⟩
    · exact current.trans (Option.some.inj inFlight)
    · exact absurd none (Option.some_ne_none _)
    · rw [← complete, cleared, append_nil]
      rfl

theorem IsServed.write (served : IsServed written client) (connected : client.failed = false)
    (text : Block) : IsServed (written ++ text) (client.write text) := by
  have complete := served.complete connected
  have longer : client.missed ++ (client.received ++ (client.operation.getD [] ++
      (client.buffers.setNext (client.buffers.next ++ text)).next)) = written ++ text := by
    rw [DoubleBuffer.next_setNext, ← complete]
    simp only [append_assoc]
  rw [AsioClient.write]
  rcases Option.eq_none_or_eq_some client.operation with operation | ⟨data, operation⟩
  · obtain ⟨idle, -⟩ := served.resting operation connected
    rw [operation, Option.getD_none, nil_append] at longer
    rw [idle, if_neg Bool.false_ne_true]
    exact isServed_writeNext connected operation longer
  · obtain ⟨current, writing, -⟩ := served.intact data operation
    rw [if_pos writing]
    refine ⟨fun other inFlight => ⟨?_, writing, connected⟩, fun none => ?_, fun _ => longer,
      served.part.trans (prefix_append _ _)⟩
    · rw [DoubleBuffer.current_setNext, current]
      exact Option.some.inj (operation.symm.trans inFlight)
    · exact absurd (operation.symm.trans none) (Option.some_ne_none data)

theorem IsServed.handle (served : IsServed written client) {fails : Option Nat}
    {after : AsioClient} (handled : client.handle fails = some after) : IsServed written after := by
  unfold AsioClient.handle at handled
  rcases Option.eq_none_or_eq_some client.operation with operation | ⟨data, operation⟩
  · rw [operation] at handled
    cases handled
  · obtain ⟨current, writing, connected⟩ := served.intact data operation
    have complete := served.complete connected
    rw [operation, Option.getD_some, ← current] at complete
    rw [operation] at handled
    cases fails with
    | none =>
        obtain rfl := Option.some.inj handled
        refine isServed_writeNext connected rfl ?_
        rw [← complete, append_assoc]
    | some size =>
        obtain rfl := Option.some.inj handled
        refine ⟨fun data none => absurd none (Option.some_ne_none data).symm,
          fun _ connected => Bool.noConfusion connected,
          fun connected => Bool.noConfusion connected, ?_⟩
        rw [← complete]
        refine (prefix_append_right_inj _).mpr ((prefix_append_right_inj _).mpr ?_)
        exact (List.take_prefix _ _).trans (prefix_append _ _)

end AsioClient

namespace AsioOutput

/-- The clients of an output are served in every interleaving of the texts, of the
clients that connect and of the write operations that end or fail. -/
theorem clientsServed {events : List AsioOutputEvent} {output : AsioOutput}
    (ran : Theory.run step {} events = some output) :
    ∀ client ∈ output.clients, client.IsServed output.written := by
  refine @Theory.run_invariant _ _ step
    (fun output => ∀ client ∈ output.clients, client.IsServed output.written) events
    (fun output after event _ served stepped => ?_) {} output (forall_mem_nil _) ran
  cases event with
  | accept =>
      obtain rfl := Option.some.inj stepped
      intro client member
      rcases mem_append.mp member with before | new
      · exact served client before
      · obtain rfl := mem_singleton.mp new
        exact AsioClient.isServed_accepted output.written
  | write text =>
      obtain rfl := Option.some.inj stepped
      intro client member
      obtain ⟨before, present, rfl⟩ := mem_map.mp member
      obtain ⟨among, connected⟩ := mem_filter.mp present
      exact (served before among).write (Bool.not_eq_eq_eq_not.mp connected) text
  | handle index fails =>
      obtain ⟨handled, found, rfl⟩ := Option.map_eq_some_iff.mp stepped
      obtain ⟨before, atIndex, handles⟩ := Option.bind_eq_some_iff.mp found
      intro client member
      rcases mem_or_eq_of_mem_set member with other | rfl
      · exact served client other
      · exact (served before (mem_of_getElem? atIndex)).handle handles

/-- The second text is collected while the first one is in flight, and a part of it is
sent. -/
theorem clientsServed_failed :
    ∃ output, Theory.run step {} [.accept, .write [1], .write [2, 3], .handle 0 none,
        .handle 0 (some 1)] = some output ∧
      output.clients.map (·.received) = [[1, 2]] ∧
      ∀ client ∈ output.clients, client.IsServed output.written := by
  have ran : (Theory.run step {} [.accept, .write [1], .write [2, 3], .handle 0 none,
      .handle 0 (some 1)]).map (·.clients.map (·.received)) = some [[1, 2]] := rfl
  obtain ⟨output, reached, received⟩ := Option.map_eq_some_iff.mp ran
  exact ⟨output, reached, received, clientsServed reached⟩

end AsioOutput

end Eagine.LogServer
