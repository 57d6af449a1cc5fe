import Eagine.Serialization.Block

/-!
# Sinks over an output stream

`OstreamDataSink` writes to an output stream.  Each open transaction writes to a
string stream of its own, whose buffer is inserted into the stream below when
the transaction is committed.
-/

namespace Eagine.Serialization

/-- A standard output stream: the characters that went into it and its state. -/
structure OStream where
  content : Block := []
  eofbit : Bool := false
  failbit : Bool := false
  badbit : Bool := false
deriving DecidableEq

namespace OStream

def good (stream : OStream) : Bool :=
  !stream.eofbit && !stream.failbit && !stream.badbit

/-- Unformatted output: nothing is done in a stream that is not good. -/
def write (data : Block) (stream : OStream) : OStream :=
  if stream.good then { stream with content := stream.content ++ data } else stream

/-- Insertion of a stream buffer, which fails when there are no characters. -/
def insertBuffer (buffer : Block) (stream : OStream) : OStream :=
  if stream.good then
    if buffer.isEmpty then { stream with failbit := true }
    else { stream with content := stream.content ++ buffer }
  else stream

end OStream

/-- A sink backed by an output stream; the innermost transaction comes first. -/
structure OstreamDataSink where
  out : OStream
  subs : List OStream := []
deriving DecidableEq

namespace OstreamDataSink

def current (sink : OstreamDataSink) : OStream :=
  match sink.subs with
  | [] => sink.out
  | top :: _ => top

/-- The current stream is replaced with another. -/
def update (sink : OstreamDataSink) (stream : OStream) : OstreamDataSink :=
  match sink.subs with
  | [] => { sink with out := stream }
  | _ :: rest => { sink with subs := stream :: rest }

def write (data : Block) : StateM OstreamDataSink SerializationErrors := fun sink =>
  let sink := sink.update (sink.current.write data)
  if sink.current.eofbit then (.ofBit .tooMuchData, sink)
  else if !sink.current.good then (.ofBit .dataSinkError, sink)
  else (∅, sink)

/-- Opens a transaction; the handle is the number of open transactions. -/
def beginWork : StateM OstreamDataSink Nat := fun sink =>
  let opened := { sink with subs := {} :: sink.subs }
  (opened.subs.length, opened)

/-- Inserts what the innermost transaction wrote into the stream below. -/
def commit (_handle : Nat) : StateM OstreamDataSink SerializationErrors := fun sink =>
  match sink.subs with
  | [] => (∅, sink)
  | top :: rest =>
      let closed := { sink with subs := rest }
      (∅, closed.update (closed.current.insertBuffer top.content))

/-- Forgets what the innermost transaction wrote. -/
def rollback (_handle : Nat) : StateM OstreamDataSink Unit := fun sink =>
  ((), { sink with subs := sink.subs.tail })

end OstreamDataSink

/-- The calls of a sink that write in transactions. -/
structure DataSink (σ : Type) where
  write : Block → StateM σ SerializationErrors
  beginWork : StateM σ Nat
  commit : Nat → StateM σ SerializationErrors
  rollback : Nat → StateM σ Unit

def blockDataSink : DataSink BlockDataSink where
  write := BlockDataSink.write
  beginWork := BlockDataSink.beginWork
  commit := BlockDataSink.commit
  rollback := BlockDataSink.rollback

def ostreamDataSink : DataSink OstreamDataSink where
  write := OstreamDataSink.write
  beginWork := OstreamDataSink.beginWork
  commit := OstreamDataSink.commit
  rollback := OstreamDataSink.rollback

/-- A sequence of calls in which every transaction is closed: writes, and
transactions that are committed or rolled back. -/
inductive Script where
  | done
  | write (data : Block) (rest : Script)
  | committed (body rest : Script)
  | rolledBack (body rest : Script)

namespace Script

/-- The calls are made; the reports are those of the writes. -/
def run {σ : Type} (sink : DataSink σ) : Script → StateM σ (List SerializationErrors)
  | done => pure []
  | write data rest => do
      let errors ← sink.write data
      let more ← rest.run sink
      pure (errors :: more)
  | committed body rest => do
      let handle ← sink.beginWork
      let inner ← body.run sink
      let _ ← sink.commit handle
      let outer ← rest.run sink
      pure (inner ++ outer)
  | rolledBack body rest => do
      let handle ← sink.beginWork
      let inner ← body.run sink
      sink.rollback handle
      let outer ← rest.run sink
      pure (inner ++ outer)

/-- What is written and not rolled back. -/
def data : Script → Block
  | done => []
  | write data rest => data ++ rest.data
  | committed body rest => body.data ++ rest.data
  | rolledBack _ rest => rest.data

/-- The room that the data take at most, with what is rolled back later. -/
def peak : Script → Nat
  | done => 0
  | write data rest => data.length + rest.peak
  | committed body rest => max body.peak (body.data.length + rest.peak)
  | rolledBack body rest => max body.peak rest.peak

def writeCount : Script → Nat
  | done => 0
  | write _ rest => rest.writeCount + 1
  | committed body rest => body.writeCount + rest.writeCount
  | rolledBack body rest => body.writeCount + rest.writeCount

/-- The stream of a transaction with these calls has something in its buffer: it
is not sealed, by the commit of a transaction with nothing in its buffer, before
any data are written. -/
def delivers : Script → Bool
  | done => false
  | write data rest => !data.isEmpty || rest.delivers
  | committed body _ => body.delivers
  | rolledBack _ rest => rest.delivers

/-- No write is made where a transaction with nothing in its buffer was
committed before. -/
def accepted (sealed : Bool) : Script → Bool
  | done => true
  | write _ rest => !sealed && rest.accepted sealed
  | committed body rest => body.accepted false && rest.accepted (sealed || !body.delivers)
  | rolledBack body rest => body.accepted false && rest.accepted sealed

/-- No data are written or committed where a transaction with nothing in its
buffer was committed before, unless they are rolled back later. -/
def complete (sealed : Bool) : Script → Bool
  | done => true
  | write data rest => (!sealed || data.isEmpty) && rest.complete sealed
  | committed body rest =>
      (if sealed then body.data.isEmpty else body.complete false) &&
        rest.complete (sealed || !body.delivers)
  | rolledBack _ rest => rest.complete sealed

end Script

end Eagine.Serialization
