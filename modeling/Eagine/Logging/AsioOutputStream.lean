import Eagine.Runtime.ChunkStorage
import Eagine.Utility.DoubleBuffer

/-!
# The log stream over a socket

The entries of a log are sent to a socket.  While there is no connection, or
when sending fails, they are stored and sent again after the next connection is
made.
-/

namespace Eagine.Logging

open Serialization Eagine.Runtime List

/-- What becomes of the write operations, by their numbers: one that is not
`none` fails after some of the bytes were sent. -/
abbrev Network :=
  Nat → Option Nat

/-- `asio_log_output_stream_base`, and what the other sides of its connections
received, the last connection first. -/
structure AsioOutputStream where
  isOpen : Bool := false
  buffers : DoubleBuffer Block := { first := [], second := [] }
  storage : ChunkStorage := {}
  hdr : Block := []
  bgn : Block := []
  sep : Block := []
  first : Bool := true
  received : List Block := []
  writes : Nat := 0
  deriving DecidableEq, Repr

namespace AsioOutputStream

open Or (inl inr)

/-- The other side of the connection receives the data. -/
def receive (data : Block) : List Block → List Block
  | [] => []
  | bytes :: earlier => (bytes ++ data) :: earlier

/-- The stream after the data was sent. -/
def sent (data : Block) (writes : Nat) (stream : AsioOutputStream) : AsioOutputStream :=
  { stream with received := receive data stream.received, writes := writes }

/-- `_do_send`.  The result tells if it returned without an exception; nothing
is written of an empty chunk. -/
def doSend (network : Network) (chunk : Block) (stream : AsioOutputStream) :
    Bool × AsioOutputStream :=
  if chunk = [] then (true, stream)
  else if stream.isOpen then
    match network stream.writes with
    | none => (true, stream.sent chunk (stream.writes + 1))
    | some size => (false, stream.sent (chunk.take size) (stream.writes + 1))
  else (false, stream)

/-- What follows is done unless there was an exception. -/
def andThen (done : Bool × AsioOutputStream)
    (next : AsioOutputStream → Bool × AsioOutputStream) : Bool × AsioOutputStream :=
  match done with
  | (true, stream) => next stream
  | (false, stream) => (false, stream)

def separate (network : Network) (stream : AsioOutputStream) : Bool × AsioOutputStream :=
  stream.doSend network stream.sep

def sendFirst (network : Network) (entry : Block) (stream : AsioOutputStream) :
    Bool × AsioOutputStream :=
  andThen (stream.doSend network stream.hdr) fun stream =>
    if stream.bgn = [] then (true, { stream with bgn := stream.bgn ++ entry })
    else andThen (stream.doSend network stream.bgn) fun stream => stream.doSend network stream.sep

def sendSep (network : Network) (entry : Block) (stream : AsioOutputStream) :
    Bool × AsioOutputStream :=
  andThen
    (if stream.first then
      andThen (stream.sendFirst network entry) fun stream => (true, { stream with first := false })
    else stream.separate network)
    (doSend network entry)

/-- `_send_stored`; the new temporary file may be `created` or not. -/
def sendStored (network : Network) (created : Bool) (stream : AsioOutputStream) :
    Bool × AsioOutputStream :=
  match stream.storage.forEachChunk (sendSep network) stream with
  | (true, storage, stream) => (true, { stream with storage := storage.clear created })
  | (false, storage, stream) => (false, { stream with storage := storage })

/-- `_store`, where it is defined. -/
def store (chunk : Block) (stream : AsioOutputStream) : Option AsioOutputStream :=
  (stream.storage.addChunk chunk).map fun storage => { stream with storage := storage }

/-- The part of `_handle_entry` that may throw. -/
def sendEntry (network : Network) (created : Bool) (chunk : Block) (stream : AsioOutputStream) :
    Bool × AsioOutputStream :=
  andThen (if stream.storage.isEmpty then (true, stream) else stream.sendStored network created)
    (sendSep network chunk)

def swapBuffers (stream : AsioOutputStream) : AsioOutputStream :=
  { stream with buffers := stream.buffers.swap.setNext [] }

def handleEntry (network : Network) (created : Bool) (stream : AsioOutputStream) :
    Option AsioOutputStream :=
  let stream := stream.swapBuffers
  let chunk := stream.buffers.current
  if chunk = [] then some stream
  else if stream.isOpen then
    match stream.sendEntry network created chunk with
    | (true, stream) => some stream
    | (false, stream) => store chunk { stream with first := true, isOpen := false }
  else stream.store chunk

def beginStream (bgn sep : Block) (stream : AsioOutputStream) : AsioOutputStream :=
  { stream with hdr := stream.hdr ++ bgn, sep := stream.sep ++ sep }

def entryAppend (chunk : Block) (stream : AsioOutputStream) : AsioOutputStream :=
  { stream with buffers := stream.buffers.setNext (stream.buffers.next ++ chunk) }

/-- `_reconnect`: it is not yet time for it, or it succeeds or fails. -/
def reconnect (connects : Option Bool) (stream : AsioOutputStream) : AsioOutputStream :=
  match connects with
  | none => stream
  | some true => { stream with isOpen := true, received := [] :: stream.received }
  | some false => { stream with first := true, isOpen := false }

def finishEntry (network : Network) (connects : Option Bool) (created : Bool)
    (stream : AsioOutputStream) : Option AsioOutputStream :=
  if stream.isOpen then stream.handleEntry network created
  else (stream.reconnect connects).handleEntry network created

def finishStream (network : Network) (connects : Option Bool) (ending : Block)
    (stream : AsioOutputStream) : AsioOutputStream :=
  if stream.isOpen then (stream.doSend network ending).2
  else ((stream.reconnect connects).doSend network ending).2

/-- An entry that is appended in pieces, and what happens at its end. -/
structure Entry where
  pieces : List Block
  connects : Option Bool := none
  created : Bool := true
  deriving DecidableEq, Repr

namespace Entry

def content (entry : Entry) : Block :=
  entry.pieces.flatten

end Entry

def step (network : Network) (stream : AsioOutputStream) (entry : Entry) :
    Option AsioOutputStream :=
  (entry.pieces.foldl (fun stream piece => stream.entryAppend piece) stream).finishEntry network
    entry.connects entry.created

theorem receive_nil (received : List Block) : receive [] received = received := by
  cases received with
  | nil => rfl
  | cons bytes earlier => rw [receive, append_nil]

theorem receive_receive (data more : Block) (received : List Block) :
    receive more (receive data received) = receive (data ++ more) received := by
  cases received with
  | nil => rfl
  | cons bytes earlier => rw [receive, receive, receive, append_assoc]

theorem sent_sent (data more : Block) (writes later : Nat) (stream : AsioOutputStream) :
    (stream.sent data writes).sent more later = stream.sent (data ++ more) later := by
  rw [sent, sent, sent]
  exact congrArg (fun received => { stream with received := received, writes := later })
    (receive_receive data more stream.received)

/-- The data is sent and the stream is updated on the way, or only a part of the
data is sent, before or after the update. -/
def Sends (update : AsioOutputStream → AsioOutputStream) (stream : AsioOutputStream) (data : Block)
    (done : Bool × AsioOutputStream) : Prop :=
  (∃ writes, done = (true, (update stream).sent data writes)) ∨
    ∃ part writes, part <+: data ∧
      (done = (false, stream.sent part writes) ∨ done = (false, (update stream).sent part writes))

theorem sends_doSend (network : Network) (chunk : Block) {stream : AsioOutputStream}
    (opened : stream.isOpen = true) : Sends id stream chunk (stream.doSend network chunk) := by
  rw [doSend]
  by_cases empty : chunk = []
  · have nothing : stream.sent [] stream.writes = stream := by
      rw [sent, receive_nil]
    rw [if_pos empty, empty]
    exact inl ⟨stream.writes, congrArg (Prod.mk true) nothing.symm⟩
  · rw [if_neg empty, if_pos opened]
    cases network stream.writes with
    | none => exact inl ⟨stream.writes + 1, rfl⟩
    | some size =>
        exact inr ⟨chunk.take size, stream.writes + 1, take_prefix size chunk, inl rfl⟩

variable {next : AsioOutputStream → Bool × AsioOutputStream}

variable {update : AsioOutputStream → AsioOutputStream} {done : Bool × AsioOutputStream}

theorem Sends.trans {stream : AsioOutputStream}
    {data more : Block} (sends : Sends update stream data done)
    (sendsMore : ∀ writes, Sends id ((update stream).sent data writes) more
      (next ((update stream).sent data writes))) :
    Sends update stream (data ++ more) (andThen done next) := by
  rcases sends with ⟨writes, rfl⟩ | ⟨part, writes, isPart, failed⟩
  · rcases sendsMore writes with ⟨later, sent⟩ | ⟨part, later, isPart, failed⟩
    · rw [id, sent_sent] at sent
      exact inl ⟨later, sent⟩
    · rw [id, or_self, sent_sent] at failed
      exact inr ⟨data ++ part, later, (prefix_append_right_inj data).mpr isPart,
        inr failed⟩
  · refine inr ⟨part, writes, isPart.trans (prefix_append data more), ?_⟩
    rcases failed with rfl | rfl
    · exact inl rfl
    · exact inr rfl

/-- What is sent without an update is a part of what is sent with one. -/
theorem Sends.andThen_update {stream : AsioOutputStream} {data : Block}
    (sends : Sends id stream data done) (updates : ∀ writes, next (stream.sent data writes) =
      (true, (update stream).sent data writes)) :
    Sends update stream data (andThen done next) := by
  rcases sends with ⟨writes, rfl⟩ | ⟨part, writes, isPart, failed⟩
  · exact inl ⟨writes, updates writes⟩
  · rw [id, or_self] at failed
    rw [failed]
    exact inr ⟨part, writes, isPart, inl rfl⟩

theorem andThen_andThen (done : Bool × AsioOutputStream)
    (next last : AsioOutputStream → Bool × AsioOutputStream) :
    andThen (andThen done next) last = andThen done fun stream => andThen (next stream) last := by
  rcases done with ⟨returned, stream⟩
  cases returned <;> rfl

/-- What is sent in front of an entry. -/
def leading (stream : AsioOutputStream) : Block :=
  if stream.first then
    if stream.bgn = [] then stream.hdr else stream.hdr ++ (stream.bgn ++ stream.sep)
  else stream.sep

/-- The first entry of all is remembered, and other entries are separated. -/
def begun (entry : Block) (stream : AsioOutputStream) : AsioOutputStream :=
  { stream with
    bgn := if stream.first ∧ stream.bgn = [] then entry else stream.bgn
    first := false }

/-- What is sent in front of the first entry of a connection. -/
theorem sends_sendFirst (network : Network) (entry : Block) {stream : AsioOutputStream}
    (opened : stream.isOpen = true) (isFirst : stream.first = true) :
    Sends (begun entry) stream stream.leading
      (andThen (stream.sendFirst network entry)
        fun stream => (true, { stream with first := false })) := by
  have sendsHdr := sends_doSend network stream.hdr opened
  rw [leading, isFirst, if_pos rfl, sendFirst, andThen_andThen]
  by_cases fresh : stream.bgn = []
  · rw [if_pos fresh]
    refine sendsHdr.andThen_update fun writes => ?_
    have update : begun entry stream = { stream with bgn := entry, first := false } := by
      rw [begun, isFirst, if_pos ⟨rfl, fresh⟩]
    have stillFresh : (stream.sent stream.hdr writes).bgn = [] := fresh
    rw [if_pos stillFresh, stillFresh, update]
    rfl
  · rw [if_neg fresh, ← andThen_andThen]
    have update : begun entry stream = { stream with first := false } := by
      rw [begun, if_neg fun both => fresh both.2]
    have sendsAll : Sends id stream (stream.hdr ++ (stream.bgn ++ stream.sep))
        (andThen (stream.doSend network stream.hdr) fun stream =>
          if stream.bgn = [] then (true, { stream with bgn := stream.bgn ++ entry })
          else andThen (stream.doSend network stream.bgn) fun stream =>
            stream.doSend network stream.sep) := by
      refine sendsHdr.trans fun writes => ?_
      have known : (stream.sent stream.hdr writes).bgn ≠ [] := fresh
      rw [id, if_neg known]
      have sendsBgn := @sends_doSend network stream.bgn (stream.sent stream.hdr writes) opened
      exact sendsBgn.trans fun later => sends_doSend network stream.sep opened
    refine sendsAll.andThen_update fun writes => ?_
    rw [update]
    rfl

theorem sends_sendSep (network : Network) (entry : Block) {stream : AsioOutputStream}
    (opened : stream.isOpen = true) :
    Sends (begun entry) stream (stream.leading ++ entry) (stream.sendSep network entry) := by
  have sendsLeading : Sends (begun entry) stream stream.leading
      (if stream.first then
        andThen (stream.sendFirst network entry) fun stream => (true, { stream with first := false })
      else stream.separate network) := by
    cases isFirst : stream.first with
    | true => exact sends_sendFirst network entry opened isFirst
    | false =>
        have unchanged : begun entry stream = stream := by
          rw [begun, isFirst, if_neg fun both => Bool.false_ne_true both.1, ← isFirst]
        rw [leading, isFirst, if_neg Bool.false_ne_true, if_neg Bool.false_ne_true, Sends,
          unchanged]
        exact sends_doSend network stream.sep opened
  exact sendsLeading.trans fun writes => sends_doSend network entry opened

/-- The bytes for the entries of a log. -/
def transcript (hdr sep : Block) : List Block → Block
  | [] => []
  | entry :: entries => hdr ++ entry ++ (entries.map (sep ++ ·)).flatten

theorem transcript_concat (hdr sep : Block) {entries : List Block} (nonempty : entries ≠ [])
    (entry : Block) :
    transcript hdr sep (entries ++ [entry]) = transcript hdr sep entries ++ (sep ++ entry) := by
  cases entries with
  | nil => exact absurd rfl nonempty
  | cons start entries =>
      rw [cons_append, transcript, transcript, map_append, flatten_append,
        ← append_assoc]
      exact congrArg _ (append_nil _)

theorem transcript_prefix (hdr sep : Block) (entries : List Block) (entry : Block) :
    transcript hdr sep entries <+: transcript hdr sep (entries ++ [entry]) := by
  cases entries with
  | nil => exact nil_prefix
  | cons start entries =>
      rw [transcript_concat hdr sep (cons_ne_nil start entries)]
      exact prefix_append _ _

/-- What a connection received: it starts with the first entry of the log, even if
that one was sent before, and goes on with the group of entries.  The entry that it
was closed at may be torn. -/
def Received (hdr sep start bytes : Block) (group : List Block) : Prop :=
  ∃ entries next, (entries = group ∨ entries = start :: group) ∧
    (entries ++ [next]).head? = some start ∧ transcript hdr sep entries <+: bytes ∧
    bytes <+: transcript hdr sep (entries ++ [next])

theorem received_nil (hdr sep start : Block) : Received hdr sep start [] [] :=
  ⟨[], start, inl rfl, rfl, nil_prefix, nil_prefix⟩

/-- A connection that repeats the first entry of the log may be closed before or
after it. -/
theorem received_repeated {hdr sep start entry part : Block}
    (isPart : part <+: hdr ++ (start ++ sep) ++ entry) : Received hdr sep start part [] := by
  have whole : hdr ++ (start ++ sep) ++ entry = (hdr ++ start) ++ (sep ++ entry) := by
    simp only [append_assoc]
  have startEq : transcript hdr sep [start] = hdr ++ start := append_nil _
  have bothEq : transcript hdr sep ([start] ++ [entry]) = (hdr ++ start) ++ (sep ++ entry) := by
    rw [transcript_concat hdr sep (cons_ne_nil start []), startEq]
  rw [whole] at isPart
  rcases prefix_or_prefix_of_prefix isPart (prefix_append (hdr ++ start) (sep ++ entry))
    with before | after
  · exact ⟨[], start, inl rfl, rfl, nil_prefix, startEq ▸ before⟩
  · exact ⟨[start], entry, inr rfl, rfl, startEq ▸ after, bothEq ▸ isPart⟩

/-- What an open connection received so far. -/
structure Current (hdr sep start : Block) (stream : AsioOutputStream) (bytes : Block)
    (group : List Block) : Prop where
  fresh : stream.first = true → bytes = [] ∧ group = []
  begun : stream.first = false → stream.bgn = start ∧ ∃ entries,
    (entries = group ∨ entries = start :: group) ∧ entries.head? = some start ∧
      bytes = transcript hdr sep entries

/-- Every entry of the log was sent as a whole on one of the connections, or it is
pending. -/
structure Delivery (hdr sep start : Block) (log : List Block) (groups : List (List Block))
    (pending : List Block) (stream : AsioOutputStream) : Prop where
  hdr_eq : stream.hdr = hdr
  sep_eq : stream.sep = sep
  starts : log ≠ [] → log.head? = some start ∧ start ≠ []
  all_eq : groups.reverse.flatten ++ pending = log
  bgn_eq : stream.bgn = [] ∧ groups.reverse.flatten = [] ∨ stream.bgn = start
  received : List.Forall₂ (Received hdr sep start) stream.received groups
  closed : stream.isOpen = false → stream.first = true
  current : stream.isOpen = true → ∃ bytes earlier group others,
    stream.received = bytes :: earlier ∧ groups = group :: others ∧
      Current hdr sep start stream bytes group

section Delivery

variable {hdr sep start : Block} {log : List Block} {groups : List (List Block)}
  {pending : List Block} {stream : AsioOutputStream} {entry : Block} {network : Network}

/-- The stored entries and those that are collected are not looked at. -/
theorem Delivery.congr (delivery : Delivery hdr sep start log groups pending stream)
    (storage : ChunkStorage) (buffers : DoubleBuffer Block) :
    Delivery hdr sep start log groups pending
      { stream with storage := storage, buffers := buffers } := by
  refine { delivery with current := fun isOpen => ?_ }
  obtain ⟨bytes, earlier, group, others, received, isFirst, current⟩ := delivery.current isOpen
  exact ⟨bytes, earlier, group, others, received, isFirst, current.fresh, current.begun⟩

theorem Delivery.startsLog (delivery : Delivery hdr sep start log groups (entry :: pending) stream) :
    log.head? = some start ∧ start ≠ [] := by
  apply delivery.starts
  rw [← delivery.all_eq]
  simp

/-- The first entry that is sent at all is the first one of the log. -/
theorem Delivery.eq_start (delivery : Delivery hdr sep start log groups (entry :: pending) stream)
    (fresh : stream.bgn ≠ start) : stream.bgn = [] ∧ entry = start := by
  obtain ⟨none, nothingSent⟩ := delivery.bgn_eq.resolve_right fresh
  have startsLog := delivery.startsLog.1
  rw [← delivery.all_eq, nothingSent, nil_append] at startsLog
  exact ⟨none, Option.some.inj startsLog⟩

/-- What the next entry makes of the bytes of a connection, as a whole and in
part. -/
theorem Current.leading_append {bytes : Block} {group : List Block}
    (current : Current hdr sep start stream bytes group)
    (delivery : Delivery hdr sep start log groups (entry :: pending) stream) :
    ∃ entries, (entries = group ∨ entries = start :: group) ∧
      (entries ++ [entry]).head? = some start ∧
      bytes ++ (stream.leading ++ entry) = transcript hdr sep (entries ++ [entry]) ∧
      ∀ part, part <+: stream.leading ++ entry → Received hdr sep start (bytes ++ part) group := by
  rw [leading, delivery.hdr_eq, delivery.sep_eq]
  cases isFirst : stream.first with
  | true =>
      obtain ⟨rfl, rfl⟩ := current.fresh isFirst
      rw [if_pos rfl]
      by_cases known : stream.bgn = start
      · rw [known, if_neg delivery.startsLog.2]
        refine ⟨[start], inr rfl, rfl, ?_, fun part => received_repeated⟩
        rw [transcript_concat hdr sep (cons_ne_nil start []), transcript]
        simp
      · obtain ⟨none, rfl⟩ := delivery.eq_start known
        have single : transcript hdr sep [entry] = hdr ++ entry := append_nil _
        rw [if_pos none]
        exact ⟨[], inl rfl, rfl, single.symm, fun part isPart =>
          ⟨[], entry, inl rfl, rfl, nil_prefix, single.symm ▸ isPart⟩⟩
  | false =>
      obtain ⟨-, entries, grouped, starts, rfl⟩ := current.begun isFirst
      have nonempty : entries ≠ [] := by
        rintro rfl
        exact Option.some_ne_none start starts.symm
      have longer := transcript_concat hdr sep nonempty entry
      have stillStarts : (entries ++ [entry]).head? = some start := by
        rw [head?_append, starts]
        rfl
      rw [if_neg Bool.false_ne_true]
      refine ⟨entries, grouped, stillStarts, longer.symm, fun part isPart => ?_⟩
      refine ⟨entries, entry, grouped, stillStarts, prefix_append _ part, ?_⟩
      rw [longer]
      exact (prefix_append_right_inj _).mpr isPart

/-- A connection that is closed while an entry is sent received a part of it. -/
theorem Delivery.torn (delivery : Delivery hdr sep start log groups pending stream)
    {bytes part : Block} {earlier : List Block} {group : List Block} {others : List (List Block)}
    (received : stream.received = bytes :: earlier) (isGroup : groups = group :: others)
    (complete : Received hdr sep start (bytes ++ part) group) {failed : AsioOutputStream}
    (bgn : failed.bgn = stream.bgn ∨ failed.bgn = start)
    (same : failed.hdr = stream.hdr ∧ failed.sep = stream.sep)
    (receives : failed.received = receive part stream.received) :
    Delivery hdr sep start log groups pending { failed with first := true, isOpen := false } := by
  have allReceived := delivery.received
  rw [received, isGroup, forall₂_cons] at allReceived
  refine { delivery with
    hdr_eq := same.1.trans delivery.hdr_eq
    sep_eq := same.2.trans delivery.sep_eq
    bgn_eq := ?_
    received := ?_
    closed := fun _ => rfl
    current := fun isOpen => Bool.noConfusion isOpen }
  · rcases bgn with unchanged | known
    · exact unchanged ▸ delivery.bgn_eq
    · exact inr known
  · rw [receives, received, isGroup]
    exact List.Forall₂.cons complete allReceived.2

/-- The next pending entry is sent, or the connection has to be closed. -/
theorem Delivery.sendSep (delivery : Delivery hdr sep start log groups (entry :: pending) stream)
    (isOpen : stream.isOpen = true) (network : Network) :
    match stream.sendSep network entry with
    | (true, next) => next.isOpen = true ∧ next.storage = stream.storage ∧
        next.buffers = stream.buffers ∧ ∃ groups, Delivery hdr sep start log groups pending next
    | (false, next) => next.storage = stream.storage ∧ next.buffers = stream.buffers ∧
        Delivery hdr sep start log groups (entry :: pending)
          { next with first := true, isOpen := false } := by
  obtain ⟨bytes, earlier, group, others, received, rfl, current⟩ := delivery.current isOpen
  obtain ⟨entries, grouped, starts, whole, inPart⟩ := current.leading_append delivery
  have begunBgn : (begun entry stream).bgn = start := by
    rw [begun]
    by_cases known : stream.bgn = start
    · exact (if_neg fun both => delivery.startsLog.2 (known.symm.trans both.2)).trans known
    · obtain ⟨none, rfl⟩ := delivery.eq_start known
      cases isFirst : stream.first with
      | true => exact if_pos ⟨rfl, none⟩
      | false => exact absurd (current.begun isFirst).1 known
  rcases sends_sendSep network entry isOpen with
    ⟨writes, sent⟩ | ⟨part, writes, isPart, failed | failed⟩
  · have receivedAll : receive (stream.leading ++ entry) stream.received =
        transcript hdr sep (entries ++ [entry]) :: earlier := by
      rw [received, receive, whole]
    have grouped : entries ++ [entry] = group ++ [entry] ∨
        entries ++ [entry] = start :: (group ++ [entry]) := by
      rcases grouped with rfl | rfl
      · exact inl rfl
      · exact inr rfl
    have complete : Received hdr sep start (transcript hdr sep (entries ++ [entry]))
        (group ++ [entry]) := by
      refine ⟨entries ++ [entry], [], grouped, ?_, prefix_rfl, transcript_prefix hdr sep _ []⟩
      rw [head?_append, starts]
      rfl
    have allReceived := delivery.received
    rw [received, forall₂_cons] at allReceived
    rw [sent]
    refine ⟨isOpen, rfl, rfl, (group ++ [entry]) :: others, { delivery with
      all_eq := ?_
      bgn_eq := inr begunBgn
      received := ?_
      closed := fun isClosed => absurd (isOpen.symm.trans isClosed) Bool.noConfusion
      current := fun _ => ⟨_, earlier, _, others, receivedAll, rfl,
        fun isFirst => Bool.noConfusion isFirst, fun _ => ⟨begunBgn, _, grouped, starts, rfl⟩⟩ }⟩
    · rw [← delivery.all_eq]
      simp
    · change List.Forall₂ _ (receive (stream.leading ++ entry) stream.received) _
      rw [receivedAll]
      exact List.Forall₂.cons complete allReceived.2
  · rw [failed]
    exact ⟨rfl, rfl, delivery.torn received rfl (inPart part isPart) (inl rfl) ⟨rfl, rfl⟩ rfl⟩
  · rw [failed]
    exact ⟨rfl, rfl, delivery.torn received rfl (inPart part isPart) (inr begunBgn) ⟨rfl, rfl⟩
      rfl⟩

/-- The stored entries are sent. -/
theorem Delivery.replay {stored : List Block}
    (delivery : Delivery hdr sep start log groups (stored ++ pending) stream)
    (isOpen : stream.isOpen = true)
    (returned : (replay (AsioOutputStream.sendSep network) stored stream).1 = true) :
    ∃ groups next, (replay (AsioOutputStream.sendSep network) stored stream).2 = next ∧
      next.isOpen = true ∧ next.storage = stream.storage ∧ next.buffers = stream.buffers ∧
      Delivery hdr sep start log groups pending next := by
  induction stored generalizing groups stream with
  | nil => exact ⟨groups, stream, rfl, isOpen, rfl, rfl, delivery⟩
  | cons entry stored ih =>
      have sent := Delivery.sendSep delivery isOpen network
      rw [Runtime.replay] at returned ⊢
      generalize stream.sendSep network entry = done at sent returned ⊢
      rcases done with ⟨whole, next⟩
      cases whole with
      | false => exact absurd returned Bool.false_ne_true
      | true =>
          obtain ⟨stillOpen, storage, buffers, others, deliveryNext⟩ := sent
          obtain ⟨groups, last, lastEq, lastOpen, storageLast, buffersLast, deliveryLast⟩ :=
            ih deliveryNext stillOpen returned
          exact ⟨groups, last, lastEq, lastOpen, storageLast.trans storage,
            buffersLast.trans buffers, deliveryLast⟩

/-- The first entries that are left of the log are stored, and the others are pending. -/
def Holds (hdr sep start : Block) (log pending : List Block) (stream : AsioOutputStream) : Prop :=
  ∃ stored groups, Keeps stream.storage { chunks := stored } ∧
    Delivery hdr sep start log groups (stored ++ pending) stream

/-- What the call of `_send_stored` comes to on an open connection. -/
theorem Holds.sendStored (holds : Holds hdr sep start log pending stream)
    (isOpen : stream.isOpen = true)
    (returned : (stream.storage.forEachChunk (AsioOutputStream.sendSep network) stream).1 = true) :
    ∃ groups next,
      (if stream.storage.isEmpty then (true, stream) else stream.sendStored network true) =
        (true, next) ∧ next.isOpen = true ∧ next.buffers = stream.buffers ∧
      Keeps next.storage {} ∧ Delivery hdr sep start log groups pending next := by
  obtain ⟨stored, groups, keeps, delivery⟩ := holds
  cases empty : stream.storage.isEmpty with
  | true =>
      obtain rfl := keeps.chunks_eq_nil empty
      exact ⟨groups, stream, if_pos rfl, isOpen, rfl, keeps, delivery⟩
  | false =>
      obtain ⟨returns, -, same⟩ := keeps.forEachChunk (AsioOutputStream.sendSep network) stream
      obtain ⟨groups, next, nextEq, stillOpen, -, buffers, deliveryNext⟩ :=
        delivery.replay isOpen (returns.symm.trans returned)
      rw [if_neg Bool.false_ne_true, AsioOutputStream.sendStored]
      rw [KeptChunks.forEachChunk, nextEq] at same
      generalize stream.storage.forEachChunk (AsioOutputStream.sendSep network) stream = done
        at returned same ⊢
      rcases done with ⟨whole, storage, last⟩
      obtain rfl : whole = true := returned
      obtain rfl : last = next := same
      exact ⟨groups, _, rfl, stillOpen, buffers, keeps_created true storage.done,
        deliveryNext.congr _ last.buffers⟩

/-- An entry is stored. -/
theorem Holds.store (holds : Holds hdr sep start log (entry :: pending) stream)
    (sized : HasSize entry) :
    ∃ next, stream.store entry = some next ∧ next.buffers = stream.buffers ∧
      Holds hdr sep start log pending next := by
  obtain ⟨stored, groups, keeps, delivery⟩ := holds
  obtain ⟨storage, added, keepsNext⟩ := keeps.exists_addChunk sized
  rw [append_cons] at delivery
  refine ⟨{ stream with storage := storage }, ?_, rfl, stored ++ [entry], groups, keepsNext,
    delivery.congr storage stream.buffers⟩
  rw [AsioOutputStream.store, added]
  rfl

/-- An entry is sent on an open connection, or it is stored when sending it fails. -/
theorem Holds.sendEntry (holds : Holds hdr sep start log (entry :: pending) stream)
    (isOpen : stream.isOpen = true) (sized : HasSize entry)
    (returned : (stream.storage.forEachChunk (AsioOutputStream.sendSep network) stream).1 = true) :
    ∃ next,
      (match stream.sendEntry network true entry with
        | (true, stream) => some stream
        | (false, stream) =>
            AsioOutputStream.store entry { stream with first := true, isOpen := false }) =
        some next ∧ next.buffers = stream.buffers ∧ Holds hdr sep start log pending next := by
  obtain ⟨groups, middle, sentStored, stillOpen, buffers, keepsNone, deliveryMiddle⟩ :=
    holds.sendStored isOpen returned
  have sent := deliveryMiddle.sendSep stillOpen network
  rw [AsioOutputStream.sendEntry, sentStored, andThen]
  generalize middle.sendSep network entry = done at sent ⊢
  rcases done with ⟨whole, last⟩
  cases whole with
  | true =>
      obtain ⟨-, storageLast, buffersLast, groups, deliveryLast⟩ := sent
      rw [← storageLast] at keepsNone
      exact ⟨last, rfl, buffersLast.trans buffers, [], groups, keepsNone, deliveryLast⟩
  | false =>
      obtain ⟨storageLast, buffersLast, deliveryLast⟩ := sent
      rw [← storageLast] at keepsNone
      have closed : Holds hdr sep start log (entry :: pending)
          { last with first := true, isOpen := false } := ⟨[], groups, keepsNone, deliveryLast⟩
      obtain ⟨next, added, buffersNext, holdsNext⟩ := closed.store sized
      exact ⟨next, added, buffersNext.trans (buffersLast.trans buffers), holdsNext⟩

theorem Holds.reconnect (holds : Holds hdr sep start log pending stream)
    (isClosed : stream.isOpen = false) (connects : Option Bool) :
    (stream.reconnect connects).buffers = stream.buffers ∧
      Holds hdr sep start log pending (stream.reconnect connects) := by
  obtain ⟨stored, groups, keeps, delivery⟩ := holds
  have isFirst := delivery.closed isClosed
  rcases connects with - | connected
  · exact ⟨rfl, stored, groups, keeps, delivery⟩
  · cases connected with
    | false =>
        exact ⟨rfl, stored, groups, keeps, { delivery with
          closed := fun _ => rfl
          current := fun isOpen => Bool.noConfusion isOpen }⟩
    | true =>
        have same : ([] :: groups).reverse.flatten = groups.reverse.flatten := by
          simp
        exact ⟨rfl, stored, [] :: groups, keeps, { delivery with
          all_eq := (congrArg (· ++ (stored ++ pending)) same).trans delivery.all_eq
          bgn_eq := same.symm ▸ delivery.bgn_eq
          received := List.Forall₂.cons (received_nil hdr sep start) delivery.received
          closed := fun isOpen => Bool.noConfusion isOpen
          current := fun _ => ⟨[], _, [], groups, rfl, rfl, fun _ => ⟨rfl, rfl⟩,
            fun begun => absurd (isFirst.symm.trans begun) Bool.noConfusion⟩ }⟩

/-- What is left of the log is handled: the next entry, if there is one. -/
theorem Holds.handleEntry
    (holds : Holds hdr sep start log ((if entry = [] then [] else [entry]) ++ pending) stream)
    (next : stream.buffers.next = entry) (sized : HasSize entry)
    (returned : entry ≠ [] → stream.isOpen = true →
      (stream.storage.forEachChunk (AsioOutputStream.sendSep network) stream.swapBuffers).1 =
        true) :
    ∃ after, stream.handleEntry network true = some after ∧ after.buffers.next = [] ∧
      Holds hdr sep start log pending after := by
  have swapped : stream.swapBuffers.buffers.current = entry := by
    rw [swapBuffers, DoubleBuffer.current_setNext, DoubleBuffer.current_swap, next]
  have cleared : stream.swapBuffers.buffers.next = [] :=
    DoubleBuffer.next_setNext [] stream.buffers.swap
  obtain ⟨stored, groups, keeps, delivery⟩ := holds
  have holdsSwapped : Holds hdr sep start log ((if entry = [] then [] else [entry]) ++ pending)
      stream.swapBuffers := ⟨stored, groups, keeps, delivery.congr stream.storage _⟩
  rw [AsioOutputStream.handleEntry]
  simp only [swapped]
  by_cases empty : entry = []
  · rw [if_pos empty] at holdsSwapped ⊢
    exact ⟨stream.swapBuffers, rfl, cleared, holdsSwapped⟩
  · rw [if_neg empty] at holdsSwapped ⊢
    cases isOpen : stream.isOpen with
    | false =>
        obtain ⟨after, added, buffers, holdsAfter⟩ := holdsSwapped.store sized
        have isClosed : stream.swapBuffers.isOpen ≠ true := ne_true_of_eq_false isOpen
        rw [if_neg isClosed]
        exact ⟨after, added, (congrArg DoubleBuffer.next buffers).trans cleared, holdsAfter⟩
    | true =>
        obtain ⟨after, handled, buffers, holdsAfter⟩ :=
          holdsSwapped.sendEntry isOpen sized (returned empty isOpen)
        have stillOpen : stream.swapBuffers.isOpen = true := isOpen
        rw [if_pos stillOpen]
        exact ⟨after, handled, (congrArg DoubleBuffer.next buffers).trans cleared, holdsAfter⟩

/-- The pieces of an entry are collected in the next buffer. -/
theorem foldl_entryAppend (pieces : List Block) (stream : AsioOutputStream) :
    ∃ buffers, pieces.foldl (fun stream piece => stream.entryAppend piece) stream =
        { stream with buffers := buffers } ∧
      buffers.next = stream.buffers.next ++ pieces.flatten := by
  induction pieces generalizing stream with
  | nil => exact ⟨stream.buffers, rfl, (append_nil _).symm⟩
  | cons piece pieces ih =>
      obtain ⟨buffers, appended, next⟩ := ih (stream.entryAppend piece)
      refine ⟨buffers, appended, ?_⟩
      rw [next, entryAppend, DoubleBuffer.next_setNext, flatten_cons, append_assoc]

/-- The stream at the end of an entry, where it has been connected again. -/
def reconnected (entry : Entry) (stream : AsioOutputStream) : AsioOutputStream :=
  if stream.isOpen then stream else stream.reconnect entry.connects

/-- Sending the stored entries fails at the end of an entry. -/
def Interrupted (network : Network) (stream : AsioOutputStream) (entry : Entry) : Prop :=
  let stream := (entry.pieces.foldl (fun stream piece => stream.entryAppend piece)
    stream).reconnected entry
  entry.content ≠ [] ∧ stream.isOpen = true ∧
    (stream.storage.forEachChunk (AsioOutputStream.sendSep network) stream.swapBuffers).1 = false

instance (network : Network) (stream : AsioOutputStream) (entry : Entry) :
    Decidable (Interrupted network stream entry) :=
  inferInstanceAs (Decidable (_ ∧ _ ∧ _))

theorem Holds.step {entry : Entry}
    (holds : Holds hdr sep start log
      ((if entry.content = [] then [] else [entry.content]) ++ pending) stream)
    (next : stream.buffers.next = []) (sized : HasSize entry.content)
    (created : entry.created = true) (uninterrupted : ¬Interrupted network stream entry) :
    ∃ after, step network stream entry = some after ∧ after.buffers.next = [] ∧
      Holds hdr sep start log pending after := by
  obtain ⟨buffers, appended, collected⟩ := foldl_entryAppend entry.pieces stream
  rw [next, nil_append] at collected
  obtain ⟨stored, groups, keeps, delivery⟩ := holds
  have holdsFilled : Holds hdr sep start log
      ((if entry.content = [] then [] else [entry.content]) ++ pending)
      { stream with buffers := buffers } := ⟨stored, groups, keeps, delivery.congr _ buffers⟩
  rw [Interrupted, appended] at uninterrupted
  rw [AsioOutputStream.step, appended, created, finishEntry]
  generalize whole : ({ stream with buffers := buffers } : AsioOutputStream) = filled
    at holdsFilled uninterrupted ⊢
  have contentFilled : filled.buffers.next = entry.content := whole ▸ collected
  have returned (nonempty : entry.content ≠ []) (isOpen : (filled.reconnected entry).isOpen = true) :=
    Bool.of_not_eq_false fun failed => uninterrupted ⟨nonempty, isOpen, failed⟩
  rw [reconnected] at returned
  cases isOpen : filled.isOpen with
  | true =>
      rw [if_pos isOpen] at returned
      exact holdsFilled.handleEntry contentFilled sized returned
  | false =>
      rw [if_neg (ne_true_of_eq_false isOpen)] at returned
      obtain ⟨same, reconnected⟩ := holdsFilled.reconnect isOpen entry.connects
      exact reconnected.handleEntry (same ▸ contentFilled) sized returned

end Delivery

/-- The entries that have a content. -/
def contents (entries : List Entry) : List Block :=
  (entries.map Entry.content).filter (· ≠ [])

theorem contents_cons (entry : Entry) (entries : List Entry) :
    contents (entry :: entries) =
      (if entry.content = [] then [] else [entry.content]) ++ contents entries := by
  rw [contents, map_cons, filter_cons]
  by_cases empty : entry.content = [] <;> simp [empty, contents]

theorem Holds.run {hdr sep start : Block} {log : List Block} {stream : AsioOutputStream}
    {entries : List Entry} {network : Network}
    (holds : Holds hdr sep start log (contents entries) stream) (next : stream.buffers.next = [])
    (sized : ∀ entry ∈ entries, HasSize entry.content)
    (created : ∀ entry ∈ entries, entry.created = true)
    (uninterrupted : Theory.Throughout (AsioOutputStream.step network)
      (fun stream entry => ¬Interrupted network stream entry) stream entries) :
    ∃ after, Theory.run (AsioOutputStream.step network) stream entries = some after ∧
      Holds hdr sep start log [] after := by
  induction entries generalizing stream with
  | nil => exact ⟨stream, rfl, holds⟩
  | cons entry entries ih =>
      rw [forall_mem_cons] at sized created
      rw [contents_cons] at holds
      obtain ⟨notNow, notLater⟩ := uninterrupted
      obtain ⟨middle, stepped, nextMiddle, holdsMiddle⟩ := holds.step next sized.1 created.1 notNow
      obtain ⟨after, ran, holdsAfter⟩ :=
        ih holdsMiddle nextMiddle sized.2 created.2 (notLater middle stepped)
      refine ⟨after, ?_, holdsAfter⟩
      rw [Theory.run, stepped, Option.bind_some, ran]

/-- A stream that is begun with a header and a separator. -/
def started (hdr sep : Block) : AsioOutputStream :=
  beginStream hdr sep {}

/-- If the connection never fails while stored entries are sent, every entry of the log
was sent as a whole exactly once or it is still stored, in the order of the log.  Every
connection received the header and then the first entry of the log, and went on with its
own entries; the last of them may be torn. -/
theorem entriesDelivered (network : Network) (hdr sep : Block) {entries : List Entry}
    (sized : ∀ entry ∈ entries, HasSize entry.content)
    (created : ∀ entry ∈ entries, entry.created = true)
    (uninterrupted : Theory.Throughout (step network)
      (fun stream entry => ¬Interrupted network stream entry) (started hdr sep) entries) :
    ∃ stream, Theory.run (step network) (started hdr sep) entries = some stream ∧
      ∃ groups pending, Keeps stream.storage { chunks := pending } ∧
        groups.reverse.flatten ++ pending = contents entries ∧
        List.Forall₂ (Received hdr sep ((contents entries).headD [])) stream.received groups := by
  have starts (someLog : contents entries ≠ []) :
      (contents entries).head? = some ((contents entries).headD []) ∧
        (contents entries).headD [] ≠ [] := by
    cases all : contents entries with
    | nil => exact absurd all someLog
    | cons start others =>
        have member : start ∈ contents entries := all ▸ mem_cons_self
        exact ⟨rfl, of_decide_eq_true (mem_filter.mp member).2⟩
  have holds : Holds hdr sep ((contents entries).headD []) (contents entries) (contents entries)
      (started hdr sep) :=
    ⟨[], [], keeps_created true 0, nil_append hdr, nil_append sep, starts, rfl,
      inl ⟨rfl, rfl⟩, List.Forall₂.nil, fun _ => rfl, fun isOpen => Bool.noConfusion isOpen⟩
  obtain ⟨stream, ran, pending, groups, keeps, delivery⟩ :=
    holds.run rfl sized created uninterrupted
  rw [append_nil] at delivery
  exact ⟨stream, ran, groups, pending, keeps, delivery.all_eq, delivery.received⟩

/-- The separator is lost, so that the second entry goes to the second connection. -/
theorem entriesDelivered_again :
    ∃ stream, Theory.run (step fun write => if write = 2 then some 0 else none)
        (started [60] [44])
        [{ pieces := [[1], [2]], connects := some true }, { pieces := [[3]] },
          { pieces := [[4]], connects := some true }] = some stream ∧
      ∃ groups pending, Keeps stream.storage { chunks := pending } ∧
        groups.reverse.flatten ++ pending = [[1, 2], [3], [4]] ∧
        List.Forall₂ (Received [60] [44] [1, 2]) stream.received groups :=
  @entriesDelivered (fun write => if write = 2 then some 0 else none) [60] [44]
    [{ pieces := [[1], [2]], connects := some true }, { pieces := [[3]] },
      { pieces := [[4]], connects := some true }]
    (by decide) (by decide) (by decide)

end AsioOutputStream

end Eagine.Logging
