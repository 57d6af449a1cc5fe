import Eagine.Logging.Backend

/-!
# What the delegate of a log proxy receives

The clients of a proxy call its functions, ask it for the backends of their entries, and call the
functions of these. Before the configuration every call is kept for the delegate. After it the
delegate receives the calls on the entry backends that were asked for since, but of the calls on
the proxy itself only those that it forwards: the other ones are lost.
-/

/-!
## The proxy log backend

A backend that stands for another one until that is configured. The calls that it gets before
are recorded, and made again on the actual backend when that is installed.
-/

namespace Eagine.Logging

open Serialization

universe u

variable {F : Type u}

/-- An actual backend, by the severities for which its `entry_backend` is itself, and by the
calls that it has received. -/
structure Delegate (F : Type u) where
  enabled : LogEventSeverity → Bool
  received : List (BackendCall F)

def Delegate.receive (call : BackendCall F) (delegate : Delegate F) : Delegate F :=
  { delegate with received := delegate.received ++ [call] }

/-- The backend that an `entry_backend` points to. -/
inductive EntryBackend where
  | proxy
  | delegate
  | null
deriving DecidableEq

def Delegate.entryBackend (severity : LogEventSeverity) (delegate : Delegate F) : EntryBackend :=
  if delegate.enabled severity then .delegate else .null

/-- `proxy_log_backend`. A delayed operation is the call that it makes on the delegate. -/
structure ProxyLogBackend (F : Type u) where
  delegate : Option (Delegate F) := none
  delayed : Option (List (BackendCall F)) := some []

namespace ProxyLogBackend

def entryBackend (severity : LogEventSeverity) (proxy : ProxyLogBackend F) : EntryBackend :=
  match proxy.delegate with
  | some delegate => delegate.entryBackend severity
  | none => .proxy

/-- The body of the functions that look for the list of delayed operations only. -/
def delay (call : BackendCall F) (proxy : ProxyLogBackend F) : ProxyLogBackend F :=
  match proxy.delayed with
  | some delayed => { proxy with delayed := some (delayed ++ [call]) }
  | none => proxy

/-- The body of the functions that look for the delegate first. -/
def forward (call : BackendCall F) (proxy : ProxyLogBackend F) : ProxyLogBackend F :=
  match proxy.delegate with
  | some delegate => { proxy with delegate := some (delegate.receive call) }
  | none => proxy.delay call

def beginLog : ProxyLogBackend F → ProxyLogBackend F :=
  forward .beginLog

def setDescription (source : Identifier) (instanceId : LoggerInstanceId) (name desc : Block) :
    ProxyLogBackend F → ProxyLogBackend F :=
  delay (.setDescription source instanceId name desc)

def declareState (source stateTag beginTag endTag : Identifier) :
    ProxyLogBackend F → ProxyLogBackend F :=
  delay (.declareState source stateTag beginTag endTag)

def activeState (source stateTag : Identifier) : ProxyLogBackend F → ProxyLogBackend F :=
  delay (.activeState source stateTag)

/-- The result tells whether the message is to be continued. -/
def beginMessage (source tag : Identifier) (instanceId : LoggerInstanceId)
    (severity : LogEventSeverity) (format : Block) (proxy : ProxyLogBackend F) :
    Bool × ProxyLogBackend F :=
  (proxy.delayed.isSome, proxy.delay (.beginMessage source tag instanceId severity format))

def addNothing (arg tag : Identifier) : ProxyLogBackend F → ProxyLogBackend F :=
  delay (.addNothing arg tag)

def addIdentifier (arg tag value : Identifier) : ProxyLogBackend F → ProxyLogBackend F :=
  delay (.addIdentifier arg tag value)

def addMessageId (arg tag : Identifier) (value : Identifier × Identifier) :
    ProxyLogBackend F → ProxyLogBackend F :=
  delay (.addMessageId arg tag value)

def addBool (arg tag : Identifier) (value : Bool) : ProxyLogBackend F → ProxyLogBackend F :=
  delay (.addBool arg tag value)

def addInteger (arg tag : Identifier) (value : Int64) : ProxyLogBackend F → ProxyLogBackend F :=
  delay (.addInteger arg tag value)

def addUnsigned (arg tag : Identifier) (value : UInt64) :
    ProxyLogBackend F → ProxyLogBackend F :=
  delay (.addUnsigned arg tag value)

def addFloat (arg tag : Identifier) (value : F) : ProxyLogBackend F → ProxyLogBackend F :=
  delay (.addFloat arg tag value)

def addFloatRange (arg tag : Identifier) (min value max : F) :
    ProxyLogBackend F → ProxyLogBackend F :=
  delay (.addFloatRange arg tag min value max)

def addDuration (arg tag : Identifier) (value : F) : ProxyLogBackend F → ProxyLogBackend F :=
  delay (.addDuration arg tag value)

def addString (arg tag : Identifier) (value : Block) : ProxyLogBackend F → ProxyLogBackend F :=
  delay (.addString arg tag value)

def addBlob (arg tag : Identifier) (value : Block) : ProxyLogBackend F → ProxyLogBackend F :=
  delay (.addBlob arg tag value)

def finishMessage : ProxyLogBackend F → ProxyLogBackend F :=
  delay .finishMessage

def logChartSample (source : Identifier) (instanceId : LoggerInstanceId) (series : Identifier)
    (value : F) : ProxyLogBackend F → ProxyLogBackend F :=
  delay (.logChartSample source instanceId series value)

def heartbeat : ProxyLogBackend F → ProxyLogBackend F :=
  forward .heartbeat

def finishLog : ProxyLogBackend F → ProxyLogBackend F :=
  forward .finishLog

/-- A call of one of the functions. -/
def call : BackendCall F → ProxyLogBackend F → ProxyLogBackend F
  | .beginLog => beginLog
  | .setDescription source instanceId name desc => setDescription source instanceId name desc
  | .declareState source stateTag beginTag endTag => declareState source stateTag beginTag endTag
  | .activeState source stateTag => activeState source stateTag
  | .beginMessage source tag instanceId severity format => fun proxy =>
      (proxy.beginMessage source tag instanceId severity format).2
  | .addNothing arg tag => addNothing arg tag
  | .addIdentifier arg tag value => addIdentifier arg tag value
  | .addMessageId arg tag value => addMessageId arg tag value
  | .addBool arg tag value => addBool arg tag value
  | .addInteger arg tag value => addInteger arg tag value
  | .addUnsigned arg tag value => addUnsigned arg tag value
  | .addFloat arg tag value => addFloat arg tag value
  | .addFloatRange arg tag min value max => addFloatRange arg tag min value max
  | .addDuration arg tag value => addDuration arg tag value
  | .addString arg tag value => addString arg tag value
  | .addBlob arg tag value => addBlob arg tag value
  | .finishMessage => finishMessage
  | .logChartSample source instanceId series value =>
      logChartSample source instanceId series value
  | .heartbeat => heartbeat
  | .finishLog => finishLog

/-- The delayed operations are done in their order. -/
def replay (delayed : List (BackendCall F)) (delegate : Delegate F) : Delegate F :=
  delayed.foldl (fun delegate op => delegate.receive op) delegate

/-- `configure`, with what comes of the choice of a backend: a new one, none, or an exception.
A backend is given by the severities that it is enabled for. -/
def configure {ε : Type} (chosen : Except ε (Option (LogEventSeverity → Bool)))
    (proxy : ProxyLogBackend F) : Except ε Bool × ProxyLogBackend F :=
  match chosen with
  | .error failure => (.error failure, proxy)
  | .ok none => (.ok false, { proxy with delegate := none })
  | .ok (some enabled) =>
      match proxy.delayed with
      | some delayed =>
          (.ok true, { delegate := some (replay delayed ⟨enabled, []⟩), delayed := none })
      | none => (.ok true, { proxy with delegate := some ⟨enabled, []⟩ })

end ProxyLogBackend

end Eagine.Logging

namespace Eagine.Logging

universe u

variable {F : Type u}

/-- What a client does: it calls a function of the proxy, asks for the backend of an entry, or
calls a function of one of the backends that it got so far. -/
inductive Request (F : Type u) where
  | call (call : BackendCall F)
  | entryBackend (severity : LogEventSeverity)
  | entryCall (entry : Nat) (call : BackendCall F)
deriving DecidableEq

/-- The proxy with the entry backends that it gave, and the calls made by the clients. -/
structure Session (F : Type u) where
  proxy : ProxyLogBackend F := {}
  entries : List EntryBackend := []
  made : List (BackendCall F) := []

namespace Session

/-- A call on the object that an entry backend points to. -/
def callOn (call : BackendCall F) (session : Session F) : EntryBackend → Session F
  | .proxy =>
      { session with proxy := session.proxy.call call, made := session.made ++ [call] }
  | .delegate =>
      { session with
        proxy :=
          { session.proxy with delegate := session.proxy.delegate.map (Delegate.receive call) }
        made := session.made ++ [call] }
  | .null => session

/-- The backend that a client has for an entry. -/
def entry (index : Nat) (session : Session F) : EntryBackend :=
  session.entries.getD index .null

def step (session : Session F) : Request F → Session F
  | .call call => session.callOn call .proxy
  | .entryBackend severity =>
      { session with entries := session.entries ++ [session.proxy.entryBackend severity] }
  | .entryCall index call => session.callOn call (session.entry index)

def run (requests : List (Request F)) (session : Session F) : Session F :=
  requests.foldl step session

/-- The configuration of the proxy, in which a backend is installed. -/
def configure (enabled : LogEventSeverity → Bool) (session : Session F) : Session F :=
  { session with proxy := (session.proxy.configure (.ok (some enabled) : Except Empty _)).2 }

/-- The calls that the delegate has received. -/
def received (session : Session F) : List (BackendCall F) :=
  (session.proxy.delegate.map Delegate.received).getD []

end Session

/-- The function looks for the delegate. -/
def BackendCall.isForwarded : BackendCall F → Bool
  | .beginLog | .heartbeat | .finishLog => true
  | _ => false

def Request.isEntryBackend : Request F → Bool
  | .entryBackend _ => true
  | _ => false

/-- After the configuration, a call of a function that only looks for the list of delayed
operations, made on the proxy or on one of the entry backends that were given early. -/
def Request.isLost (early : Nat) : Request F → Bool
  | .call op => !op.isForwarded
  | .entryBackend _ => false
  | .entryCall index op => decide (index < early) && !op.isForwarded

open Request (isEntryBackend isLost)

namespace ProxyLogBackend

theorem call_eq (call : BackendCall F) (proxy : ProxyLogBackend F) :
    proxy.call call = if call.isForwarded then proxy.forward call else proxy.delay call := by
  cases call <;> rfl

/-- Without a delegate every call is recorded. -/
theorem call_waiting (call : BackendCall F) (delayed : List (BackendCall F)) :
    (⟨none, some delayed⟩ : ProxyLogBackend F).call call = ⟨none, some (delayed ++ [call])⟩ := by
  rw [call_eq]
  cases call.isForwarded <;> rfl

theorem call_configured (call : BackendCall F) (delegate : Delegate F) :
    (⟨some delegate, none⟩ : ProxyLogBackend F).call call =
      if call.isForwarded then ⟨some (delegate.receive call), none⟩ else ⟨some delegate, none⟩ := by
  rw [call_eq]
  cases call.isForwarded <;> rfl

theorem replay_eq (delayed : List (BackendCall F)) (delegate : Delegate F) :
    replay delayed delegate = { delegate with received := delegate.received ++ delayed } := by
  induction delayed generalizing delegate with
  | nil => simp [replay]
  | cons op delayed ih =>
      have rest := ih (delegate.receive op)
      simp only [replay, List.foldl_cons] at rest ⊢
      rw [rest]
      simp [Delegate.receive]

end ProxyLogBackend

namespace Session

/-- All calls are delayed, and all entry backends are the proxy. -/
structure Waiting (early : Nat) (session : Session F) : Prop where
  proxy_eq : session.proxy = ⟨none, some session.made⟩
  entries_eq : session.entries = List.replicate early .proxy

variable {early : Nat} {session : Session F}

theorem Waiting.callOn (waiting : session.Waiting early) (call : BackendCall F)
    {target : EntryBackend} (notDelegate : target ≠ .delegate) :
    (session.callOn call target).Waiting early := by
  cases target with
  | proxy =>
      constructor
      · simp only [Session.callOn, waiting.proxy_eq, ProxyLogBackend.call_waiting]
      · exact waiting.entries_eq
  | delegate => exact absurd rfl notDelegate
  | null => exact waiting

theorem Waiting.entry_ne_delegate (waiting : session.Waiting early) (index : Nat) :
    session.entry index ≠ .delegate := by
  rw [entry, waiting.entries_eq, List.getD_eq_getElem?_getD, List.getElem?_replicate]
  split <;> simp

theorem Waiting.step (waiting : session.Waiting early) (request : Request F) :
    (session.step request).Waiting (early + [request].countP isEntryBackend) := by
  cases request with
  | call call => exact waiting.callOn call fun same : EntryBackend.proxy = .delegate => nomatch same
  | entryBackend severity =>
      constructor
      · exact waiting.proxy_eq
      · simp only [Session.step, waiting.entries_eq, waiting.proxy_eq,
          ProxyLogBackend.entryBackend]
        exact List.replicate_succ'.symm
  | entryCall index call => exact waiting.callOn call (waiting.entry_ne_delegate index)

theorem Waiting.run (waiting : session.Waiting early) (requests : List (Request F)) :
    (session.run requests).Waiting (early + requests.countP isEntryBackend) := by
  induction requests generalizing early session with
  | nil => exact waiting
  | cons request requests ih =>
      have rest := ih (waiting.step request)
      rw [← List.singleton_append, List.countP_append, ← Nat.add_assoc]
      exact rest

theorem waiting_start : ({} : Session F).Waiting 0 where
  proxy_eq := rfl
  entries_eq := rfl

/-- The delegate is installed, and the early entry backends are those that are the proxy. -/
structure Configured (early : Nat) (session : Session F) : Prop where
  proxy_eq : ∃ delegate, session.proxy = ⟨some delegate, none⟩
  entry_eq_proxy : ∀ index, session.entry index = .proxy ↔ index < early

/-- The configuration makes the delayed calls. -/
theorem Waiting.configure (waiting : session.Waiting early) (enabled : LogEventSeverity → Bool) :
    (session.configure enabled).Configured early ∧
      (session.configure enabled).received = (session.configure enabled).made := by
  have proxy_eq : (session.configure enabled).proxy = ⟨some ⟨enabled, session.made⟩, none⟩ := by
    simp [Session.configure, waiting.proxy_eq, ProxyLogBackend.configure,
      ProxyLogBackend.replay_eq]
  constructor
  · constructor
    · exact ⟨_, proxy_eq⟩
    · intro index
      change session.entry index = .proxy ↔ index < early
      rw [entry, waiting.entries_eq, List.getD_eq_getElem?_getD, List.getElem?_replicate]
      split <;> simp_all
  · rw [received, proxy_eq]
    rfl

variable {early : Nat} {session : Session F}

theorem Configured.callOn (configured : session.Configured early) (call : BackendCall F)
    (target : EntryBackend) : (session.callOn call target).Configured early := by
  rcases configured.proxy_eq with ⟨delegate, proxy_eq⟩
  cases target with
  | proxy =>
      refine ⟨?_, configured.entry_eq_proxy⟩
      simp only [Session.callOn, proxy_eq, ProxyLogBackend.call_configured]
      split <;> exact ⟨_, rfl⟩
  | delegate =>
      refine ⟨?_, configured.entry_eq_proxy⟩
      simp only [Session.callOn, proxy_eq]
      exact ⟨_, rfl⟩
  | null => exact configured

theorem Configured.step (configured : session.Configured early) (request : Request F) :
    (session.step request).Configured early := by
  cases request with
  | call call => exact configured.callOn call .proxy
  | entryBackend severity =>
      rcases configured.proxy_eq with ⟨delegate, proxy_eq⟩
      have given : session.proxy.entryBackend severity ≠ .proxy := by
        simp only [proxy_eq, ProxyLogBackend.entryBackend, Delegate.entryBackend]
        split <;> simp
      constructor
      · exact configured.proxy_eq
      · intro index
        rw [← configured.entry_eq_proxy index]
        simp only [entry, Session.step, List.getD_eq_getElem?_getD]
        rcases lt_trichotomy index session.entries.length with inside | last | outside
        · rw [List.getElem?_append_left inside]
        · simp [last, given]
        · have beyond : (session.entries ++ [session.proxy.entryBackend severity]).length ≤ index :=
            by simpa using outside
          rw [List.getElem?_eq_none beyond, List.getElem?_eq_none outside.le]
  | entryCall index call => exact configured.callOn call _

/-- A call of which the delegate hears nothing. -/
theorem Configured.step_lost (configured : session.Configured early) {request : Request F}
    (lost : request.isLost early = true) :
    (session.step request).received = session.received ∧
      (session.step request).made.length = session.made.length + 1 := by
  rcases configured.proxy_eq with ⟨delegate, proxy_eq⟩
  have ignored (call : BackendCall F) (notForwarded : call.isForwarded = false) :
      (session.callOn call .proxy).received = session.received ∧
        (session.callOn call .proxy).made.length = session.made.length + 1 := by
    constructor
    · simp [received, Session.callOn, proxy_eq, ProxyLogBackend.call_configured, notForwarded]
    · simp [Session.callOn]
  cases request with
  | call call => exact ignored call (by simpa [isLost] using lost)
  | entryBackend severity => exact absurd lost Bool.false_ne_true
  | entryCall index call =>
      have split : index < early ∧ call.isForwarded = false := by
        simpa [isLost] using lost
      have target := (configured.entry_eq_proxy index).mpr split.1
      rw [Session.step, target]
      exact ignored call split.2

/-- The delegate receives the calls that are made, when there are any. -/
theorem Configured.step_kept (configured : session.Configured early) {request : Request F}
    (kept : request.isLost early = false) :
    ∃ calls, (session.step request).received = session.received ++ calls ∧
      (session.step request).made = session.made ++ calls := by
  rcases configured.proxy_eq with ⟨delegate, proxy_eq⟩
  have onProxy (call : BackendCall F) (forwarded : call.isForwarded = true) :
      ∃ calls, (session.callOn call .proxy).received = session.received ++ calls ∧
        (session.callOn call .proxy).made = session.made ++ calls := by
    refine ⟨[call], ?_, rfl⟩
    simp [received, Session.callOn, proxy_eq, ProxyLogBackend.call_configured, forwarded,
      Delegate.receive]
  cases request with
  | call call => exact onProxy call (by simpa [isLost] using kept)
  | entryBackend severity => exact ⟨[], by simp [received, Session.step], by simp [Session.step]⟩
  | entryCall index call =>
      rw [Session.step]
      cases target : session.entry index with
      | proxy =>
          have inside := (configured.entry_eq_proxy index).mp target
          exact onProxy call (by simpa [isLost, inside] using kept)
      | delegate =>
          refine ⟨[call], ?_, rfl⟩
          simp [received, Session.callOn, proxy_eq, Delegate.receive]
      | null => exact ⟨[], by simp [Session.callOn], by simp [Session.callOn]⟩

/-- The numbers of the calls made and received differ by that of the lost ones. -/
theorem Configured.length_run (configured : session.Configured early)
    (requests : List (Request F)) :
    (session.run requests).made.length + session.received.length =
      (session.run requests).received.length + session.made.length +
        requests.countP (isLost early) := by
  induction requests generalizing session with
  | nil => exact Nat.add_comm _ _
  | cons request requests ih =>
      have rest := ih (configured.step request)
      change (((session.step request).run requests).made.length + _ = _)
      rw [List.countP_cons]
      change _ = ((session.step request).run requests).received.length + _ + _
      cases lost : request.isLost early with
      | true =>
          rcases configured.step_lost lost with ⟨received_eq, made_length⟩
          rw [received_eq, made_length] at rest
          simp only [if_true]
          omega
      | false =>
          rcases configured.step_kept lost with ⟨calls, received_eq, made_eq⟩
          rw [received_eq, made_eq, List.length_append, List.length_append] at rest
          simp only [Bool.false_eq_true, if_false]
          omega

theorem Configured.run_kept (configured : session.Configured early)
    {requests : List (Request F)} (kept : ∀ request ∈ requests, request.isLost early = false)
    (same : session.received = session.made) :
    (session.run requests).received = (session.run requests).made := by
  induction requests generalizing session with
  | nil => exact same
  | cons request requests ih =>
      rcases List.forall_mem_cons.mp kept with ⟨first, others⟩
      rcases configured.step_kept first with ⟨calls, received_eq, made_eq⟩
      apply ih (configured.step request) others
      rw [received_eq, made_eq, same]

end Session

/-- The delegate has received the calls that were made, each once and in their order, when and
only when none is lost: no function other than those that are forwarded is called after the
configuration on the proxy or on an entry backend that was given before. -/
theorem proxy_transparent_iff (before after : List (Request F))
    (enabled : LogEventSeverity → Bool) :
    ((((({} : Session F).run before).configure enabled).run after).received =
        (((({} : Session F).run before).configure enabled).run after).made) ↔
      ∀ request ∈ after, request.isLost (before.countP isEntryBackend) = false := by
  have waiting := (Session.waiting_start : ({} : Session F).Waiting 0).run before
  rw [Nat.zero_add] at waiting
  rcases waiting.configure enabled with ⟨configured, same⟩
  constructor
  · intro transparent
    have lengths := configured.length_run after
    rw [transparent, same] at lengths
    have none : after.countP (isLost (before.countP isEntryBackend)) = 0 := by
      omega
    intro request within
    exact Bool.eq_false_iff.mpr (List.countP_eq_zero.mp none request within)
  · intro kept
    exact configured.run_kept kept same

/-- A message whose end comes after the configuration. -/
theorem not_proxy_transparent :
    ¬∀ (before after : List (Request Int)) (enabled : LogEventSeverity → Bool),
      ((((({} : Session Int).run before).configure enabled).run after).received =
        (((({} : Session Int).run before).configure enabled).run after).made) := by
  intro transparent
  have lengths := congrArg List.length (transparent
    [.entryBackend .info,
      .entryCall 0 (.beginMessage (.ofChars []) (.ofChars []) 0 .info [])]
    [.entryCall 0 .finishMessage] fun _ => true)
  exact absurd lengths (by decide)

end Eagine.Logging
