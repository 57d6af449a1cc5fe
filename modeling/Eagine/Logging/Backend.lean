import Eagine.Serialization.Portable

/-!
# The logger backend interface

What a logger passes to its backend: the entries of a log, and the arguments of its messages.
-/

namespace Eagine.Logging

open Serialization

universe u

/-- `log_event_severity` -/
inductive LogEventSeverity where
  | backtrace
  | trace
  | debug
  | stat
  | info
  | change
  | warning
  | error
  | fatal
deriving DecidableEq

/-- `enumerator_name` -/
def LogEventSeverity.name : LogEventSeverity → String
  | .backtrace => "backtrace"
  | .trace => "trace"
  | .debug => "debug"
  | .stat => "stat"
  | .info => "info"
  | .change => "change"
  | .warning => "warning"
  | .error => "error"
  | .fatal => "fatal"

/-- `logger_instance_id` -/
abbrev LoggerInstanceId :=
  UInt64

/-- A call of one of the functions of a `logger_backend` that take a part of the log. The
numbers of the type `float` are those of `F`. -/
inductive BackendCall (F : Type u) where
  | beginLog
  | setDescription (source : Identifier) (instanceId : LoggerInstanceId) (displayName : Block)
      (description : Block)
  | declareState (source stateTag beginTag endTag : Identifier)
  | activeState (source stateTag : Identifier)
  | beginMessage (source tag : Identifier) (instanceId : LoggerInstanceId)
      (severity : LogEventSeverity) (format : Block)
  | addNothing (arg tag : Identifier)
  | addIdentifier (arg tag value : Identifier)
  | addMessageId (arg tag : Identifier) (value : Identifier × Identifier)
  | addBool (arg tag : Identifier) (value : Bool)
  | addInteger (arg tag : Identifier) (value : Int64)
  | addUnsigned (arg tag : Identifier) (value : UInt64)
  | addFloat (arg tag : Identifier) (value : F)
  | addFloatRange (arg tag : Identifier) (min value max : F)
  | addDuration (arg tag : Identifier) (value : F)
  | addString (arg tag : Identifier) (value : Block)
  | addBlob (arg tag : Identifier) (value : Block)
  | finishMessage
  | logChartSample (source : Identifier) (instanceId : LoggerInstanceId) (series : Identifier)
      (value : F)
  | heartbeat
  | finishLog
deriving DecidableEq

end Eagine.Logging
