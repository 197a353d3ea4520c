import Mathlib.Data.Nat.Notation
import Mathlib.Data.Int.Notation

namespace Temps.LogAggregator.Types

/-- A string of the source, as its Unicode scalar values. -/
abbrev Text := List Char

inductive LogAggregatorError
  | chunkFormat (reason : String)
  | decompressionFailed (reason : String)
  | serialization (reason : String)
  | validation (message : String)
  | chunkNotFound (storageKey : Text)
  | chunkReadFailed (storageKey : Text)
  | chunkWriteFailed (storageKey : Text)
  | chunkDeleteFailed (storageKey : Text)
  | database (reason : String)
  | invalidCursor (cursor : Text)
  deriving DecidableEq

inductive LogLevel
  | trace | debug | info | warn | error
  deriving DecidableEq

inductive LogStream
  | stdout | stderr
  deriving DecidableEq

/-- A log line; times are nanoseconds since the epoch and `J` is the type of JSON values. -/
structure LogLine (J : Type) where
  ts : ℤ
  stream : LogStream
  level : LogLevel
  msg : Text
  fields : Option J
  containerId : String
  service : String
  env : String
  projectId : ℤ
  externalServiceId : Option ℤ
  deployId : Option ℤ
  nodeId : Option ℤ
  nodeName : Option String
  deriving DecidableEq

end Temps.LogAggregator.Types
