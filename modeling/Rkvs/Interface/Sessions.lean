import Rkvs.Interface.WorkerRuns
import Rkvs.Model.EngineStart

/-!
# Sessions

A session starts the engine on what the last one has left, answers commands, and ends between two
of them, in whatever way. Meanwhile the levels and the files of the SSTable may change, as they do
when levels are compacted or the memtable is flushed at the end. A run of commands alone has no such
changes: it is a session in which the compaction thread does nothing.

The engine creates the directory `WAL` but not the directory `SSTable`. Where that is missing there
are no sessions.
-/

set_option autoImplicit false

namespace Rkvs.Interface

open Rkvs.Library Rkvs.Model Rkvs.Analysis

/-- What is written for a command that was answered without an error. -/
def Exchange.write : Exchange → Option (String × Option String)
  | (.put key value, .ok _) => some (key, some value)
  | (.delete key, .ok _) => some (key, none)
  | _ => none

end Rkvs.Interface
