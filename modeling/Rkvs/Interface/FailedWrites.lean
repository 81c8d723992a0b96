import Rkvs.Interface.Acknowledged
import Rkvs.Interface.ReachableWorker

/-!
# Writes that fail

Puts and deletes of which any file operation may fail. What a write leaves at the end of the log is
decided by the space in the active segment, the length of the record and the outcomes of its file
operations.
-/

set_option autoImplicit false

namespace Rkvs.Interface

open Rkvs.Model

/-! ## What a write leaves -/

/-- How many of `len` bytes have been written when writing them fails, `none` if it does not fail, and
the outcomes of the operations that follow. -/
def writeOutcome (len : ℕ) (events : List IoEvent) : Option ℕ × List IoEvent :=
  if len = 0 then (none, events)
  else
    match events with
    | [] => (none, [])
    | .ok :: events => (none, events)
    | .fail written :: events => (some (min written (len - 1)), events)

/-- What stands at the end of a log: whole records, with zeros if they fill their segment; a part of a
record, or of these zeros, behind them; or the header of a record in one file and what was written of
its rest in the next. -/
inductive Remains
  | whole
  | torn
  | straddling
  deriving DecidableEq, Repr

/-- For a write that puts all its bytes in one file. -/
def Remains.ofWrite : Option ℕ → Remains
  | none | some 0 => .whole
  | some _ => .torn

/-- For a record of `size` bytes with this LSN and `free` bytes left in the active segment. A file of
the first 2^32 LSNs into which nothing was written is not read.
SOURCE: wal.rs:40-58 -/
def remains (lsn free size : ℕ) (events : List IoEvent) : Remains :=
  if size ≤ free then .ofWrite (writeOutcome size events).1
  else if HEADER_SIZE ≤ free then
    let header := writeOutcome HEADER_SIZE events
    let zeros := writeOutcome (free - HEADER_SIZE) header.2
    let rest := writeOutcome (size - HEADER_SIZE) zeros.2.tail
    if header.1 = some 0 then .whole
    else if header.1 ≠ none ∨ zeros.1 ≠ none ∨ zeros.2.headD .ok ≠ .ok then .torn
    else if rest.1 = none then .whole
    else if rest.1 = some 0 ∧ lsn + size < 2 ^ 32 then .torn
    else .straddling
  else
    let zeros := writeOutcome free events
    if zeros.1 ≠ none then .ofWrite zeros.1
    else if zeros.2.headD .ok ≠ .ok then .whole
    else .ofWrite (writeOutcome size zeros.2.tail).1

/-- The first operation that does something fails, and has done nothing.
SOURCE: wal.rs:40-58 -/
def WritesNothing (free size : ℕ) (events : List IoEvent) : Prop :=
  if size ≤ free then (writeOutcome size events).1 = some 0
  else if HEADER_SIZE ≤ free then (writeOutcome HEADER_SIZE events).1 = some 0
  else (writeOutcome free events).1 = some 0 ∨ free = 0 ∧ events.headD .ok ≠ .ok

instance (free size : ℕ) (events : List IoEvent) : Decidable (WritesNothing free size events) :=
  inferInstanceAs (Decidable (if size ≤ free then (writeOutcome size events).1 = some 0
    else if HEADER_SIZE ≤ free then (writeOutcome HEADER_SIZE events).1 = some 0
    else (writeOutcome free events).1 = some 0 ∨ free = 0 ∧ events.headD .ok ≠ .ok))

/-! ## Attempts -/

/-- A put or delete, and the outcomes of its file operations. -/
structure Attempt where
  job : WriteJob
  events : List IoEvent

/-- The entry of an attempt, and whether it was answered without an error. -/
structure WriteAnswer where
  entry : WalEntry
  accepted : Bool
  deriving DecidableEq, Repr

/-- The number of bytes of the log record of a job. -/
def WriteJob.length : WriteJob → ℕ
  | .put key value => recordLength key (some value)
  | .delete key => recordLength key none
  | .shutdown => 0

/-- What an attempt of this worker leaves. -/
def Attempt.remains (a : Attempt) (w : WriteWorker) : Remains :=
  let segment := w.wal.activeSegment
  Interface.remains (segment.baseLsn + segment.fileSize) (segment.maxSize - segment.fileSize)
    (WriteJob.length a.job) a.events

def Attempt.WritesNothing (a : Attempt) (w : WriteWorker) : Prop :=
  let segment := w.wal.activeSegment
  Interface.WritesNothing (segment.maxSize - segment.fileSize) (WriteJob.length a.job) a.events

instance (a : Attempt) (w : WriteWorker) : Decidable (a.WritesNothing w) :=
  inferInstanceAs (Decidable (Interface.WritesNothing ..))

section
variable (calculateChecksum : Bytes → UInt32) {φ : Type} (flush : Table → EStateM Fault φ Unit)

/-- One attempt, if the thread goes on after it. -/
def attempt (state : WriteWorker × φ) (a : Attempt) : Option (WriteAnswer × (WriteWorker × φ)) :=
  let state := (withFaults state.1 a.events, state.2)
  match state.1.wal.nextSequenceNumber,
      (WriteWorker.runJob calculateChecksum flush a.job).run state with
  | .ok sequenceNumber, .ok (some answer) state => do
    let entry ← WriteJob.entry sequenceNumber a.job
    return (⟨entry, answer.isOk⟩, (withFaults state.1 [], state.2))
  | _, _ => none

/-- Attempts one after the other. -/
def attempts : WriteWorker × φ → List Attempt → Option (List WriteAnswer × (WriteWorker × φ))
  | state, [] => some ([], state)
  | state, a :: as => do
    let (answer, state) ← attempt calculateChecksum flush state a
    let (answers, state) ← attempts state as
    return (answer :: answers, state)

/-- No write goes behind a part of a record: the attempts leave whole records, up to one that is not
followed by a write, and that one does not leave its record in two files. -/
def NothingBehind : Bool → WriteWorker × φ → List Attempt → Prop
  | _, _, [] => True
  | damaged, state, a :: as =>
    WriteJob.length a.job < 2 ^ 32 ∧
      (if damaged then a.WritesNothing state.1 else a.remains state.1 ≠ .straddling) ∧
      ∀ result ∈ attempt calculateChecksum flush state a,
        NothingBehind (damaged || a.remains state.1 = .torn) result.2 as

instance decidableNothingBehind : ∀ (as : List Attempt) (damaged : Bool) (state : WriteWorker × φ),
    Decidable (NothingBehind calculateChecksum flush damaged state as)
  | [], _, _ => isTrue trivial
  | a :: as, damaged, state =>
    have := decidableNothingBehind as
    inferInstanceAs (Decidable (_ ∧ (if damaged then a.WritesNothing state.1 else _) ∧ ∀ _ ∈ _, _))

end

/-- The entries that were answered without an error. -/
def acceptedEntries (answers : List WriteAnswer) : List WalEntry :=
  (answers.filter WriteAnswer.accepted).map WriteAnswer.entry

/-- The table has the last accepted write of every key whose last attempt was accepted, and no other
value for a key that was not attempted. -/
def FoundAgain (answers : List WriteAnswer) (table : Table) : Prop :=
  ∀ key, (∀ answer, answers.reverse.find? (fun answer => answer.entry.key = key) = some answer →
    answer.accepted = true) → table.lookup key = lastWrite (acceptedEntries answers) key

end Rkvs.Interface
