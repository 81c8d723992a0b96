import Rkvs.Interface.Compaction
import Rkvs.Library.LastWrite
import Rkvs.Library.Run
import Rkvs.Model.StorageEngine

/-!
# Reads during writes and flushes

The steps of the writer thread and of any number of readers. An insert and the two parts of a flush
hold the write lock of the memtable; a flush adds a segment with the whole table to level zero and
then clears the table. A reader asks the memtable under its read lock and, in a later step, the
levels. Instants are told apart by the inserts made so far.
-/

set_option autoImplicit false

namespace Rkvs.Interface

open Rkvs.Library Rkvs.Model

/-- A lookup that has not found its key in the memtable. -/
structure PendingGet where
  key : String
  since : ℕ

/-- A lookup that has returned. -/
structure ReturnedGet where
  key : String
  since : ℕ
  upTo : ℕ
  result : Option String

/-- What the threads share, with the inserts so far and the lookups. -/
structure Engine where
  table : Table
  container : Sst.LevelContainer
  flushing : Bool
  inserts : List SsTableEntry
  pending : ℕ → Option PendingGet
  returned : List ReturnedGet

namespace Engine

inductive Action
  | insert (entry : SsTableEntry)
  | addSegment
  | clear
  | lookup (reader : ℕ) (key : String)
  | lookupLevels (reader : ℕ)

/-- SOURCE: memtable.rs:130-132, 357-407; memtable_flusher.rs:27-37; level.rs:248-267;
storage_engine.rs:192-200 -/
inductive Step : Engine → Action → Engine → Prop
  | insert {st : Engine} {entry : SsTableEntry} (unlocked : st.flushing = false)
      (newer : ∀ e ∈ st.inserts, e.sequenceNumber < entry.sequenceNumber) :
      Step st (.insert entry)
        { st with
          table := st.table.insert entry.key ⟨entry.value, entry.sequenceNumber⟩
          inserts := st.inserts ++ [entry] }
  | addSegment {st : Engine} {dir : Dir} {path : String} {s : Sst.Segment}
      {c : Sst.LevelContainer} (unlocked : st.flushing = false)
      (written : Sst.Segment.fromFile dir path = .ok (.ok s)) (whole : Whole s)
      (holds : Holds st.table (entriesOf s)) (added : st.container.addToLevelZero dir path = .ok c) :
      Step st .addSegment { st with container := c, flushing := true }
  | clear {st : Engine} (locked : st.flushing = true) :
      Step st .clear { st with table := ∅, flushing := false }
  | found {st : Engine} {reader : ℕ} {key : String} {value : Option String}
      (unlocked : st.flushing = false) (idle : st.pending reader = none)
      (here : Worker.getFromMemtable st.table key = some value) :
      Step st (.lookup reader key)
        { st with
          returned := st.returned ++ [⟨key, st.inserts.length, st.inserts.length, value⟩] }
  | notFound {st : Engine} {reader : ℕ} {key : String} (unlocked : st.flushing = false)
      (idle : st.pending reader = none) (absent : Worker.getFromMemtable st.table key = none) :
      Step st (.lookup reader key)
        { st with pending := Function.update st.pending reader (some ⟨key, st.inserts.length⟩) }
  | lookupLevels {st : Engine} {reader : ℕ} {get : PendingGet} {value : Option String}
      (waiting : st.pending reader = some get)
      (answer : Worker.getFromSstable st.container get.key = .ok value) :
      Step st (.lookupLevels reader)
        { st with
          pending := Function.update st.pending reader none
          returned := st.returned ++ [⟨get.key, get.since, st.inserts.length, value⟩] }

/-- The value of a key after the first `i` inserts. -/
def valueAt (inserts : List SsTableEntry) (i : ℕ) (key : String) : Option String :=
  (lastTo SsTableEntry.key (inserts.take i) key).bind SsTableEntry.value

/-- The table and the levels hold the last insert for every key, the table first, and those of
level zero are inserts with sequence numbers of their own. No lookup is under way. -/
structure Consistent (st : Engine) : Prop where
  good : GoodContainer st.container
  unlocked : st.flushing = false
  increasing : st.inserts.Pairwise fun e f => e.sequenceNumber < f.sequenceNumber
  levelZero : ∀ e ∈ allEntries st.container.levelZero.segments, e ∈ st.inserts
  table : ∀ key value, st.table.lookup key = some value →
    lastTo SsTableEntry.key st.inserts key = some (SsTableEntry.fromValue key value)
  levels : ∀ key, st.table.lookup key = none →
    st.container.get key = .ok (lastTo SsTableEntry.key st.inserts key)
  pending : ∀ reader, st.pending reader = none
  returned : st.returned = []

/-- Every lookup has returned the value of its key at some instant between its steps. -/
def Linearizable (st : Engine) : Prop :=
  ∀ get ∈ st.returned, get.upTo ≤ st.inserts.length ∧
    ∃ i, get.since ≤ i ∧ i ≤ get.upTo ∧ get.result = valueAt st.inserts i get.key

/-- Every lookup that waits for the levels gets an answer. -/
def Answered (st : Engine) : Prop :=
  ∀ reader get, st.pending reader = some get →
    ∃ value, Worker.getFromSstable st.container get.key = .ok value

end Engine

end Rkvs.Interface
