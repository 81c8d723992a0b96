import Rkvs.Analysis.Durability
import Rkvs.Interface.TableSize

/-!
# The bound of the memtable

The counter of the worker grows by every entry that is written, the table only by those that do not
replace another one. So the counter is never behind, and the test before a write, which looks at
the counter, keeps the table below its limit until the next entry.
-/

set_option autoImplicit false

namespace Rkvs.Analysis

open Rkvs.Library Rkvs.Model Rkvs.Interface

section
variable {crc : Bytes → UInt32} {φ : Type} {flush : Table → EStateM Fault φ Unit}
  {state state' : WriteWorker × φ} {job : WriteJob}

/-- INTERNAL: before a write there is room below the limit.
SOURCE: memtable.rs:397-407 -/
theorem flushIfFull_counted (hlimit : 1 ≤ state.1.maxSize)
    (hcounted : tableLength state.1.table ≤ state.1.currentSize)
    (hrun : (WriteWorker.flushIfFull flush).run state = .ok () state') :
    tableLength state'.1.table ≤ state'.1.currentSize ∧
      state'.1.currentSize < state'.1.maxSize ∧ state'.1.maxSize = state.1.maxSize := by
  obtain ⟨hroom, rfl⟩ | ⟨-, -, hworker⟩ := flushIfFull_eq_ok hrun
  · exact ⟨hcounted, hroom, rfl⟩
  · rw [hworker]
    exact ⟨Nat.zero_le 0, hlimit, rfl⟩

/-- INTERNAL: an insert adds no more than is counted for it.
SOURCE: memtable.rs:357-393 -/
theorem written_counted {e : WalEntry} {old : Option MemTableValue} {w w' : WriteWorker}
    (h : EntryWritten crc w e old w') (hcounted : tableLength w.table ≤ w.currentSize) :
    tableLength w'.table ≤ w'.currentSize := by
  rw [h.table, h.size]
  apply (weight_insert_le _ _ _ _).trans
  exact Nat.add_le_add_right hcounted _

/-- One job keeps the counter ahead of the table, and below the limit but for its entry.
SOURCE: memtable.rs:395-419 -/
theorem jobStep_withinLimit (hlimit : 1 ≤ state.1.maxSize)
    (hcounted : tableLength state.1.table ≤ state.1.currentSize)
    (hstep : JobStep crc flush state job state') :
    WithinLimit state.1.maxSize state'.1 job ∧ state'.1.maxSize = state.1.maxSize := by
  obtain ⟨old, hrun⟩ := hstep
  obtain ⟨mid, n, ⟨op, key, value, seq⟩, hflush, hentry, rfl, -, hwritten⟩ := runJob_eq_ok hrun
  obtain ⟨hbefore, hroom, hmax⟩ := flushIfFull_counted hlimit hcounted hflush
  have hafter := written_counted hwritten hbefore
  have hsize : state'.1.currentSize <
      state.1.maxSize + (SsTableEntry.fromValue key ⟨value, seq⟩).len := by
    rw [hwritten.size, ← hmax]
    exact Nat.add_lt_add_right hroom _
  refine ⟨⟨hafter, seq, op, key, value, hentry, ?_, hafter.trans_lt hsize, hsize⟩, ?_⟩
  · rw [hwritten.table, Finmap.lookup_insert]
  · rw [hwritten.limit, hmax]

/-- From an empty table on, after every put or delete the entries of the table are together no
longer than the worker has counted, and shorter than the limit and the last entry.
SOURCE: memtable.rs:357-427 -/
theorem table_within_limit {start : WriteWorker × φ} {steps : List ((WriteWorker × φ) × WriteJob)}
    (hempty : start.1.table = ∅) (hlimit : 1 ≤ start.1.maxSize)
    (hrun : Run (JobStep crc flush) start (steps ++ [(state, job)]) state') :
    WithinLimit start.1.maxSize state'.1 job := by
  obtain ⟨hbefore, hstep⟩ := hrun.of_snoc
  have hstart : tableLength start.1.table ≤ start.1.currentSize := by
    rw [hempty]
    exact Nat.zero_le _
  obtain ⟨-, hcounted, hmax⟩ := @Run.invariant _ _ (JobStep crc flush) start state steps
    (fun s => tableLength s.1.table ≤ s.1.currentSize ∧ s.1.maxSize = start.1.maxSize)
    ⟨hstart, rfl⟩ (by
      intro s a s' hs hstep
      obtain ⟨hwithin, hmax⟩ := jobStep_withinLimit (hs.2 ▸ hlimit) hs.1 hstep
      exact ⟨hwithin.counted, hmax.trans hs.2⟩) hbefore
  rw [← hmax] at hlimit ⊢
  exact (jobStep_withinLimit hlimit hcounted hstep).1

/-- INTERNAL: acknowledged jobs are a run. -/
theorem acknowledge_run {start : WriteWorker × φ} {steps : List ((WriteWorker × φ) × WriteJob)}
    {jobs : List WriteJob} {es : List WalEntry} (h : Run (JobStep crc flush) start steps state)
    (hrun : acknowledge crc flush state jobs = some (es, state')) :
    ∃ steps', Run (JobStep crc flush) start (steps ++ steps') state' ∧
      steps'.map Prod.snd = jobs := by
  induction jobs generalizing steps state es with
  | nil =>
    cases hrun
    exact ⟨[], by rwa [List.append_nil], rfl⟩
  | cons job jobs ih =>
    unfold acknowledge at hrun
    split at hrun
    next n mid old hnext hjob =>
      obtain ⟨⟨rest, last⟩, hrest, hsome⟩ := Option.bind_eq_some_iff.mp hrun
      obtain ⟨e, -, hsome⟩ := Option.bind_eq_some_iff.mp hsome
      cases hsome
      obtain ⟨steps', hall, hjobs⟩ := ih (Run.snoc h ⟨_, hjob⟩) hrest
      rw [List.append_assoc] at hall
      exact ⟨_, hall, congrArg (List.cons job) hjobs⟩
    next => cases hrun

end

/-- A long value is replaced by a short one and deleted after a flush. -/
theorem table_within_limit_overwritten : ∃ (start state state' : WriteWorker × Unit) (steps : _),
    start.1.table = ∅ ∧ steps.map Prod.snd = [.put "a" "long", .put "a" "x", .put "b" "y"] ∧
    Run (JobStep (fun _ => 0) ignoreTable) start (steps ++ [(state, .delete "a")]) state' ∧
    state'.1.table.lookup "b" = none ∧ WithinLimit 60 state'.1 (.delete "a") := by
  have hleft : (do
      let log ← Log.run (fun _ => 0) smallSegments.val []
      let (_, state) ← unwrap (acknowledge (fun _ => 0) ignoreTable (⟨∅, log.wal, 0, 60⟩, ())
        [.put "a" "long", .put "a" "x", .put "b" "y", .delete "a"])
      return state.1.table.lookup "b") = .ok none := by decide
  obtain ⟨log, -, hseen⟩ := exec_bind_eq_ok.mp hleft
  obtain ⟨⟨es, state'⟩, hjobs, hseen⟩ := exec_bind_eq_ok.mp hseen
  obtain ⟨steps, hrun, hmap⟩ := acknowledge_run Run.nil (unwrap_eq_ok.mp hjobs)
  obtain ⟨before, last, rfl, hbefore, hlast⟩ :=
    List.map_eq_append_iff.mp (show steps.map Prod.snd =
      [.put "a" "long", .put "a" "x", .put "b" "y"] ++ [.delete "a"] from hmap)
  obtain ⟨⟨state, job⟩, rfl, rfl⟩ := List.map_eq_singleton_iff.mp hlast
  exact ⟨_, state, state', before, rfl, hbefore, hrun, Except.ok.inj hseen,
    table_within_limit rfl (show 1 ≤ 60 by decide) hrun⟩

end Rkvs.Analysis
