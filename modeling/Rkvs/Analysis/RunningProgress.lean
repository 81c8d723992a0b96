import Rkvs.Analysis.RunningEngine
import Rkvs.Library.Tracking

/-!
# Every operation comes to an end

The queues and the list of the busy workers hold just the operations that are in the phases for them,
so that some thread can always go on with what it works on: a lookup waits for the end of a flush, and
a write for its turn with the writer thread, which waits for no one. Each step brings an operation or
the writer thread closer to its end, in whatever order the threads take their steps.
-/

set_option autoImplicit false

namespace Rkvs.Analysis

open Rkvs.Library Rkvs.Model Rkvs.Interface Rkvs.Interface.RunningEngine History

/-! ## Who works on what -/

def IsQueued : OperationPhase → Prop
  | .queued _ => True
  | _ => False

/-- A worker has taken the operation, and has not put it down. -/
def IsWorked : OperationPhase → Prop
  | .running _ => True
  | .asking _ => True
  | .forwarded _ => True
  | .answered _ _ => True
  | _ => False

def IsForwarded : OperationPhase → Prop
  | .forwarded _ => True
  | _ => False

/-- The job that the writer thread holds. -/
def held : WriterPhase → List ℕ
  | .received id => [id]
  | .clearing id => [id]
  | .writing id => [id]
  | .inserting id _ => [id]
  | _ => []

/-- The queues and the workers hold what is in the phases for them. -/
structure Staffed (st : RunningEngine) : Prop where
  queue : Tracks IsQueued st.operations st.queue
  busy : Tracks IsWorked st.operations st.busy
  limited : st.busy.length + st.workersGone ≤ WORKERS
  handed : st.writer ≠ .gone → Tracks IsForwarded st.operations (held st.writer ++ st.writeQueue)
  writes : ∀ id command, st.operations id = .forwarded command → Command.job command ≠ none

section
variable {crc : Bytes → UInt32} {st st' : RunningEngine} {id : ℕ}

/-- INTERNAL: one worker less is busy. -/
theorem Staffed.ended (h : Staffed st) (hworked : IsWorked (st.operations id)) :
    (st.busy.erase id).length + (st.workersGone + 1) ≤ WORKERS := by
  have hmem := (h.busy.mem id).mpr hworked
  have hpos := List.length_pos_of_mem hmem
  have hlimited := h.limited
  rw [List.length_erase_of_mem hmem]
  omega

/-- INTERNAL: lookups in the levels return. -/
theorem RunningSound.asks {s : SegmentSize} {base : List SsTableEntry} (h : RunningSound crc s base st)
    (id : ℕ) (key : String) (hasking : st.operations id = .asking key) :
    ∃ value, Worker.getFromSstable st.store.2.sstable key = .ok value := by
  obtain ⟨t, flushed, -, hstore, -⟩ := h
  obtain ⟨i, -, -, hanswer⟩ := hstore.answers hasking
  exact ⟨_, hanswer⟩

/-! ## All work comes to an end -/

/-- What is still to be done for an operation. -/
def phaseWeight : OperationPhase → ℕ
  | .queued _ => 12
  | .running _ => 11
  | .forwarded _ => 10
  | .asking _ => 2
  | .answered _ _ => 1
  | _ => 0

/-- What the writer thread still does before it waits for the next job. -/
def writerWeight : WriterPhase → ℕ
  | .receiving => 5
  | .received _ => 4
  | .clearing _ => 3
  | .writing _ => 2
  | .inserting _ _ => 1
  | .gone => 0

/-- The operations that have begun are among these. -/
def Among (ids : List ℕ) (st : RunningEngine) : Prop :=
  ids.Nodup ∧ ∀ id, st.operations id ≠ .absent → id ∈ ids

def workLeft (ids : List ℕ) (st : RunningEngine) : ℕ :=
  total phaseWeight st.operations ids + writerWeight st.writer + (WORKERS - st.workersGone)

section
variable {ids : List ℕ}

/-- INTERNAL: a step of an operation that has begun. -/
theorem Among.moves (h : Among ids st) {phase phase' : OperationPhase}
    (hphase : st.operations id = phase)
    (hoperations : st'.operations = Function.update st.operations id phase')
    (hless : phaseWeight phase' + writerWeight st'.writer <
      phaseWeight phase + writerWeight st.writer) (hgone : st.workersGone ≤ st'.workersGone)
    (hbegun : phase ≠ .absent) :
    Among ids st' ∧ workLeft ids st' < workLeft ids st := by
  have hmem := h.2 id (by rw [hphase]; exact hbegun)
  refine ⟨⟨h.1, fun other hother => ?_⟩, ?_⟩
  · by_cases heq : other = id
    · rw [heq]
      exact hmem
    · rw [hoperations, Function.update_of_ne heq] at hother
      exact h.2 other hother
  · have htotal := @total_update _ st.operations ids id phase' phaseWeight h.1 hmem
    rw [hphase] at htotal
    unfold workLeft
    rw [hoperations]
    omega

/-- INTERNAL: a step of the writer thread alone. -/
theorem Among.aside (h : Among ids st) (hoperations : st'.operations = st.operations)
    (hgone : st'.workersGone = st.workersGone)
    (hless : writerWeight st'.writer < writerWeight st.writer) :
    Among ids st' ∧ workLeft ids st' < workLeft ids st := by
  refine ⟨⟨h.1, hoperations ▸ h.2⟩, ?_⟩
  unfold workLeft
  rw [hoperations, hgone]
  omega

/-- INTERNAL: a step of a worker. -/
theorem Among.worker (h : Among ids st) {phase phase' : OperationPhase}
    (hphase : st.operations id = phase)
    (hoperations : st'.operations = Function.update st.operations id phase')
    (hwriter : st'.writer = st.writer) (hgone : st.workersGone ≤ st'.workersGone)
    (hless : phaseWeight phase' < phaseWeight phase) (hbegun : phase ≠ .absent) :
    Among ids st' ∧ workLeft ids st' < workLeft ids st :=
  h.moves hphase hoperations (by rw [hwriter]; exact Nat.add_lt_add_right hless _) hgone hbegun

/-- Every step of a worker or the writer thread leaves less work.
SOURCE: storage_engine.rs:152-212; memtable.rs:357-419 -/
theorem Among.step (h : Among ids st) {a : RunningEngine.Action} (hworks : a.Works)
    (hstep : RunningEngine.Step crc st a st') :
    Among ids st' ∧ workLeft ids st' < workLeft ids st := by
  cases hstep with
  | invoke fresh opened => exact absurd hworks fun hp => hp
  | close => exact absurd hworks fun hp => hp
  | @leave closing done idle =>
    refine ⟨⟨h.1, h.2⟩, ?_⟩
    unfold workLeft
    dsimp only
    omega
  | take next queued idle => exact h.worker queued rfl rfl (Nat.le_refl _) (show 11 < 12 by decide) nofun
  | found running unlocked healthy here =>
    exact h.worker running rfl rfl (Nat.le_refl _) (show 1 < 11 by decide) nofun
  | notFound running unlocked healthy absent =>
    exact h.worker running rfl rfl (Nat.le_refl _) (show 2 < 11 by decide) nofun
  | readPanics running poisoned => exact h.worker running rfl rfl (Nat.le_succ _) (show 0 < 11 by decide) nofun
  | lookupLevels asking answer => exact h.worker asking rfl rfl (Nat.le_refl _) (show 1 < 2 by decide) nofun
  | lookupFails asking failed => exact h.worker asking rfl rfl (Nat.le_refl _) (show 0 < 2 by decide) nofun
  | lookupPanics asking poisoned => exact h.worker asking rfl rfl (Nat.le_succ _) (show 0 < 2 by decide) nofun
  | dropped next queued gone => exact h.worker queued rfl rfl (Nat.le_refl _) (show 0 < 12 by decide) nofun
  | forward running write listens => exact h.worker running rfl rfl (Nat.le_refl _) (show 10 < 11 by decide) nofun
  | refused sent gone =>
    obtain hsent | ⟨hsent, -⟩ := sent
    · exact h.worker hsent rfl rfl (Nat.le_refl _) (show 0 < 10 by decide) nofun
    · exact h.worker hsent rfl rfl (Nat.le_refl _) (show 0 < 11 by decide) nofun
  | respond answered => exact h.worker answered rfl rfl (Nat.le_refl _) (show 0 < 1 by decide) nofun
  | receive waiting next forwarded =>
    exact h.aside rfl rfl (by rw [waiting]; exact show 4 < 5 by decide)
  | keep received room => exact h.aside rfl rfl (by rw [received]; exact show 2 < 4 by decide)
  | flush received full flushed => exact h.aside rfl rfl (by rw [received]; exact show 3 < 4 by decide)
  | flushFails received full failed =>
    exact h.aside rfl rfl (by rw [received]; exact show 0 < 4 by decide)
  | clear clearing => exact h.aside rfl rfl (by rw [clearing]; exact show 2 < 3 by decide)
  | append writing forwarded write next record appended =>
    exact h.aside rfl rfl (by rw [writing]; exact show 1 < 2 by decide)
  | appendFails writing forwarded write next record failed =>
    exact h.moves forwarded rfl (by rw [writing]; exact show 0 + 5 < 10 + 2 by decide) (Nat.le_refl _)
      nofun
  | numberPanics writing panicked => exact h.aside rfl rfl (by rw [writing]; exact show 0 < 2 by decide)
  | appendPanics writing forwarded write next record panicked =>
    exact h.aside rfl rfl (by rw [writing]; exact show 0 < 2 by decide)
  | insert inserting forwarded inserted =>
    exact h.moves forwarded rfl (by rw [inserting]; exact show 1 + 5 < 10 + 1 by decide) (Nat.le_refl _)
      nofun
  | insertPanics inserting forwarded panicked =>
    exact h.aside rfl rfl (by rw [inserting]; exact show 0 < 1 by decide)
  | notified returned => exact absurd hworks fun hp => hp
  | timedOut returned => exact absurd hworks fun hp => hp
  | notifiedFails failed => exact absurd hworks fun hp => hp
  | timedOutFails failed => exact absurd hworks fun hp => hp

/-- INTERNAL: a new operation is work to do. -/
theorem Among.invoke (h : Among ids st) {command : Command} (hfresh : st.operations id = .absent)
    (hoperations : st'.operations = Function.update st.operations id (.queued command))
    (hwriter : st'.writer = st.writer) (hgone : st'.workersGone = st.workersGone) :
    ∃ ids', Among ids' st' ∧ workLeft ids' st' = workLeft ids st + 12 := by
  have hbegun : ∀ other, other ≠ id → st'.operations other ≠ .absent → other ∈ ids := by
    intro other hne hother
    rw [hoperations, Function.update_of_ne hne] at hother
    exact h.2 other hother
  by_cases hold : id ∈ ids
  · refine ⟨ids, ⟨h.1, fun other hother => ?_⟩, ?_⟩
    · by_cases heq : other = id
      · rwa [heq]
      · exact hbegun other heq hother
    · have htotal := @total_update _ st.operations ids id (.queued command) phaseWeight h.1 hold
      rw [hfresh] at htotal
      have hzero : phaseWeight .absent = 0 := rfl
      have htwelve : phaseWeight (.queued command) = 12 := rfl
      unfold workLeft
      rw [hoperations, hwriter, hgone]
      omega
  · refine ⟨id :: ids, ⟨List.nodup_cons.mpr ⟨hold, h.1⟩, fun other hother => ?_⟩, ?_⟩
    · by_cases heq : other = id
      · rw [heq]
        exact List.mem_cons_self
      · exact List.mem_cons_of_mem _ (hbegun other heq hother)
    · have htotal : total phaseWeight st'.operations (id :: ids) =
          12 + total phaseWeight st.operations ids := by
        rw [hoperations]
        show phaseWeight (Function.update st.operations id (.queued command) id) + _ = _
        rw [Function.update_self]
        exact congrArg _ (total_update_of_notMem hold)
      unfold workLeft
      rw [htotal, hwriter, hgone]
      omega

end

/-! ## Every run -/

end

end Rkvs.Analysis
