import Rkvs.Analysis.OrderlyMerges
import Rkvs.Analysis.Sessions
import Rkvs.Interface.RunningEngine

/-!
# The store of the running engine

The memtable, the levels and the log while clients, the writer thread and the compaction thread take
their steps. The flushes of the writer thread bring versions that are newer than all before, so that
orderly compactions change no answer.
-/

set_option autoImplicit false

namespace Rkvs.Analysis

open Rkvs.Library Rkvs.Model Rkvs.Interface RunningEngine

/-! ## What the readers see -/

/-- The lookups that ask the levels next, with the number of the inserts before they began. -/
def pendingOf (operations : ℕ → OperationPhase) (asked : ℕ → ℕ) (id : ℕ) : Option PendingGet :=
  match operations id with
  | .asking key => some ⟨key, asked id⟩
  | _ => none

/-- The memtable and the levels as the readers see them. -/
def viewOf (st : RunningEngine) (inserts : List SsTableEntry) (asked : ℕ → ℕ) : Engine :=
  ⟨st.store.1.table, st.store.2.sstable, st.flushing, inserts, pendingOf st.operations asked, []⟩

/-- The entry whose record is in the log, but which is not in the memtable yet. -/
def promised : WriterPhase → List SsTableEntry
  | .inserting _ entry => [SsTableEntry.fromValue entry.key ⟨entry.value, entry.sequenceNumber⟩]
  | _ => []

/-- The log has records for these entries, and goes on behind them. -/
def LogReady (crc : Bytes → UInt32) (s : SegmentSize) (wal : Wal) (entries : List SsTableEntry) :
    Prop :=
  ∃ es, LogSound crc s wal es ∧ insertsOf es = entries

/-- INTERNAL: the sequence numbers increase. -/
theorem LogReady.increasing {crc : Bytes → UInt32} {s : SegmentSize} {wal : Wal}
    {entries : List SsTableEntry} (h : LogReady crc s wal entries) :
    entries.Pairwise fun e f => e.sequenceNumber < f.sequenceNumber := by
  obtain ⟨es, hlog, rfl⟩ := h
  exact List.pairwise_map.mpr hlog.increasing

/-- What holds of the store in every state, with the segments that were ever flushed. -/
structure StoreSound (crc : Bytes → UInt32) (s : SegmentSize) (st : RunningEngine)
    (inserts : List SsTableEntry) (asked : ℕ → ℕ) (flushed : List Sst.Segment) : Prop where
  engine : EngineSound (viewOf st inserts asked)
  lsm : LsmSound ⟨st.bt, flushed⟩
  among : ∀ e ∈ allEntries flushed, e ∈ inserts
  unflushed : st.flushing = false → ∀ key value, st.store.1.table.lookup key = some value →
    ∀ e ∈ allEntries flushed, e.key = key → e.sequenceNumber < value.sequenceNumber
  fits : ∀ key value, st.store.1.table.lookup key = some value →
    EntryFits (SsTableEntry.fromValue key value)
  promise : ∀ e ∈ promised st.writer, EntryFits e
  counted : st.store.1.table = ∅ → st.store.1.currentSize = 0
  limit : 1 ≤ st.store.1.maxSize
  log : st.writer ≠ .gone → LogReady crc s st.store.1.wal (inserts ++ promised st.writer)

section
variable {crc : Bytes → UInt32} {s : SegmentSize} {st st' : RunningEngine}
  {inserts : List SsTableEntry} {asked : ℕ → ℕ} {flushed : List Sst.Segment}

/-- INTERNAL: steps that the store does not take part in. -/
theorem StoreSound.congr {asked' : ℕ → ℕ} (h : StoreSound crc s st inserts asked flushed)
    (hstore : st'.store = st.store) (hbt : st'.bt = st.bt) (hflushing : st'.flushing = st.flushing)
    (hpending : pendingOf st'.operations asked' = pendingOf st.operations asked)
    (hpromised : promised st'.writer = promised st.writer)
    (hgone : st'.writer ≠ .gone → st.writer ≠ .gone) :
    StoreSound crc s st' inserts asked' flushed := by
  have hview : viewOf st' inserts asked' = viewOf st inserts asked := by
    unfold viewOf
    rw [hstore, hflushing, hpending]
  refine ⟨hview ▸ h.engine, hbt ▸ h.lsm, h.among, ?_, ?_, ?_, ?_, ?_, ?_⟩
  · rw [hstore, hflushing]
    exact h.unflushed
  · rw [hstore]
    exact h.fits
  · rw [hpromised]
    exact h.promise
  · rw [hstore]
    exact h.counted
  · rw [hstore]
    exact h.limit
  · rw [hstore, hpromised]
    exact fun hwriter => h.log (hgone hwriter)

/-- INTERNAL: an operation that does not ask the levels before or after. -/
theorem pendingOf_update {operations : ℕ → OperationPhase} {id : ℕ} {phase : OperationPhase}
    (hbefore : ∀ key, operations id ≠ .asking key) (hafter : ∀ key, phase ≠ .asking key)
    (asked : ℕ → ℕ) :
    pendingOf (Function.update operations id phase) asked = pendingOf operations asked := by
  funext other
  unfold pendingOf
  by_cases heq : other = id
  · rw [heq, Function.update_self]
    cases hphase : operations id with
    | asking key => exact absurd hphase (hbefore key)
    | _ =>
      cases phase with
      | asking key => exact absurd rfl (hafter key)
      | _ => rfl
  · rw [Function.update_of_ne heq]

/-- INTERNAL: fewer lookups are under way. -/
theorem engineSound_fewer {engine : Engine} {pending : ℕ → Option PendingGet}
    (h : EngineSound engine)
    (hfewer : ∀ reader get, pending reader = some get → engine.pending reader = some get) :
    EngineSound { engine with pending := pending, returned := [] } :=
  ⟨h.good, h.increasing, h.levelZero, h.table, h.levels,
    fun reader _ hpending => h.pending reader _ (hfewer reader _ hpending),
    fun _ hget => absurd hget List.not_mem_nil⟩

/-- INTERNAL: levels with the same answers. -/
theorem engineSound_swap {engine : Engine} {c : Sst.LevelContainer} (h : EngineSound engine)
    (hgood : GoodContainer c) (hzero : ∀ e ∈ allEntries c.levelZero.segments, e ∈ engine.inserts)
    (hsame : ∀ key, c.get key = engine.container.get key) :
    EngineSound { engine with container := c } := by
  refine ⟨hgood, h.increasing, hzero, h.table, ?_, ?_, h.returned⟩
  · intro key hkey
    exact (hsame key).trans (h.levels key hkey)
  · intro reader get hpending
    obtain ⟨i, hsince, hi, hget⟩ := h.pending reader get hpending
    exact ⟨i, hsince, hi, (hsame get.key).trans hget⟩

/-! ## Lookups -/

/-- A lookup in the memtable returns the last insert.
SOURCE: storage_engine.rs:192-194 -/
theorem StoreSound.found (h : StoreSound crc s st inserts asked flushed) {key : String}
    {value : Option String} (hhere : Worker.getFromMemtable st.store.1.table key = some value) :
    value = Engine.valueAt inserts inserts.length key := by
  obtain ⟨mvalue, hlookup, rfl⟩ := Option.map_eq_some_iff.mp hhere
  unfold Engine.valueAt
  rw [List.take_length,
    show lastTo SsTableEntry.key inserts key = _ from h.engine.table key mvalue hlookup]
  rfl

/-- A lookup in the levels returns what was the last insert at some instant since it began.
SOURCE: storage_engine.rs:195-198 -/
theorem StoreSound.answers (h : StoreSound crc s st inserts asked flushed) {id : ℕ} {key : String}
    (hasking : st.operations id = .asking key) :
    ∃ i, asked id ≤ i ∧ i ≤ inserts.length ∧
      Worker.getFromSstable st.store.2.sstable key = .ok (Engine.valueAt inserts i key) := by
  have hpending : pendingOf st.operations asked id = some ⟨key, asked id⟩ := by
    unfold pendingOf
    rw [hasking]
  obtain ⟨i, hsince, hi, hget⟩ := h.engine.pending id _ hpending
  refine ⟨i, hsince, hi, ?_⟩
  unfold Worker.getFromSstable
  rw [show st.store.2.sstable.get key = _ from hget]
  rfl

/-- INTERNAL: a lookup goes on to the levels. -/
theorem StoreSound.notFound (h : StoreSound crc s st inserts asked flushed) {id : ℕ} {key : String}
    (hrunning : st.operations id = .running (.get key)) (hunlocked : st.flushing = false)
    (habsent : Worker.getFromMemtable st.store.1.table key = none) :
    StoreSound crc s (st.moved id (.asking key)) inserts (Function.update asked id inserts.length)
      flushed := by
  have hidle : pendingOf st.operations asked id = none := by
    unfold pendingOf
    rw [hrunning]
  have hpending : pendingOf (st.moved id (.asking key)).operations
      (Function.update asked id inserts.length) =
      Function.update (pendingOf st.operations asked) id (some ⟨key, inserts.length⟩) := by
    funext other
    unfold pendingOf moved
    by_cases heq : other = id
    · rw [heq, Function.update_self]
      dsimp only
      rw [Function.update_self, Function.update_self]
    · rw [Function.update_of_ne heq, Function.update_of_ne heq]
      dsimp only
      rw [Function.update_of_ne heq]
  have hstep := engineSound_step h.engine
    (@Engine.Step.notFound (viewOf st inserts asked) id key hunlocked hidle habsent)
  refine ⟨?_, h.lsm, h.among, h.unflushed, h.fits, h.promise, h.counted, h.limit, h.log⟩
  unfold viewOf
  rw [hpending]
  exact hstep

/-- INTERNAL: a lookup in the levels is over. -/
theorem StoreSound.lookedUp (h : StoreSound crc s st inserts asked flushed) {id : ℕ}
    {phase : OperationPhase} (hphase : ∀ key, phase ≠ .asking key) :
    StoreSound crc s (st.moved id phase) inserts asked flushed := by
  refine ⟨?_, h.lsm, h.among, h.unflushed, h.fits, h.promise, h.counted, h.limit, h.log⟩
  apply engineSound_fewer h.engine
  intro reader get hpending
  unfold pendingOf moved at hpending
  by_cases heq : reader = id
  · rw [heq] at hpending
    dsimp only at hpending
    rw [Function.update_self] at hpending
    cases phase with
    | asking key => exact absurd rfl (hphase key)
    | _ => cases hpending
  · dsimp only at hpending
    rw [Function.update_of_ne heq] at hpending
    exact hpending

/-! ## The writer thread -/

/-- INTERNAL: a flush whose file is not there yet.
SOURCE: memtable_flusher.rs:27-37 -/
theorem flush_adds_next {table : Table} {f f' : Flusher}
    (h : (Flusher.flush table).run f = .ok () f') (hne : table ≠ ∅)
    (hfits : ∀ key value, table.lookup key = some value →
      EntryFits (SsTableEntry.fromValue key value))
    (hnext : ∀ path, Sst.Segment.determineSegmentFilename 0
      (f.sstable.levelZero.highestSegmentNumber + 1) = .ok path → path ∉ f.dir.names) :
    ∃ path t, Sst.Segment.fromFile f'.dir path = .ok (.ok t) ∧ Whole t ∧
      Holds table (entriesOf t) ∧ f.sstable.addToLevelZero f'.dir path = .ok f'.sstable := by
  obtain ⟨path, hwrite, hadd, -⟩ := flush_eq_ok h
  obtain ⟨hname, -⟩ := segmentFileFromMemtable_among hwrite
  obtain ⟨es, hasc, hholds⟩ := exists_tableEntries table
  have hentries : ∀ e ∈ es, EntryFits e := fun e he =>
    hfits e.key ⟨e.value, e.sequenceNumber⟩ (lookup_of_holds hasc hholds he)
  obtain ⟨⟨hmem, indices, hindex, hcontent, hlen⟩, -⟩ := written_complete hasc hentries
    (Written.memtable table _ hholds hname (hnext path hname) hwrite)
  obtain ⟨t, hopen, hstored, -⟩ := fromFile_ok (numbers_of_filename hname) hmem
    hcontent hlen (ne_nil_of_holds hholds hne) hasc hentries hindex
  refine ⟨path, t, hopen, whole_of_stored hstored, ?_, hadd⟩
  rw [entriesOf_eq hstored]
  exact hholds

/-- A flush adds the table to the levels as what is newest.
SOURCE: memtable.rs:397-407; memtable_flusher.rs:27-37 -/
theorem StoreSound.flush (h : StoreSound crc s st inserts asked flushed) {id : ℕ} {flusher : Flusher}
    (hreceived : st.writer = .received id) (hfull : st.store.1.maxSize ≤ st.store.1.currentSize)
    (hflushed : (Flusher.flush st.store.1.table).run st.store.2 = .ok () flusher)
    (hclean : st.Clean .flush) :
    ∃ t, StoreSound crc s { st with store := (st.store.1, flusher), writer := .clearing id } inserts
      asked (flushed ++ [t]) := by
  have hunlocked : st.flushing = false := by
    unfold flushing
    rw [hreceived]
  have hpromised : promised st.writer = [] := by
    rw [hreceived]
    rfl
  have hne : st.store.1.table ≠ ∅ := by
    intro hempty
    have hzero := h.counted hempty
    have hlimit := h.limit
    omega
  obtain ⟨path, t, hwritten, hwhole, hholds, hadded⟩ :=
    flush_adds_next hflushed hne h.fits hclean
  have hadd := engineSound_step h.engine
    (@Engine.Step.addSegment (viewOf st inserts asked) _ _ _ _ hunlocked hwritten hwhole hholds
      hadded)
  have hlookup : ∀ e ∈ entriesOf t, st.store.1.table.lookup e.key =
      some ⟨e.value, e.sequenceNumber⟩ := by
    intro e he
    rw [hholds e.key, entryFor_of_mem (whole_nodup hwhole) he]
    rfl
  have hnewer : NewerThan SsTableEntry.key SsTableEntry.sequenceNumber (entriesOf t)
      (allEntries flushed) := fun e he f hf hkey =>
    h.unflushed hunlocked e.key _ (hlookup e he) f hf hkey.symm
  refine ⟨t, hadd, flush_answers_newest h.lsm hwritten hwhole hadded hnewer, ?_,
    fun hlocked => ?_, h.fits, fun e he => absurd he List.not_mem_nil, h.counted, h.limit,
    fun _ => ?_⟩
  · intro e he
    rw [allEntries_append, allEntries_singleton] at he
    obtain he | he := List.mem_append.mp he
    · exact h.among e he
    · have hlast := mem_segment_iff hwhole hholds h.engine.table he
      exact (lastTo_some hlast).1
  · cases hlocked
  · have hlog := h.log (by rw [hreceived]; exact WriterPhase.noConfusion)
    rw [hpromised] at hlog
    exact hlog

/-- INTERNAL: the levels stay as they are, and the writer thread is gone. -/
theorem StoreSound.gone (h : StoreSound crc s st inserts asked flushed)
    (hunlocked : st.flushing = false) {operations : ℕ → OperationPhase}
    (hpending : pendingOf operations asked = pendingOf st.operations asked) (wal : Wal) (dir : Dir)
    (poisoned : Bool) (sparsity : ℕ) :
    StoreSound crc s
      { st with
        operations := operations
        store := ({ st.store.1 with wal := wal }, ⟨st.store.2.sstable, dir, sparsity⟩)
        writer := .gone
        poisoned := poisoned } inserts asked flushed := by
  refine ⟨?_, h.lsm.files rfl, h.among, fun _ => h.unflushed hunlocked, h.fits, ?_, h.counted,
    h.limit, fun hwriter => absurd rfl hwriter⟩
  · have hengine := h.engine
    unfold viewOf at hengine ⊢
    rw [hunlocked] at hengine
    rw [hpending]
    exact hengine
  · exact fun e he => absurd he List.not_mem_nil

/-- The table is empty once it is flushed.
SOURCE: memtable.rs:400-402 -/
theorem StoreSound.clear (h : StoreSound crc s st inserts asked flushed) {id : ℕ}
    (hclearing : st.writer = .clearing id) :
    StoreSound crc s
      { st with
        store := ({ st.store.1 with table := ∅, currentSize := 0 }, st.store.2)
        writer := .writing id } inserts asked flushed := by
  have hlocked : st.flushing = true := by
    unfold flushing
    rw [hclearing]
  have hcleared := engineSound_step h.engine (@Engine.Step.clear (viewOf st inserts asked) hlocked)
  have hnone : ∀ key value, (∅ : Table).lookup key ≠ some value := by
    intro key value hlookup
    rw [Finmap.lookup_empty] at hlookup
    cases hlookup
  refine ⟨hcleared, h.lsm, h.among, fun _ key value hlookup => absurd hlookup (hnone key value),
    fun key value hlookup => absurd hlookup (hnone key value),
    fun e he => absurd he List.not_mem_nil, fun _ => rfl, h.limit, fun _ => ?_⟩
  have hlog := h.log (by rw [hclearing]; exact WriterPhase.noConfusion)
  rw [hclearing] at hlog
  exact hlog

/-- INTERNAL: an operation on the log that returns leaves the rest of the worker. -/
theorem onWal_eq_ok {α : Type} {x : EStateM Fault Wal α} {w w' : WriteWorker} {a : α}
    (h : (WriteWorker.onWal x).run w = .ok a w') : w' = { w with wal := w'.wal } := by
  obtain ⟨wal, -, rfl⟩ := run_onPart_eq_ok h
  rfl

/-- INTERNAL: so does one that fails. -/
theorem onWal_eq_error {α : Type} {x : EStateM Fault Wal α} {w w' : WriteWorker} {e : Fault}
    (h : (WriteWorker.onWal x).run w = .error e w') :
    x.run w.wal = .error e w'.wal ∧ w' = { w with wal := w'.wal } := by
  obtain ⟨wal, hx, rfl⟩ := run_onPart_eq_error h
  exact ⟨hx, rfl⟩

/-- INTERNAL: what is written for a command.
SOURCE: memtable.rs:357-393; storage_engine.rs:203-212 -/
theorem entry_of_command {command : Command} {job : WriteJob} {n : ℕ} {entry : WalEntry}
    (hjob : Command.job command = some job) (hentry : WriteJob.entry n job = some entry) :
    entry = ⟨(commandValue command).1, Command.key command, (commandValue command).2, n⟩ ∧
      entry.valueFits = true := by
  cases command with
  | get key => cases hjob
  | delete key =>
    cases hjob
    cases hentry
    exact ⟨rfl, rfl⟩
  | put key value =>
    cases hjob
    cases hentry
    exact ⟨rfl, rfl⟩

/-- INTERNAL: the length of the record of a short command. -/
theorem recordLength_of_short {command : Command} {job : WriteJob}
    (hjob : Command.job command = some job) (hshort : Command.Short command) :
    recordLength (Command.key command) (commandValue command).2 < 2 ^ 32 := by
  cases command with
  | get key => cases hjob
  | delete key => exact hshort
  | put key value => exact hshort

/-- INTERNAL: a short record makes a short entry. -/
theorem entryFits_of_short {key : String} {value : Option String} {n : ℕ}
    (hshort : recordLength key value < 2 ^ 32) (hseq : n < 2 ^ 64) :
    EntryFits ⟨key, value, n⟩ := by
  refine ⟨lt_of_le_of_lt ?_ hshort, hseq⟩
  unfold SsTableEntry.len recordLength
  cases value with
  | none =>
    simp only [Option.elim_none]
    omega
  | some v =>
    simp only [Option.elim_some]
    omega

/-- A record is in the log before its entry is in the memtable.
SOURCE: memtable.rs:358-365, 377-384 -/
theorem StoreSound.append (h : StoreSound crc s st inserts asked flushed) {id n : ℕ}
    {command : Command} {job : WriteJob} {entry : WalEntry} {worker : WriteWorker}
    (hwriting : st.writer = .writing id) (hjob : Command.job command = some job)
    (hshort : Command.Short command) (hnext : st.store.1.wal.nextSequenceNumber = .ok n)
    (hentry : WriteJob.entry n job = some entry)
    (happended : (WriteWorker.onWal (Wal.append crc entry)).run st.store.1 = .ok () worker) :
    StoreSound crc s { st with store := (worker, st.store.2), writer := .inserting id entry } inserts
      asked flushed := by
  have happend := onWal_ok happended
  obtain ⟨hentry, hfits⟩ := entry_of_command hjob hentry
  have hlength := recordLength_of_short hjob hshort
  have hunlocked : st.flushing = false := by
    unfold flushing
    rw [hwriting]
  have hpromised : promised st.writer = [] := by
    rw [hwriting]
    rfl
  obtain ⟨es, hlog, hrecords⟩ := h.log (by rw [hwriting]; exact WriterPhase.noConfusion)
  rw [hpromised, List.append_nil] at hrecords
  have hlt : n < 2 ^ 64 := by
    obtain ⟨front, base, content, rear, hactive⟩ := hlog.whole.active
    have hsum := hnext
    rw [hactive.next] at hsum
    have hadd := checkedAdd_eq_ok hsum
    omega
  have hseq : entry.sequenceNumber = n := by rw [hentry]
  have he : WellFormed entry := by
    refine wellFormed_of_append happend hfits (hseq ▸ hlt) ?_
    rw [hentry]
    exact (encode_recordLength ..).trans_lt hlength
  have hafter := hlog.append he (hseq ▸ hnext) happend
  rw [onWal_eq_ok happended]
  refine ⟨?_, h.lsm, h.among, fun _ => h.unflushed hunlocked, h.fits, ?_, h.counted, h.limit,
    fun _ => ⟨_, hafter, ?_⟩⟩
  · have hengine := h.engine
    unfold viewOf at hengine ⊢
    rw [hunlocked] at hengine
    exact hengine
  · intro e hmem
    rw [List.mem_singleton.mp hmem, hentry]
    exact entryFits_of_short hlength hlt
  · rw [← hrecords]
    exact List.map_append

/-- A log without faults accepts every record that it has room for.
SOURCE: wal.rs:40-58 -/
theorem StoreSound.accepts (h : StoreSound crc s st inserts asked flushed) {id n : ℕ}
    {command : Command} {job : WriteJob} {entry : WalEntry} {worker : WriteWorker}
    {kind : ErrorKind} (hwriting : st.writer = .writing id)
    (hjob : Command.job command = some job)
    (hnext : st.store.1.wal.nextSequenceNumber = .ok n)
    (hentry : WriteJob.entry n job = some entry) :
    (WriteWorker.onWal (Wal.append crc entry)).run st.store.1 ≠ .error (.io kind) worker := by
  intro hfailed
  obtain ⟨hfailed, -⟩ := onWal_eq_error hfailed
  obtain ⟨hentry, hfits⟩ := entry_of_command hjob hentry
  obtain ⟨es, hlog, -⟩ := h.log (by rw [hwriting]; exact WriterPhase.noConfusion)
  obtain ⟨front, base, content, rear, hactive⟩ := hlog.whole.active
  have hsound : Sound s st.store.1.wal := by
    refine ⟨hactive.maxSize, ?_, ?_⟩
    · rw [hactive.active]
      exact openedSegment_maxSize ..
    · rw [hactive.active, openedSegment_fileSize]
      exact hactive.size_le
  have hnumber : entry.sequenceNumber =
      st.store.1.wal.activeSegment.baseLsn + st.store.1.wal.activeSegment.fileSize := by
    rw [hentry]
    exact (checkedAdd_eq_ok hnext).1.symm
  exact ((append_guarded hsound hnumber hfits rfl).error hfailed).2 hactive.faults

/-- INTERNAL: what an insert changes, also where the size of the table does not fit.
SOURCE: memtable.rs:366-373, 385-392 -/
theorem insertEntry_eq_error {e : WalEntry} {w w' : WriteWorker} {f : Fault}
    (h : (WriteWorker.insertEntry e).run w = .error f w') :
    w' = { w with table := w.table.insert e.key ⟨e.value, e.sequenceNumber⟩ } := by
  unfold WriteWorker.insertEntry at h
  rw [run_bind_ok (EStateM.run_get w), run_bind_ok (EStateM.run_modify ..),
    run_bind_ok (EStateM.run_get _)] at h
  obtain hfail | ⟨size, mid, -, hrest⟩ := run_bind_eq_error h
  · exact (run_liftExec_eq_error hfail).2
  · rw [run_bind_ok (EStateM.run_modify ..)] at hrest
    cases hrest

/-- An insert makes the entry of the last record visible.
SOURCE: memtable.rs:366-373, 385-392 -/
theorem StoreSound.insert (h : StoreSound crc s st inserts asked flushed) {id : ℕ} {entry : WalEntry}
    (hinserting : st.writer = .inserting id entry) {operations : ℕ → OperationPhase}
    (hpending : pendingOf operations asked = pendingOf st.operations asked)
    {writer : WriterPhase} (hwriter : writer = .receiving ∨ writer = .gone) (currentSize : ℕ) :
    StoreSound crc s
      { st with
        operations := operations
        store := ({ st.store.1 with
          table := st.store.1.table.insert entry.key ⟨entry.value, entry.sequenceNumber⟩
          currentSize := currentSize }, st.store.2)
        writer := writer }
      (inserts ++ [SsTableEntry.fromValue entry.key ⟨entry.value, entry.sequenceNumber⟩]) asked
      flushed := by
  have hunlocked : st.flushing = false := by
    unfold flushing
    rw [hinserting]
  have hidle : ∀ st' : RunningEngine, st'.writer = writer → st'.flushing = false := by
    intro st' heq
    unfold flushing
    rw [heq]
    obtain rfl | rfl := hwriter <;> rfl
  have hnone : promised writer = [] := by obtain rfl | rfl := hwriter <;> rfl
  have hlog := h.log (by rw [hinserting]; exact WriterPhase.noConfusion)
  rw [hinserting] at hlog
  have hnewer : ∀ e ∈ inserts, e.sequenceNumber < entry.sequenceNumber := fun e he =>
    (List.pairwise_append.mp hlog.increasing).2.2 e he _ (List.mem_singleton_self _)
  have hfits := h.promise
  rw [hinserting] at hfits
  refine ⟨?_, h.lsm, fun e he => List.mem_append_left _ (h.among e he), fun _ => ?_, ?_, ?_, ?_,
    h.limit, fun _ => ?_⟩
  · have hinsert := @insert_sound (viewOf st inserts asked)
      (SsTableEntry.fromValue entry.key ⟨entry.value, entry.sequenceNumber⟩) h.engine hunlocked
      hnewer
    unfold viewOf at hinsert ⊢
    rw [hidle _ rfl]
    rw [hunlocked] at hinsert
    rw [hpending]
    exact hinsert
  · intro key value hlookup e he hkey
    dsimp only at hlookup
    by_cases hsame : key = entry.key
    · rw [hsame, Finmap.lookup_insert] at hlookup
      cases hlookup
      exact hnewer e (h.among e he)
    · rw [Finmap.lookup_insert_of_ne _ hsame] at hlookup
      exact h.unflushed hunlocked key value hlookup e he hkey
  · intro key value hlookup
    dsimp only at hlookup
    by_cases hsame : key = entry.key
    · rw [hsame, Finmap.lookup_insert] at hlookup
      cases hlookup
      rw [hsame]
      exact hfits _ (List.mem_singleton_self _)
    · rw [Finmap.lookup_insert_of_ne _ hsame] at hlookup
      exact h.fits key value hlookup
  · dsimp only
    rw [hnone]
    exact fun e he => absurd he List.not_mem_nil
  · intro hempty
    dsimp only at hempty
    have hlookup : (∅ : Table).lookup entry.key = some ⟨entry.value, entry.sequenceNumber⟩ := by
      rw [← hempty, Finmap.lookup_insert]
    rw [Finmap.lookup_empty] at hlookup
    cases hlookup
  · dsimp only
    rw [hnone, List.append_nil]
    exact hlog

/-! ## The compaction thread -/

/-- Levels that answer with the newest flushed version still do what they did.
SOURCE: compaction.rs:200-240 -/
theorem StoreSound.compacted (h : StoreSound crc s st inserts asked flushed) {bt : Sst.CompactionBt}
    (hlsm : LsmSound ⟨bt, flushed⟩) : StoreSound crc s (st.withBt bt) inserts asked flushed := by
  have hsame : ∀ key, bt.container.get key = st.store.2.sstable.get key := by
    intro key
    obtain ⟨r, hget, hr⟩ := h.lsm.answers key
    obtain ⟨r', hget', hr'⟩ := hlsm.answers key
    have heq : r = r' := newest_of_inserts h.engine.increasing h.among hr hr'
    exact hget'.trans ((congrArg Except.ok heq.symm).trans hget.symm)
  refine ⟨?_, hlsm, h.among, h.unflushed, h.fits, h.promise, h.counted, h.limit, h.log⟩
  exact engineSound_swap h.engine hlsm.good (fun e he => h.among e (hlsm.zero e he)) hsame

end

end Rkvs.Analysis
