import Rkvs.Analysis.SettledLog
import Rkvs.Analysis.Replay
import Rkvs.Interface.Acknowledged

/-!
# Writes after a recovery

What is acknowledged after a recovery from a damaged log is found by the next start, on top of
what was recovered, when the repaired log ends at the end of a record and no later file is left
over.
-/

set_option autoImplicit false

namespace Rkvs.Analysis

open Rkvs.Library Rkvs.Model Rkvs.Interface

section
variable {crc : Bytes → UInt32} {s : SegmentSize} {φ : Type} {flush : Table → EStateM Fault φ Unit}

/-! ## Acknowledged writes -/

/-- INTERNAL: an entry without a key is not appended.
SOURCE: wal/segment.rs:273 -/
theorem append_empty_key {e : WalEntry} (h : e.key = "") (w : Wal) :
    (Wal.append crc e).run w = .error .panic w := by
  have hbytes : e.toBytes crc = .error .panic := by
    unfold WalEntry.toBytes
    rw [assert, if_neg (not_not.mpr h)]
    rfl
  unfold Wal.append
  rw [hbytes, run_bind_error (run_liftExec_error ..)]

theorem append_key_ne {w w' : Wal} {e : WalEntry}
    (hrun : (Wal.append crc e).run w = .ok () w') : e.key ≠ "" := by
  intro hempty
  cases (append_empty_key hempty w).symm.trans hrun

/-- INTERNAL: the table that is left when a full one was flushed. -/
theorem flushIfFull_eq_ok {st st' : WriteWorker × φ}
    (h : (WriteWorker.flushIfFull flush).run st = .ok () st') :
    (st.1.currentSize < st.1.maxSize ∧ st' = st) ∨
      (st.1.maxSize ≤ st.1.currentSize ∧ (flush st.1.table).run st.2 = .ok () st'.2 ∧
        st'.1 = { st.1 with table := ∅, currentSize := 0 }) := by
  obtain ⟨w, f⟩ := st
  change WriteWorker.flushIfFull flush (w, f) = _ at h
  unfold WriteWorker.flushIfFull at h
  dsimp only at h
  by_cases hfull : w.currentSize ≥ w.maxSize
  · rw [if_pos hfull] at h
    cases hflush : (flush w.table).run f with
    | ok a f' =>
      rw [hflush] at h
      cases h
      exact Or.inr ⟨hfull, rfl, rfl⟩
    | error e f' =>
      rw [hflush] at h
      cases h
  · rw [if_neg hfull] at h
    cases h
    exact Or.inl ⟨Nat.lt_of_not_le hfull, rfl⟩

/-- INTERNAL: a flush leaves the log alone. -/
theorem flushIfFull_wal {state state' : WriteWorker × φ}
    (hrun : (WriteWorker.flushIfFull flush).run state = .ok () state') :
    state'.1.wal = state.1.wal := by
  obtain ⟨-, rfl⟩ | ⟨-, -, hworker⟩ := flushIfFull_eq_ok hrun
  · rfl
  · rw [hworker]

/-- INTERNAL: the answer behind the one that is sent. -/
theorem run_some_map {σ α : Type} {x : EStateM Fault σ α} {s s' : σ} {a : α}
    (hrun : (some <$> x).run s = .ok (some a) s') : x.run s = .ok a s' := by
  obtain ⟨b, hx, hb⟩ := run_map_eq_ok hrun
  cases hb
  exact hx

/-- INTERNAL: a write that is answered without an error was written. -/
theorem answer_ok {α : Type} {x : EStateM Fault WriteWorker α} {state state' : WriteWorker × φ}
    {a : α} (hrun : (WriteWorker.answer x).run state = .ok (.ok a) state') :
    x.run state.1 = .ok a state'.1 := by
  obtain ⟨w, f⟩ := state
  change WriteWorker.answer x (w, f) = _ at hrun
  unfold WriteWorker.answer at hrun
  dsimp only at hrun
  cases hx : x.run w with
  | ok b w' =>
    rw [hx] at hrun
    cases hrun
    rfl
  | error e w' =>
    rw [hx] at hrun
    cases e with
    | io kind => cases hrun
    | panic => cases hrun

/-- INTERNAL: an operation on the log that returns changes the log only. -/
theorem onWal_ok {α : Type} {x : EStateM Fault Wal α} {w w' : WriteWorker} {a : α}
    (hrun : (WriteWorker.onWal x).run w = .ok a w') : x.run w.wal = .ok a w'.wal := by
  obtain ⟨wal, hx, rfl⟩ := run_onPart_eq_ok hrun
  exact hx

/-- INTERNAL: what is changed once the log entry is written. -/
theorem insertEntry_eq_ok {e : WalEntry} {w w' : WriteWorker} {old : Option MemTableValue}
    (hrun : (WriteWorker.insertEntry e).run w = .ok old w') :
    old = w.table.lookup e.key ∧ w' = { w with
      table := w.table.insert e.key ⟨e.value, e.sequenceNumber⟩
      currentSize :=
        w.currentSize + (SsTableEntry.fromValue e.key ⟨e.value, e.sequenceNumber⟩).len } := by
  unfold WriteWorker.insertEntry at hrun
  obtain ⟨_, _, hget, hrun⟩ := run_bind_eq_ok hrun
  cases hget
  obtain ⟨⟨⟩, _, hmodify, hrun⟩ := run_bind_eq_ok hrun
  cases hmodify
  obtain ⟨_, _, hget, hrun⟩ := run_bind_eq_ok hrun
  cases hget
  obtain ⟨size, _, hadd, hrun⟩ := run_bind_eq_ok hrun
  obtain ⟨hsum, rfl⟩ := run_liftExec_eq_ok hadd
  have hsize := (checkedAdd_eq_ok hsum).1
  obtain ⟨⟨⟩, _, hmodify, hrun⟩ := run_bind_eq_ok hrun
  cases hmodify
  cases hrun
  refine ⟨rfl, ?_⟩
  rw [← hsize]

/-- INTERNAL: the parts of a write.
SOURCE: memtable.rs:357-393 -/
theorem write_eq_ok {op : OpType} {key : String} {value : Option String} {w w' : WriteWorker}
    {old : Option MemTableValue}
    (h : (do
        let sequenceNumber ← liftExec (← get).wal.nextSequenceNumber
        let entry : WalEntry := ⟨op, key, value, sequenceNumber⟩
        WriteWorker.onWal (Wal.append crc entry)
        WriteWorker.insertEntry entry : EStateM Fault WriteWorker (Option MemTableValue)).run w =
      .ok old w') :
    ∃ n, EntryWritten crc w ⟨op, key, value, n⟩ old w' := by
  rw [run_bind_ok (EStateM.run_get w)] at h
  obtain ⟨n, w₁, hlift, hrest⟩ := run_bind_eq_ok h
  obtain ⟨hnext, hsame⟩ := run_liftExec_eq_ok hlift
  rw [hsame] at hrest
  obtain ⟨⟨⟩, mid, happend, hinsert⟩ := run_bind_eq_ok hrest
  obtain ⟨wal, hwal, rfl⟩ := run_onPart_eq_ok happend
  obtain ⟨hold, rfl⟩ := insertEntry_eq_ok hinsert
  exact ⟨n, hnext, hwal, hold, rfl, rfl, rfl⟩

/-- An acknowledged job has written its entry, perhaps after a flush.
SOURCE: memtable.rs:395-419 -/
theorem runJob_eq_ok {state state' : WriteWorker × φ} {job : WriteJob}
    {old : Option MemTableValue}
    (hrun : (WriteWorker.runJob crc flush job).run state = .ok (some (.ok old)) state') :
    ∃ mid n e, (WriteWorker.flushIfFull flush).run state = .ok () mid ∧
      WriteJob.entry n job = some e ∧ e.sequenceNumber = n ∧ e.valueFits = true ∧
      EntryWritten crc mid.1 e old state'.1 := by
  unfold WriteWorker.runJob at hrun
  obtain ⟨_, mid, hflush, hrun⟩ := run_bind_eq_ok hrun
  cases job with
  | shutdown => cases hrun
  | put key value =>
    obtain ⟨n, hwritten⟩ := write_eq_ok (answer_ok (run_some_map hrun))
    exact ⟨mid, n, _, hflush, rfl, rfl, rfl, hwritten⟩
  | delete key =>
    obtain ⟨n, hwritten⟩ := write_eq_ok (answer_ok (run_some_map hrun))
    exact ⟨mid, n, _, hflush, rfl, rfl, rfl, hwritten⟩

/-- INTERNAL: an acknowledged job has appended its entry to the log. -/
theorem runJob_append {state state' : WriteWorker × φ} {job : WriteJob}
    {old : Option MemTableValue}
    (hrun : (WriteWorker.runJob crc flush job).run state = .ok (some (.ok old)) state')
    {n : ℕ} (hnext : state.1.wal.nextSequenceNumber = .ok n) :
    ∃ e, WriteJob.entry n job = some e ∧ e.sequenceNumber = n ∧ e.valueFits = true ∧
      (Wal.append crc e).run state.1.wal = .ok () state'.1.wal := by
  obtain ⟨mid, n', e, hflush, hentry, hseq, hfits, hwritten⟩ := runJob_eq_ok hrun
  have hnow := hwritten.next
  rw [flushIfFull_wal hflush, hnext, hseq] at hnow
  cases hnow
  refine ⟨e, hentry, hseq, hfits, ?_⟩
  rw [← flushIfFull_wal hflush]
  exact hwritten.append

/-- INTERNAL: an entry that was acknowledged can be written. -/
theorem wellFormed_of_append {w w' : Wal} {e : WalEntry}
    (hrun : (Wal.append crc e).run w = .ok () w') (hfits : e.valueFits = true)
    (hseq : e.sequenceNumber < 2 ^ 64) (hlen : (e.encode crc).length < 2 ^ 32) : WellFormed e :=
  ⟨append_key_ne hrun, hfits, hseq, by rwa [encode_length] at hlen⟩

/-- The records of the jobs can be written with a length of 32 bits. -/
def ShortRecords (crc : Bytes → UInt32) (jobs : List WriteJob) : Prop :=
  ∀ job ∈ jobs, ∀ n e, WriteJob.entry n job = some e → (e.encode crc).length < 2 ^ 32

/-- Acknowledged jobs keep a log settled.
SOURCE: memtable.rs:395-419 -/
theorem Settled.acknowledge {jobs : List WriteJob} {state state' : WriteWorker × φ}
    {content tail : Bytes} {es es' : List WalEntry}
    (h : Settled crc s state.1.wal content tail es)
    (htail : tail = [] ∨ jobs = [] ∨ tail.length + (s.val - content.length) < HEADER_SIZE)
    (hshort : ShortRecords crc jobs)
    (hrun : Interface.acknowledge crc flush state jobs = some (es', state')) :
    ∃ content' tail', Settled crc s state'.1.wal content' tail' (es ++ es') := by
  induction jobs generalizing state content tail es es' with
  | nil =>
    cases hrun
    exact ⟨content, tail, by rwa [List.append_nil]⟩
  | cons job jobs ih =>
    unfold Interface.acknowledge at hrun
    split at hrun
    next n mid old hnext hjob =>
      obtain ⟨e, hentry, rfl, hfits, happend⟩ := runJob_append hjob hnext
      obtain ⟨⟨rest, last⟩, hrest, hrun⟩ := Option.bind_eq_some_iff.mp hrun
      rw [hentry] at hrun
      cases hrun
      have hlt : e.sequenceNumber < 2 ^ 64 := by
        obtain @⟨_, _, _, _, _, _, active⟩ := h
        rw [active.next] at hnext
        unfold checkedAdd at hnext
        split at hnext
        next hroom =>
          have hseq := Except.ok.inj hnext
          omega
        next => cases hnext
      have he := wellFormed_of_append happend hfits hlt
        (hshort job (List.mem_cons_self ..) _ _ hentry)
      have htail' : tail = [] ∨ tail.length + (s.val - content.length) < HEADER_SIZE :=
        htail.imp_right fun h => h.resolve_left (List.cons_ne_nil job jobs)
      obtain ⟨content', hsettled⟩ := h.append htail' he hnext happend
      obtain ⟨content'', tail'', hall⟩ := ih hsettled (Or.inl rfl)
        (fun job hmem => hshort job (List.mem_cons_of_mem _ hmem)) hrest
      rw [List.append_assoc] at hall
      exact ⟨content'', tail'', hall⟩
    next => cases hrun

/-- INTERNAL: closing does not touch the log.
SOURCE: memtable.rs:395-426 -/
theorem close_wal {state state' : WriteWorker × φ}
    (hrun : (WriteWorker.close crc flush).run state = .ok () state') :
    state'.1.wal = state.1.wal := by
  unfold WriteWorker.close at hrun
  obtain ⟨_, mid, hjob, hfinish⟩ := run_bind_eq_ok hrun
  unfold WriteWorker.runJob at hjob
  obtain ⟨_, mid', hflush, hjob⟩ := run_bind_eq_ok hjob
  cases hjob
  rw [← flushIfFull_wal hflush]
  obtain ⟨w, f⟩ := mid
  change WriteWorker.finish flush (w, f) = _ at hfinish
  unfold WriteWorker.finish at hfinish
  dsimp only at hfinish
  split at hfinish
  · cases hfinish
    rfl
  · cases hlast : (flush w.table).run f with
    | ok a f' =>
      rw [hlast] at hfinish
      cases hfinish
      rfl
    | error e f' =>
      rw [hlast] at hfinish
      cases e with
      | io kind =>
        cases hfinish
        rfl
      | panic => cases hfinish

/-- INTERNAL: the files of a log of which one was cut. -/
theorem cutFile_files {w : Wal} {front rear : List (ℕ × Bytes)} {base : ℕ} {content : Bytes}
    (h : ActiveAt s w front base content rear) {name : String} (hname : name ∈ w.dir.names)
    (cut : ℕ) : ∃ fs, SegmentFiles s (cutFile w.dir name cut) fs := by
  have hmem : name ∈ (front ++ (base, content) :: rear).map fun f => s.fileName f.1 := by
    have hperm := h.files.files.map Prod.fst
    rw [List.map_map] at hperm
    exact hperm.mem_iff.mp hname
  obtain ⟨f, hf, rfl⟩ := List.mem_map.mp hmem
  obtain ⟨before, behind, hsplit⟩ := List.append_of_mem hf
  have hsize := h.files.size_le f hf
  refine ⟨_, h.files.put hsplit _ ?_⟩
  rw [List.length_take, h.files.content hf]
  exact (min_le_right ..).trans hsize

/-- What is written after a recovery from a log of which one file was cut is found again by the
next start, on top of what was recovered, if the repaired log ends at the end of a record and no
later file is left over. Fewer bytes than a header behind the last record do no harm as long as
nothing is written, or when they and the space behind them are less than a header together.
SOURCE: memtable.rs:50-89 -/
theorem durable_after_recovery {ops : List LogOp} (hops : ∀ op ∈ ops, op.Fits crc s.val)
    {log : Log} (hrun : Log.run crc s.val ops = .ok log) {name : String}
    (hname : name ∈ log.wal.dir.names) {cut maxSize : ℕ} {w : WriteWorker}
    (hstart : MemTable.start crc (cutFile log.wal.dir name cut) s.val 0 maxSize = .ok w)
    {jobs : List WriteJob} {f : φ} {es : List WalEntry} {state closed : WriteWorker × φ}
    (hjobs : acknowledge crc flush (w, f) jobs = some (es, state))
    (hclose : (WriteWorker.close crc flush).run state = .ok () closed)
    (hstray : ∀ content tail, EndsWith crc s (cutFile log.wal.dir name cut) content tail →
      tail = [] ∨ jobs = [] ∨ tail.length + (s.val - content.length) < HEADER_SIZE)
    (hlater : LaterFilesDeleted crc s (cutFile log.wal.dir name cut))
    (hshort : ShortRecords crc jobs) {next : ℕ}
    (hnext : closed.1.wal.nextSequenceNumber = .ok next) (maxSize' : ℕ) :
    ∃ w', MemTable.start crc closed.1.wal.dir s.val 0 maxSize' = .ok w' ∧
      ∀ key, w'.table.lookup key = (lastWrite es key).or (w.table.lookup key) := by
  obtain ⟨img, himg⟩ := run_represents hops hrun
  obtain ⟨fs, hfiles⟩ := cutFile_files himg.wal hname cut
  obtain ⟨content, tail, es₀, hsettled, htable, htail⟩ :=
    start_settles hfiles himg.wal.faults hstart hlater
  have hroom := htail.elim Or.inl (hstray content tail)
  obtain ⟨content', tail', hafter⟩ := hsettled.acknowledge hroom hshort hjobs
  rw [close_wal hclose] at hnext ⊢
  obtain ⟨w', hagain, htable'⟩ := hafter.start hnext maxSize'
  refine ⟨w', hagain, ?_⟩
  intro key
  rw [htable, htable', lookup_tableOf, lookup_tableOf, lastWrite_append]

end

/-! ## Bytes left over -/

/-- A flusher that does nothing. -/
def ignoreTable (_ : Table) : EStateM Fault Unit Unit := pure ()

def twoPuts : List LogOp := [.put "a" "x", .put "b" "y"]

def onePut : List WriteJob := [.put "c" "z"]

/-- What a later start finds under a key, after one file of a log was cut and jobs were
acknowledged after a recovery. -/
def foundAfter (crc : Bytes → UInt32) (segmentSize : ℕ) (log : Log) (name : String) (cut : ℕ)
    (jobs : List WriteJob) (key : String) : Exec (Option MemTableValue × ℕ × List WalEntry) := do
  let w ← MemTable.start crc (cutFile log.wal.dir name cut) segmentSize 0 1000
  match acknowledge crc ignoreTable (w, ()) jobs with
  | none => .error .panic
  | some (es, state) =>
    match (WriteWorker.close crc ignoreTable).run state with
    | .error e _ => .error e
    | .ok _ (closed, _) => do
      let next ← closed.wal.nextSequenceNumber
      let w' ← MemTable.start crc closed.wal.dir segmentSize 0 1000
      return (w'.table.lookup key, next, es)

/-- INTERNAL: what a later start finds is what the parts of the run leave. -/
theorem foundAfter_inv {crc : Bytes → UInt32} {segmentSize cut next : ℕ} {log : Log} {name key : String}
    {jobs : List WriteJob} {value : Option MemTableValue} {es : List WalEntry}
    (h : foundAfter crc segmentSize log name cut jobs key = .ok (value, next, es)) :
    ∃ w state closed w',
      MemTable.start crc (cutFile log.wal.dir name cut) segmentSize 0 1000 = .ok w ∧
      acknowledge crc ignoreTable (w, ()) jobs = some (es, state) ∧
      (WriteWorker.close crc ignoreTable).run state = .ok () closed ∧
      closed.1.wal.nextSequenceNumber = .ok next ∧
      MemTable.start crc closed.1.wal.dir segmentSize 0 1000 = .ok w' ∧
      w'.table.lookup key = value := by
  unfold foundAfter at h
  obtain ⟨w, hstart, h⟩ := exec_bind_eq_ok.mp h
  cases hjobs : acknowledge crc ignoreTable (w, ()) jobs with
  | none =>
    rw [hjobs] at h
    cases h
  | some result =>
    rw [hjobs] at h
    dsimp only at h
    cases hclose : (WriteWorker.close crc ignoreTable).run result.2 with
    | error e left =>
      rw [hclose] at h
      cases h
    | ok a closed =>
      rw [hclose] at h
      obtain ⟨next, hnext, h⟩ := exec_bind_eq_ok.mp h
      obtain ⟨w', hagain, h⟩ := exec_bind_eq_ok.mp h
      cases h
      exact ⟨w, result.2, closed, w', hstart, hjobs, hclose, hnext, hagain, rfl⟩

/-- INTERNAL: a directory of one file. -/
theorem files_of_single {s : SegmentSize} {dir : Dir} {fs : List (ℕ × Bytes)}
    (h : SegmentFiles s dir fs) {bytes : Bytes} (hdir : dir.files = [(s.fileName 0, bytes)]) :
    fs = [(0, bytes)] := by
  have hfiles := h.files
  rw [hdir] at hfiles
  obtain ⟨f, rfl, hf⟩ := List.map_eq_singleton_iff.mp (List.singleton_perm.mp hfiles).symm
  obtain ⟨hname, hbytes⟩ := Prod.mk.inj hf
  have hzero : f.1 = 0 := by
    by_contra hne
    have hlt := s.fileName_lt (dvd_zero s.val) (h.dvd f (by simp)) (Nat.pos_of_ne_zero hne)
      (h.lt f (by simp))
    exact absurd hname.symm (ne_of_lt hlt)
  rw [← hzero, ← hbytes]

/-- INTERNAL: nothing is left over behind a whole record. -/
theorem tail_of_single {crc : Bytes → UInt32} {s : SegmentSize} {dir : Dir} {e : WalEntry}
    (he : WellFormed e) (hdir : dir.files = [(s.fileName 0, e.encode crc)]) {content tail : Bytes}
    (h : EndsWith crc s dir content tail) : tail = [] := by
  obtain @⟨fs, front, base, es, es', cur, files, listed, reads, last, -⟩ := h
  obtain rfl := files_of_single files hdir
  have hsub : (front ++ [(base, content)]).Sublist [(0, e.encode crc)] :=
    listed ▸ List.filter_sublist
  have hlen := hsub.length_le
  rw [List.length_append, List.length_singleton, List.length_singleton] at hlen
  obtain rfl := List.length_eq_zero_iff.mp (show front.length = 0 by omega)
  have hsame := hsub.eq_of_length rfl
  obtain ⟨-, rfl⟩ := Prod.mk.inj (List.cons.inj hsame).1
  generalize hcur : Cursor.start 0 = clean at reads
  cases reads
  subst hcur
  have hone : (walFraming crc).Reads ([e].flatMap (WalEntry.encode crc) ++ []) [e] [] :=
    reads_encode (by simpa using he) []
  rw [List.flatMap_singleton, List.append_nil] at hone
  exact (last.reads.unique (ends_of_stop last.stop) hone
    (ends_of_stop (scanRecord_short (by decide)))).2

/-- The second of two records is cut off, and a third put is acknowledged. -/
theorem durable_after_recovery_short : ∃ log w es state closed w',
    Log.run (fun _ => 0) smallSegments.val twoPuts = .ok log ∧
      MemTable.start (fun _ => 0) (cutFile log.wal.dir (smallSegments.fileName 0) 27)
        smallSegments.val 0 1000 = .ok w ∧
      acknowledge (fun _ => 0) ignoreTable (w, ()) onePut = some (es, state) ∧
      (WriteWorker.close (fun _ => 0) ignoreTable).run state = .ok () closed ∧
      MemTable.start (fun _ => 0) closed.1.wal.dir smallSegments.val 0 1000 = .ok w' ∧
      ∀ key, w'.table.lookup key = (lastWrite es key).or (w.table.lookup key) := by
  have hleft : (do
      let log ← Log.run (fun _ => 0) smallSegments.val twoPuts
      let dir := cutFile log.wal.dir (smallSegments.fileName 0) 27
      let segments ← MemTable.findAndOpenSegments dir smallSegments.val 0
      let recovered ← MemTable.recover (fun _ => 0) dir segments 0 ∅
      let found ← foundAfter (fun _ => 0) smallSegments.val log (smallSegments.fileName 0) 27
        onePut "c"
      return (log.wal.dir.names, dir.files, recovered.2.toOption, found.2.1)) =
      .ok ([smallSegments.fileName 0], [(smallSegments.fileName 0,
          WalEntry.encode (fun _ => 0) ⟨.put, "a", some "x", 0⟩)], some 19, 54) := by decide
  obtain ⟨log, hrun, hseen⟩ := exec_bind_eq_ok.mp hleft
  obtain ⟨segments, hopen, hseen⟩ := exec_bind_eq_ok.mp hseen
  obtain ⟨⟨_, report⟩, hrecover, hseen⟩ := exec_bind_eq_ok.mp hseen
  obtain ⟨⟨_, next, es⟩, hfound, hseen⟩ := exec_bind_eq_ok.mp hseen
  obtain ⟨hnames, hseen⟩ := Prod.mk.inj (Except.ok.inj hseen)
  obtain ⟨hfiles, hseen⟩ := Prod.mk.inj hseen
  obtain ⟨hreport, -⟩ := Prod.mk.inj hseen
  obtain ⟨w, state, closed, w', hstart, hjobs, hclose, hnext, hagain, -⟩ := foundAfter_inv hfound
  have hwell : WellFormed ⟨.put, "a", some "x", 0⟩ :=
    ⟨by decide, rfl, by decide, by decide⟩
  have hops : ∀ op ∈ twoPuts, op.Fits (fun _ => 0) smallSegments.val := by
    unfold twoPuts
    simp only [List.forall_mem_cons]
    exact ⟨put_fits (by decide) (by decide), put_fits (by decide) (by decide), by simp⟩
  have hshort : ShortRecords (fun _ => 0) onePut := by
    intro job hjob n e he
    obtain rfl := List.mem_singleton.mp hjob
    cases he
    rw [encode_length, body_length]
    dsimp only
    decide
  have hlater : LaterFilesDeleted (fun _ => 0) smallSegments
      (cutFile log.wal.dir (smallSegments.fileName 0) 27) := by
    intro segments table size fp offset base hopen' hrecover'
    cases hopen.symm.trans hopen'
    cases hrecover.symm.trans hrecover'
    cases hreport
  obtain ⟨w'', hagain', hlookup⟩ := durable_after_recovery hops hrun (by rw [hnames]; simp) hstart
    hjobs hclose (fun content tail h => Or.inl (tail_of_single hwell hfiles h)) hlater hshort
    hnext 1000
  cases hagain.symm.trans hagain'
  exact ⟨log, w, _, state, closed, w', hrun, hstart, hjobs, hclose, hagain, hlookup⟩

/-- Cut three bytes later, the third record is lost. -/
theorem acknowledged_write_lost :
    (∀ op ∈ twoPuts, op.Fits (fun _ => 0) smallSegments.val) ∧ ∃ log w es state closed w',
    Log.run (fun _ => 0) smallSegments.val twoPuts = .ok log ∧
      smallSegments.fileName 0 ∈ log.wal.dir.names ∧
      MemTable.start (fun _ => 0) (cutFile log.wal.dir (smallSegments.fileName 0) 30)
        smallSegments.val 0 1000 = .ok w ∧
      acknowledge (fun _ => 0) ignoreTable (w, ()) onePut = some (es, state) ∧
      (WriteWorker.close (fun _ => 0) ignoreTable).run state = .ok () closed ∧
      MemTable.start (fun _ => 0) closed.1.wal.dir smallSegments.val 0 1000 = .ok w' ∧
      ¬∀ key, w'.table.lookup key = (lastWrite es key).or (w.table.lookup key) := by
  have hops : ∀ op ∈ twoPuts, op.Fits (fun _ => 0) smallSegments.val := by
    unfold twoPuts
    simp only [List.forall_mem_cons]
    exact ⟨put_fits (by decide) (by decide), put_fits (by decide) (by decide), by simp⟩
  have hleft : ((Log.run (fun _ => 0) smallSegments.val twoPuts).map fun log =>
      (log.wal.dir.names,
        foundAfter (fun _ => 0) smallSegments.val log (smallSegments.fileName 0) 30 onePut "c")) =
      .ok ([smallSegments.fileName 0], .ok (none, 57, [⟨.put, "c", some "z", 30⟩])) := by decide
  obtain ⟨log, hrun, hseen⟩ := run_of_map _ hleft
  obtain ⟨hnames, hfound⟩ := Prod.mk.inj hseen
  obtain ⟨w, state, closed, w', hstart, hjobs, hclose, -, hagain, hlost⟩ := foundAfter_inv hfound
  refine ⟨hops, log, w, _, state, closed, w', hrun, by rw [hnames]; simp, hstart, hjobs, hclose,
    hagain, ?_⟩
  intro h
  have hkey := h "c"
  rw [hlost] at hkey
  cases hkey

end Rkvs.Analysis
