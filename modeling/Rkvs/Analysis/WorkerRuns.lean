import Rkvs.Analysis.ConcurrentReads
import Rkvs.Analysis.Durability
import Rkvs.Analysis.Flush
import Rkvs.Analysis.WriteOutcome
import Rkvs.Interface.WorkerRuns

/-!
# Flushes seen by clients

Runs with different limits of the memtable insert the same entries with the same sequence numbers,
whichever of them have been flushed. A get returns the last one, a write the one in the memtable.
-/

set_option autoImplicit false

namespace Rkvs.Analysis

open Rkvs.Library Rkvs.Model Rkvs.Interface

/-- The store as the readers see it between two commands. -/
def engineOf (st : Store) (inserts : List SsTableEntry) : Engine :=
  ⟨st.1.table, st.2.sstable, false, inserts, fun _ => none, []⟩

/-- What holds between two commands. -/
structure WorkerSound (s : SegmentSize) (st : Store) (inserts : List SsTableEntry) : Prop where
  engine : EngineSound (engineOf st inserts)
  log : ∃ front base content rear, ActiveAt s st.1.wal front base content rear
  newer : ∀ n, st.1.wal.nextSequenceNumber = .ok n → ∀ e ∈ inserts, e.sequenceNumber < n
  fits : ∀ key value, st.1.table.lookup key = some value →
    EntryFits (SsTableEntry.fromValue key value)
  counted : st.1.table = ∅ → st.1.currentSize = 0
  fresh : ∀ n, st.2.sstable.levelZero.highestSegmentNumber < n → ∀ path,
    Sst.Segment.determineSegmentFilename 0 n = .ok path → path ∉ st.2.dir.names

section
variable {crc : Bytes → UInt32} {s : SegmentSize} {st st' : Store} {inserts : List SsTableEntry}

theorem workerSound_of_consistent (h : WorkerConsistent crc s st inserts) (maxSize : ℕ) :
    WorkerSound s (withLimit st maxSize) inserts where
  engine := engineSound_of_consistent h.engine
  log := by
    obtain ⟨ops, log, hops, hrun, hwal⟩ := h.log
    obtain ⟨img, himg⟩ := run_represents hops hrun
    have hactive := himg.wal
    rw [← hwal] at hactive
    exact ⟨_, _, _, _, hactive⟩
  newer := h.newer
  fits := h.fits
  counted := h.counted
  fresh := h.fresh

/-- A get returns the last insert.
SOURCE: storage_engine.rs:192-200 -/
theorem WorkerSound.visible (h : WorkerSound s st inserts) (key : String) :
    Interface.visible st key = .ok (Engine.valueAt inserts inserts.length key) := by
  unfold Interface.visible Worker.get Worker.getFromMemtable MemTable.get Engine.valueAt
  rw [List.take_length]
  cases hlookup : st.1.table.lookup key with
  | some value =>
    have hlast := h.engine.table key value hlookup
    rw [show lastTo SsTableEntry.key inserts key = some (SsTableEntry.fromValue key value) from hlast]
    rfl
  | none =>
    have hanswer := h.engine.levels key (Or.inr hlookup)
    unfold Worker.getFromSstable
    rw [show st.2.sstable.get key = .ok (lastTo SsTableEntry.key inserts key) from hanswer]
    rfl

/-! ## A flush -/

/-- A flush changes nothing that a get can see.
SOURCE: memtable.rs:397-407; memtable_flusher.rs:27-37 -/
theorem flushIfFull_sound (h : WorkerSound s st inserts) (hlimit : 1 ≤ st.1.maxSize)
    (hrun : (WriteWorker.flushIfFull Flusher.flush).run st = .ok () st') :
    WorkerSound s st' inserts ∧ st'.1.wal = st.1.wal ∧ st'.1.maxSize = st.1.maxSize ∧
      st'.1.table = if st.1.currentSize < st.1.maxSize then st.1.table else ∅ := by
  obtain ⟨hroom, rfl⟩ | ⟨hfull, hflush, hworker⟩ := flushIfFull_eq_ok hrun
  · exact ⟨h, rfl, rfl, (if_pos hroom).symm⟩
  · have hne : st.1.table ≠ ∅ := by
      intro hempty
      have hzero := h.counted hempty
      omega
    obtain ⟨⟨path, seg, hwritten, hwhole, hholds, hadd⟩, hfresh⟩ :=
      flush_adds hflush hne h.fits h.fresh
    have hadded := engineSound_step h.engine
      (Engine.Step.addSegment rfl hwritten hwhole hholds hadd)
    have hcleared := engineSound_step hadded (Engine.Step.clear rfl)
    have hwal : st'.1.wal = st.1.wal := by rw [hworker]
    have htable : st'.1.table = ∅ := by rw [hworker]
    refine ⟨⟨?_, ?_, ?_, ?_, ?_, hfresh⟩, hwal, ?_, ?_⟩
    · unfold engineOf
      rw [htable]
      exact hcleared
    · rw [hwal]
      exact h.log
    · rw [hwal]
      exact h.newer
    · intro key value hlookup
      rw [htable, Finmap.lookup_empty] at hlookup
      cases hlookup
    · intro _
      rw [hworker]
    · rw [hworker]
    · rw [htable, if_neg (Nat.not_lt.mpr hfull)]

/-! ## A write -/

/-- INTERNAL: the next sequence number is higher than that of the last record.
SOURCE: wal.rs:40-62 -/
theorem next_after_append {w w' : Wal} {front rear : List (ℕ × Bytes)} {base : ℕ}
    {content : Bytes} (h : ActiveAt s w front base content rear) {e : WalEntry}
    (he : WellFormed e) (hnext : w.nextSequenceNumber = .ok e.sequenceNumber)
    (hrun : (Wal.append crc e).run w = .ok () w') :
    (∃ front' base' content' rear', ActiveAt s w' front' base' content' rear') ∧
      ∀ n, w'.nextSequenceNumber = .ok n → e.sequenceNumber < n := by
  have hseq : e.sequenceNumber = base + content.length := by
    rw [h.next] at hnext
    exact (checkedAdd_eq_ok hnext).1.symm
  have hspan : (e.encode crc).length = recordSpan e := encode_length crc e
  have hpos : HEADER_SIZE < recordSpan e := by
    unfold recordSpan HEADER_SIZE
    rw [body_length]
    omega
  obtain ⟨hfit, hactive⟩ | ⟨hfull, hpast, hactive⟩ := h.append_inv crc he hseq hrun
  · refine ⟨⟨_, _, _, _, hactive⟩, fun n hn => ?_⟩
    rw [hactive.next, List.length_append] at hn
    have hsum := (checkedAdd_eq_ok hn).1
    omega
  · refine ⟨⟨_, _, _, _, hactive⟩, fun n hn => ?_⟩
    have hsize := h.size_le
    have hdvd := h.files.dvd (base, content) (by simp)
    have hbase := Nat.le_of_lt_add_of_dvd
      (show base + s.val < s.baseOf (e.sequenceNumber + recordSpan e) + s.val by omega)
      (Nat.dvd_add hdvd (Nat.dvd_refl _)) (s.dvd_baseOf _)
    have hcut : (crossingAt e (s.val - content.length)).cut ≤ HEADER_SIZE := by
      unfold Crossing.cut
      split <;> simp
    rw [hactive.next] at hn
    have hsum := (checkedAdd_eq_ok hn).1
    unfold Crossing.after at hsum
    rw [crossingAt_entry, List.length_drop, hspan] at hsum
    omega

/-- INTERNAL: what a write must be like. -/
def IsWrite (crc : Bytes → UInt32) (op : OpType) (key : String) (value : Option String)
    (x : EStateM Fault WriteWorker (Option MemTableValue)) : Prop :=
  (⟨op, key, value, 0⟩ : WalEntry).valueFits = true ∧ x = (do
    let sequenceNumber ← liftExec (← get).wal.nextSequenceNumber
    let entry : WalEntry := ⟨op, key, value, sequenceNumber⟩
    WriteWorker.onWal (Wal.append crc entry)
    WriteWorker.insertEntry entry)

/-- A write adds an insert with the next sequence number.
SOURCE: memtable.rs:357-393 -/
theorem write_sound {op : OpType} {key : String} {value : Option String}
    {x : EStateM Fault WriteWorker (Option MemTableValue)} (h : WorkerSound s st inserts)
    (hx : IsWrite crc op key value x) (hshort : recordLength key value < 2 ^ 32)
    {w' : WriteWorker} {old : Option MemTableValue} (hrun : x.run st.1 = .ok old w') :
    ∃ n, st.1.wal.nextSequenceNumber = .ok n ∧
      (Wal.append crc ⟨op, key, value, n⟩).run st.1.wal = .ok () w'.wal ∧
      WorkerSound s (w', st.2) (inserts ++ [⟨key, value, n⟩]) ∧
      old = st.1.table.lookup key ∧ w'.maxSize = st.1.maxSize := by
  obtain ⟨hfits, rfl⟩ := hx
  obtain ⟨n, hwritten⟩ := write_eq_ok hrun
  obtain ⟨hnext, happend, hold, htable, -, hmax⟩ := hwritten
  dsimp only at hnext hold htable
  refine ⟨n, hnext, happend, ?_, hold, hmax⟩
  obtain ⟨front, base, content, rear, hactive⟩ := h.log
  have hlt : n < 2 ^ 64 := by
    have hsum := hnext
    rw [hactive.next] at hsum
    have hadd := checkedAdd_eq_ok hsum
    omega
  have he := wellFormed_of_append happend hfits hlt
    ((encode_recordLength op key value n).trans_lt hshort)
  obtain ⟨hlog, hgrows⟩ := next_after_append hactive he hnext happend
  have hinsert := @insert_sound _ ⟨key, value, n⟩ h.engine rfl (h.newer n hnext)
  refine ⟨?_, hlog, ?_, ?_, ?_, h.fresh⟩
  · unfold engineOf
    rw [htable]
    exact hinsert
  · intro n' hn' e hmem
    have hn := hgrows n' hn'
    obtain hmem | hmem := List.mem_append.mp hmem
    · exact (h.newer n hnext e hmem).trans hn
    · rw [List.mem_singleton.mp hmem]
      exact hn
  · intro other found hlookup
    dsimp only at hlookup
    rw [htable] at hlookup
    by_cases hkey : other = key
    · subst hkey
      rw [Finmap.lookup_insert] at hlookup
      cases hlookup
      refine ⟨lt_of_le_of_lt ?_ hshort, hlt⟩
      unfold SsTableEntry.len SsTableEntry.fromValue recordLength
      cases value with
      | none =>
        simp only [Option.elim_none]
        omega
      | some v =>
        simp only [Option.elim_some]
        omega
    · rw [Finmap.lookup_insert_of_ne _ hkey] at hlookup
      exact h.fits other found hlookup
  · intro hempty
    dsimp only at hempty
    have hlookup : w'.table.lookup key = some ⟨value, n⟩ := by
      rw [htable, Finmap.lookup_insert]
    rw [hempty, Finmap.lookup_empty] at hlookup
    cases hlookup

/-! ## A command -/

/-- INTERNAL: a write that the log accepts fails for no file operation. -/
theorem write_no_error {op : OpType} {key : String} {value : Option String}
    {x : EStateM Fault WriteWorker (Option MemTableValue)} (h : WorkerSound s st inserts)
    (hx : IsWrite crc op key value x) {kind : ErrorKind} {w' : WriteWorker} :
    x.run st.1 ≠ .error (.io kind) w' := by
  intro hrun
  obtain ⟨hfits, rfl⟩ := hx
  obtain ⟨front, base, content, rear, hactive⟩ := h.log
  have hsound : Sound s st.1.wal := by
    refine ⟨hactive.maxSize, ?_, ?_⟩
    · rw [hactive.active]
      exact openedSegment_maxSize ..
    · rw [hactive.active, openedSegment_fileSize]
      exact hactive.size_le
  exact ((write_ifRoom op key value hfits st.1 hsound).error hrun).2 hactive.faults

/-- A write is answered with what the table had, unless the table was flushed first.
SOURCE: storage_engine.rs:203-212; memtable.rs:395-419 -/
theorem writeStep_sound {op : OpType} {key : String} {value : Option String} {job : WriteJob}
    {x : EStateM Fault WriteWorker (Option MemTableValue)} (h : WorkerSound s st inserts)
    (hlimit : 1 ≤ st.1.maxSize) (hx : IsWrite crc op key value x)
    (hshort : recordLength key value < 2 ^ 32)
    (hjob : WriteWorker.runJob crc Flusher.flush job = (do
      WriteWorker.flushIfFull Flusher.flush
      some <$> WriteWorker.answer x))
    {res : Except ErrorKind (Option String)}
    (hrun : (do
      match ← WriteWorker.runJob crc Flusher.flush job with
      | none => return .error .notConnected
      | some res => return res.map fun opt => opt.bind MemTableValue.value :
        EStateM Fault Store (Except ErrorKind (Option String))).run st = .ok res st') :
    ∃ n, st.1.wal.nextSequenceNumber = .ok n ∧
      (Wal.append crc ⟨op, key, value, n⟩).run st.1.wal = .ok () st'.1.wal ∧
      WorkerSound s st' (inserts ++ [⟨key, value, n⟩]) ∧ st'.1.maxSize = st.1.maxSize ∧
      res = .ok ((if st.1.currentSize < st.1.maxSize then st.1.table.lookup key else none).bind
        MemTableValue.value) := by
  rw [hjob] at hrun
  obtain ⟨answered, st₂, hjobRun, hres⟩ := run_bind_eq_ok hrun
  obtain ⟨⟨⟩, st₁, hflush, hmap⟩ := run_bind_eq_ok hjobRun
  obtain ⟨a, hanswer, rfl⟩ := run_map_eq_ok hmap
  cases hres
  obtain ⟨hsound, hwal, hmax, htable⟩ := flushIfFull_sound h hlimit hflush
  obtain ⟨w₁, f₁⟩ := st₁
  change WriteWorker.answer x (w₁, f₁) = _ at hanswer
  unfold WriteWorker.answer at hanswer
  dsimp only at hanswer
  cases hwrite : x.run w₁ with
  | error e w' =>
    rw [hwrite] at hanswer
    cases e with
    | io kind => exact absurd hwrite (write_no_error hsound hx)
    | panic => cases hanswer
  | ok old w' =>
    rw [hwrite] at hanswer
    cases hanswer
    obtain ⟨n, hnext, happend, hinserted, hold, hkept⟩ := write_sound hsound hx hshort hwrite
    dsimp only at hwal hmax htable hnext happend hold hkept
    rw [hwal] at hnext happend
    refine ⟨n, hnext, happend, hinserted, hkept.trans hmax, ?_⟩
    rw [hold, htable]
    by_cases hroom : st.1.currentSize < st.1.maxSize
    · rw [if_pos hroom, if_pos hroom]
      rfl
    · rw [if_neg hroom, if_neg hroom, Finmap.lookup_empty]
      rfl

/-- INTERNAL: a get changes nothing. -/
theorem getStep_eq {key : String} {res : Except ErrorKind (Option String)}
    (h : WorkerSound s st inserts) (hstep : CommandStep crc st (.get key, res) st') :
    st' = st ∧ res = .ok (Engine.valueAt inserts inserts.length key) := by
  have hvisible : Worker.get st.1.table st.2.sstable key = _ := h.visible key
  unfold CommandStep at hstep
  rw [Worker.run_get_ok hvisible] at hstep
  cases hstep
  exact ⟨rfl, rfl⟩

/-- What a put or a delete writes. -/
def commandValue : Command → OpType × Option String
  | .delete _ => (.delete, none)
  | .get _ => (.delete, none)
  | .put _ value => (.put, some value)

/-- INTERNAL: puts and deletes are one step.
SOURCE: storage_engine.rs:203-212 -/
theorem commandStep_sound {command : Command} {res : Except ErrorKind (Option String)}
    (h : WorkerSound s st inserts) (hlimit : 1 ≤ st.1.maxSize) (hshort : Command.Short command)
    (hwrite : Command.job command ≠ none) (hstep : CommandStep crc st (command, res) st') :
    ∃ n, st.1.wal.nextSequenceNumber = .ok n ∧
      (Wal.append crc ⟨(commandValue command).1, Command.key command,
        (commandValue command).2, n⟩).run st.1.wal = .ok () st'.1.wal ∧
      WorkerSound s st' (inserts ++ [⟨Command.key command, (commandValue command).2, n⟩]) ∧
      st'.1.maxSize = st.1.maxSize ∧
      res = .ok ((if st.1.currentSize < st.1.maxSize then
        st.1.table.lookup (Command.key command) else none).bind MemTableValue.value) := by
  cases command with
  | get key => exact absurd rfl hwrite
  | delete key =>
    have hx : IsWrite crc .delete key none (WriteWorker.delete crc key) := ⟨rfl, rfl⟩
    exact writeStep_sound h hlimit hx hshort rfl hstep
  | put key value =>
    have hx : IsWrite crc .put key (some value) (WriteWorker.put crc key value) := ⟨rfl, rfl⟩
    exact writeStep_sound h hlimit hx hshort rfl hstep

/-- An answer is what a get would have returned if and only if the memtable has the key, or no
value is there.
SOURCE: storage_engine.rs:192-212; memtable.rs:357-407 -/
theorem answersLikeGet_iff {p : Exchange} (h : WorkerSound s st inserts)
    (hlimit : 1 ≤ st.1.maxSize) (hshort : Command.Short p.1) (hstep : CommandStep crc st p st') :
    AnswersLikeGet (st, p) ↔ FoundInMemtable (st, p) := by
  obtain ⟨command, res⟩ := p
  have hvisible := h.visible (Command.key command)
  unfold AnswersLikeGet FoundInMemtable
  dsimp only at hshort ⊢
  rw [hvisible]
  by_cases hwrite : Command.job command = none
  · cases command with
    | delete key => cases hwrite
    | put key value => cases hwrite
    | get key =>
      obtain ⟨-, rfl⟩ := getStep_eq h hstep
      exact ⟨fun _ hjob => absurd hwrite hjob, fun _ value hvalue =>
        congrArg Except.ok (Except.ok.inj hvalue)⟩
  · obtain ⟨n, -, -, -, -, rfl⟩ := commandStep_sound h hlimit hshort hwrite hstep
    generalize hlast : Engine.valueAt inserts inserts.length (Command.key command) = last
      at hvisible
    have hsame : (∀ value, (.ok last : Exec (Option String)) = .ok value →
        (Except.ok ((if st.1.currentSize < st.1.maxSize then
          st.1.table.lookup (Command.key command) else none).bind MemTableValue.value) :
            Except ErrorKind (Option String)) = .ok value) ↔
        (if st.1.currentSize < st.1.maxSize then
          st.1.table.lookup (Command.key command) else none).bind MemTableValue.value = last :=
      ⟨fun hall => Except.ok.inj (hall last rfl),
        fun heq value hvalue => congrArg Except.ok (heq.trans (Except.ok.inj hvalue))⟩
    rw [hsame]
    have hlost : (none = last) ↔ (Except.ok last : Exec (Option String)) = .ok none :=
      ⟨fun heq => heq ▸ rfl, fun heq => (Except.ok.inj heq).symm⟩
    by_cases hroom : st.1.currentSize < st.1.maxSize
    · rw [if_pos hroom]
      cases hlookup : st.1.table.lookup (Command.key command) with
      | some value =>
        -- the memtable has what a get returns
        unfold Interface.visible Worker.get Worker.getFromMemtable MemTable.get at hvisible
        rw [hlookup] at hvisible
        have hvalue : value.value = last := Except.ok.inj hvisible
        exact ⟨fun _ _ => Or.inl ⟨hroom, Option.some_ne_none value⟩, fun _ => hvalue⟩
      | none =>
        rw [Option.bind_none, hlost]
        exact ⟨fun heq _ => Or.inr heq, fun hall =>
          (hall hwrite).resolve_left fun hfound => hfound.2 rfl⟩
    · rw [if_neg hroom, Option.bind_none, hlost]
      exact ⟨fun heq _ => Or.inr heq, fun hall =>
        (hall hwrite).resolve_left fun hfound => hroom hfound.1⟩

/-! ## Two runs -/

/-- What runs of the same commands agree on. -/
def Agree (s : SegmentSize) (st₁ st₂ : Store) : Prop :=
  ∃ inserts, WorkerSound s st₁ inserts ∧ WorkerSound s st₂ inserts ∧ st₁.1.wal = st₂.1.wal ∧
    1 ≤ st₁.1.maxSize ∧ 1 ≤ st₂.1.maxSize

/-- The same command keeps the agreement. -/
theorem agree_step {st₁ st₂ st₁' st₂' : Store} {p q : Exchange} (h : Agree s st₁ st₂)
    (hshort : Command.Short p.1) (hcommand : p.1 = q.1) (h₁ : CommandStep crc st₁ p st₁')
    (h₂ : CommandStep crc st₂ q st₂') : Agree s st₁' st₂' := by
  obtain ⟨inserts, hsound₁, hsound₂, hwal, hlimit₁, hlimit₂⟩ := h
  obtain ⟨command, res₁⟩ := p
  obtain ⟨command', res₂⟩ := q
  obtain rfl : command = command' := hcommand
  by_cases hwrite : Command.job command = none
  · cases command with
    | delete key => cases hwrite
    | put key value => cases hwrite
    | get key =>
      obtain ⟨rfl, -⟩ := getStep_eq hsound₁ h₁
      obtain ⟨rfl, -⟩ := getStep_eq hsound₂ h₂
      exact ⟨inserts, hsound₁, hsound₂, hwal, hlimit₁, hlimit₂⟩
  · obtain ⟨n₁, hnext₁, happend₁, hnew₁, hmax₁, -⟩ :=
      commandStep_sound hsound₁ hlimit₁ hshort hwrite h₁
    obtain ⟨n₂, hnext₂, happend₂, hnew₂, hmax₂, -⟩ :=
      commandStep_sound hsound₂ hlimit₂ hshort hwrite h₂
    rw [hwal, hnext₂] at hnext₁
    cases hnext₁
    rw [hwal, happend₂] at happend₁
    have hlog := (EStateM.Result.ok.inj happend₁).2
    exact ⟨_, hnew₁, hnew₂, hlog.symm, hmax₁ ▸ hlimit₁, hmax₂ ▸ hlimit₂⟩

/-- INTERNAL: the answers to one command agree and are those of a get if and only if both runs have
found the key in the memtable. -/
theorem exchanges_iff {p q : Store × Exchange} (h : Agree s p.1 q.1)
    (hshort : Command.Short p.2.1) (hcommand : p.2.1 = q.2.1)
    (h₁ : ∃ st', CommandStep crc p.1 p.2 st') (h₂ : ∃ st', CommandStep crc q.1 q.2 st') :
    (p.2.2 = q.2.2 ∧ AnswersLikeGet p ∧ AnswersLikeGet q) ↔
      FoundInMemtable p ∧ FoundInMemtable q := by
  obtain ⟨inserts, hsound₁, hsound₂, -, hlimit₁, hlimit₂⟩ := h
  obtain ⟨st₁', hstep₁⟩ := h₁
  obtain ⟨st₂', hstep₂⟩ := h₂
  have hfound₁ := answersLikeGet_iff hsound₁ hlimit₁ hshort hstep₁
  have hfound₂ := answersLikeGet_iff hsound₂ hlimit₂ (hcommand ▸ hshort) hstep₂
  rw [← hfound₁, ← hfound₂]
  refine ⟨fun hall => hall.2, fun hall => ⟨?_, hall⟩⟩
  have hanswer₁ := hall.1 _ (hsound₁.visible (Command.key p.2.1))
  have hanswer₂ := hall.2 _ (hsound₂.visible (Command.key q.2.1))
  rw [hanswer₁, hanswer₂, hcommand]

/-- Two runs of the same commands with different limits of the memtable get the same answers, and
puts and deletes answer with what a get would have returned just before, if and only if in both
runs every put and delete finds its key in a memtable that is not flushed first, or no get would
have returned a value.
SOURCE: storage_engine.rs:192-212; memtable.rs:357-427; sstable.rs:61-86 -/
theorem flushes_unobserved_iff (hstart : WorkerConsistent crc s st inserts) {maxSize₁ maxSize₂ : ℕ}
    (hone₁ : 1 ≤ maxSize₁) (hone₂ : 1 ≤ maxSize₂) {steps₁ steps₂ : List (Store × Exchange)}
    {end₁ end₂ : Store} (h₁ : Run (CommandStep crc) (withLimit st maxSize₁) steps₁ end₁)
    (h₂ : Run (CommandStep crc) (withLimit st maxSize₂) steps₂ end₂)
    (hcommands : steps₁.map (fun p => p.2.1) = steps₂.map fun p => p.2.1)
    (hshort : ∀ p ∈ steps₁, Command.Short p.2.1) :
    (steps₁.map (fun p => p.2.2) = steps₂.map (fun p => p.2.2) ∧
        (∀ p ∈ steps₁, AnswersLikeGet p) ∧ ∀ p ∈ steps₂, AnswersLikeGet p) ↔
      (∀ p ∈ steps₁, FoundInMemtable p) ∧ ∀ p ∈ steps₂, FoundInMemtable p := by
  have hagree : Agree s (withLimit st maxSize₁) (withLimit st maxSize₂) :=
    ⟨inserts, workerSound_of_consistent hstart _, workerSound_of_consistent hstart _, rfl, hone₁,
      hone₂⟩
  have hall := (Run.lockstep hagree (fun _ _ _ _ _ _ hR hguard hlabel hstep hstep' =>
    agree_step hR hguard hlabel hstep hstep') h₁ h₂ hcommands hshort).1
  exact forall₂_iff hall fun p q ⟨hR, hguard, hlabel, hstep, hstep'⟩ =>
    exchanges_iff hR hguard hlabel hstep hstep'

end

/-! ## Overwriting a flushed value -/

instance (p : Store × Exchange) : Decidable (FoundInMemtable p) :=
  inferInstanceAs (Decidable (_ → _ ∧ _ ∨ _))

/-- The steps of a run of the commands. -/
def runCommands (crc : Bytes → UInt32) :
    Store → List Command → Option (List (Store × Exchange) × Store)
  | st, [] => some ([], st)
  | st, command :: commands =>
    match (Worker.run crc command).run st with
    | .error _ _ => none
    | .ok res st' => do
      let (steps, last) ← runCommands crc st' commands
      return ((st, command, res) :: steps, last)

/-- INTERNAL: a run goes on with the commands. -/
theorem runCommands_run {crc : Bytes → UInt32} {commands : List Command} {start st last : Store}
    {before steps : List (Store × Exchange)} (h : Run (CommandStep crc) start before st)
    (hrun : runCommands crc st commands = some (steps, last)) :
    Run (CommandStep crc) start (before ++ steps) last ∧
      steps.map (fun p => p.2.1) = commands := by
  induction commands generalizing st before steps with
  | nil =>
    cases hrun
    rw [List.append_nil]
    exact ⟨h, rfl⟩
  | cons command commands ih =>
    unfold runCommands at hrun
    cases hstep : (Worker.run crc command).run st with
    | error e st' =>
      rw [hstep] at hrun
      cases hrun
    | ok res st' =>
      rw [hstep] at hrun
      obtain ⟨⟨rest, last'⟩, hrest, hsome⟩ := Option.bind_eq_some_iff.mp hrun
      cases hsome
      have hnext := @Run.snoc _ _ _ _ _ _ (command, res) _ h hstep
      obtain ⟨hall, hcommands⟩ := ih hnext hrest
      rw [List.append_assoc] at hall
      exact ⟨hall, congrArg (List.cons command) hcommands⟩

/-- A store in which nothing was ever written. -/
def freshStore (log : Log) : Store := (⟨∅, log.wal, 0, 1⟩, ⟨noLevels, Dir.empty, 1⟩)

theorem freshStore_consistent {log : Log}
    (hlog : Log.run (fun _ => 0) smallSegments.val [] = .ok log) :
    WorkerConsistent (fun _ => 0) smallSegments (freshStore log) [] where
  engine := unwritten_consistent
  log := ⟨[], log, fun op hop => absurd hop List.not_mem_nil, hlog, rfl⟩
  newer := fun _ _ e he => absurd he List.not_mem_nil
  fits := by
    intro key value hlookup
    have hempty : (freshStore log).1.table.lookup key = none := Finmap.lookup_empty key
    rw [hempty] at hlookup
    cases hlookup
  counted := fun _ => rfl
  fresh := fun _ _ _ _ => List.not_mem_nil

/-- The answers of two runs, and whether every write has found its key in the memtable. -/
structure Comparison where
  answers₁ : List (Except ErrorKind (Option String))
  answers₂ : List (Except ErrorKind (Option String))
  found : Bool
  deriving DecidableEq

/-- Two runs with the limits 1 and 100. -/
def compareLimits (log : Log) (commands : List Command) : Option Comparison := do
  let (steps₁, _) ← runCommands (fun _ => 0) (withLimit (freshStore log) 1) commands
  let (steps₂, _) ← runCommands (fun _ => 0) (withLimit (freshStore log) 100) commands
  return ⟨steps₁.map (fun p => p.2.2), steps₂.map (fun p => p.2.2),
    decide ((∀ p ∈ steps₁, FoundInMemtable p) ∧ ∀ p ∈ steps₂, FoundInMemtable p)⟩

/-- INTERNAL: the two runs. -/
theorem compareLimits_runs {log : Log} {commands : List Command} {c : Comparison}
    (h : compareLimits log commands = some c) :
    ∃ steps₁ end₁ steps₂ end₂,
      Run (CommandStep fun _ => 0) (withLimit (freshStore log) 1) steps₁ end₁ ∧
      Run (CommandStep fun _ => 0) (withLimit (freshStore log) 100) steps₂ end₂ ∧
      steps₁.map (fun p => p.2.1) = commands ∧ steps₂.map (fun p => p.2.1) = commands ∧
      steps₁.map (fun p => p.2.2) = c.answers₁ ∧ steps₂.map (fun p => p.2.2) = c.answers₂ ∧
      (((∀ p ∈ steps₁, FoundInMemtable p) ∧ ∀ p ∈ steps₂, FoundInMemtable p) ↔ c.found = true) := by
  unfold compareLimits at h
  obtain ⟨⟨steps₁, end₁⟩, hrun₁, h₁⟩ := Option.bind_eq_some_iff.mp h
  obtain ⟨⟨steps₂, end₂⟩, hrun₂, h₂⟩ := Option.bind_eq_some_iff.mp h₁
  cases h₂
  obtain ⟨hall₁, hcommands₁⟩ := runCommands_run Run.nil hrun₁
  obtain ⟨hall₂, hcommands₂⟩ := runCommands_run Run.nil hrun₂
  exact ⟨steps₁, end₁, steps₂, end₂, hall₁, hall₂, hcommands₁, hcommands₂, rfl, rfl,
    decide_eq_true_iff.symm⟩

/-- A key is read, written, flushed in one of the runs, and read again. -/
theorem flushes_unobserved_read : ∃ log steps₁ end₁ steps₂ end₂,
    Run (CommandStep fun _ => 0) (withLimit (freshStore log) 1) steps₁ end₁ ∧
    Run (CommandStep fun _ => 0) (withLimit (freshStore log) 100) steps₂ end₂ ∧
    steps₁.map (fun p => p.2.1) = [.get "a", .put "a" "v", .delete "b", .get "a"] ∧
    steps₁.map (fun p => p.2.2) = steps₂.map (fun p => p.2.2) ∧
    (∀ p ∈ steps₁, AnswersLikeGet p) ∧ ∀ p ∈ steps₂, AnswersLikeGet p := by
  have hboth : (Log.run (fun _ => 0) smallSegments.val []).map (fun log => compareLimits log
      [.get "a", .put "a" "v", .delete "b", .get "a"]) =
      .ok (some ⟨[.ok none, .ok none, .ok none, .ok (some "v")],
        [.ok none, .ok none, .ok none, .ok (some "v")], true⟩) := by
    decide +kernel
  obtain ⟨log, hlog, hseen⟩ := run_of_map _ hboth
  obtain ⟨steps₁, end₁, steps₂, end₂, h₁, h₂, hcommands₁, hcommands₂, -, -, hfound⟩ :=
    compareLimits_runs hseen
  have hshort : ∀ p ∈ steps₁, Command.Short p.2.1 := by
    intro p hp
    have hmem : p.2.1 ∈ steps₁.map fun p => p.2.1 := List.mem_map_of_mem hp
    rw [hcommands₁] at hmem
    simp only [List.mem_cons, List.not_mem_nil, or_false] at hmem
    obtain hc | hc | hc | hc := hmem <;> rw [hc]
    · exact trivial
    · show recordLength "a" (some "v") < 2 ^ 32
      decide
    · show recordLength "b" none < 2 ^ 32
      decide
    · exact trivial
  have hsame := hcommands₁.trans hcommands₂.symm
  refine ⟨log, steps₁, end₁, steps₂, end₂, h₁, h₂, hcommands₁, ?_⟩
  exact (flushes_unobserved_iff (freshStore_consistent hlog) (by norm_num) (by norm_num) h₁ h₂
    hsame hshort).mpr (hfound.mpr rfl)

/-- A put that overwrites a value returns it, unless the value was flushed. -/
theorem overwrite_shows_flush : ∃ log steps₁ end₁ steps₂ end₂,
    WorkerConsistent (fun _ => 0) smallSegments (freshStore log) [] ∧
    Run (CommandStep fun _ => 0) (withLimit (freshStore log) 1) steps₁ end₁ ∧
    Run (CommandStep fun _ => 0) (withLimit (freshStore log) 100) steps₂ end₂ ∧
    steps₁.map (fun p => p.2.1) = [.put "a" "v", .put "a" "w"] ∧
    steps₂.map (fun p => p.2.1) = [.put "a" "v", .put "a" "w"] ∧
    steps₁.map (fun p => p.2.2) = [.ok none, .ok none] ∧
    steps₂.map (fun p => p.2.2) = [.ok none, .ok (some "v")] := by
  have hboth : (Log.run (fun _ => 0) smallSegments.val []).map (fun log => compareLimits log
      [.put "a" "v", .put "a" "w"]) =
      .ok (some ⟨[.ok none, .ok none], [.ok none, .ok (some "v")], false⟩) := by
    decide +kernel
  obtain ⟨log, hlog, hseen⟩ := run_of_map _ hboth
  obtain ⟨steps₁, end₁, steps₂, end₂, h₁, h₂, hcommands₁, hcommands₂, hanswers₁, hanswers₂, -⟩ :=
    compareLimits_runs hseen
  exact ⟨log, steps₁, end₁, steps₂, end₂, freshStore_consistent hlog, h₁, h₂, hcommands₁,
    hcommands₂, hanswers₁, hanswers₂⟩

end Rkvs.Analysis
