import Rkvs.Analysis.FailedAppends

/-!
# Writes after a failed write

What the writer thread has accepted is found by the next recovery, whichever file operations have
failed, if nothing is written behind a part of a record.
-/

set_option autoImplicit false

namespace Rkvs.Analysis

open Rkvs.Library Rkvs.Model Rkvs.Interface

section
variable {crc : Bytes → UInt32} {s : SegmentSize} {φ : Type} {flush : Table → EStateM Fault φ Unit}

/-! ## Refused writes -/

/-- INTERNAL: a write that is answered with an I/O error has failed with it. -/
theorem answer_error {α : Type} {x : EStateM Fault WriteWorker α} {state state' : WriteWorker × φ}
    {kind : ErrorKind} (hrun : (WriteWorker.answer x).run state = .ok (.error kind) state') :
    x.run state.1 = .error (.io kind) state'.1 := by
  obtain ⟨w, f⟩ := state
  change WriteWorker.answer x (w, f) = _ at hrun
  unfold WriteWorker.answer at hrun
  dsimp only at hrun
  cases hx : x.run w with
  | ok b w' =>
    rw [hx] at hrun
    cases hrun
  | error e w' =>
    rw [hx] at hrun
    cases e with
    | io kind =>
      cases hrun
      rfl
    | panic => cases hrun

/-- INTERNAL: `put` and `delete` are one write, which fails with an I/O error only in the log.
SOURCE: memtable.rs:357-393 -/
theorem write_error {op : OpType} {key : String} {value : Option String} {w w' : WriteWorker}
    {kind : ErrorKind} {n : ℕ} (hnext : w.wal.nextSequenceNumber = .ok n)
    (hrun : (do
        let sequenceNumber ← liftExec (← get).wal.nextSequenceNumber
        let entry : WalEntry := ⟨op, key, value, sequenceNumber⟩
        WriteWorker.onWal (Wal.append crc entry)
        WriteWorker.insertEntry entry : EStateM Fault WriteWorker (Option MemTableValue)).run w =
      .error (.io kind) w') :
    (Wal.append crc ⟨op, key, value, n⟩).run w.wal = .error (.io kind) w'.wal := by
  rw [run_bind_ok (EStateM.run_get w), hnext, run_bind_ok (run_liftExec_ok ..)] at hrun
  dsimp only at hrun
  cases happend : (Wal.append crc ⟨op, key, value, n⟩).run w.wal with
  | error e wal =>
    rw [run_bind_error (run_onPart_error WriteWorker.walPart happend)] at hrun
    cases hrun
    rfl
  | ok a wal =>
    rw [run_bind_ok (run_onPart_ok WriteWorker.walPart happend)] at hrun
    cases ((insertEntry_runs _).error hrun).1

/-- A refused job has failed to append its entry to the log.
SOURCE: memtable.rs:357-419 -/
theorem runJob_refused {state state' : WriteWorker × φ} {job : WriteJob} {kind : ErrorKind}
    (hrun : (WriteWorker.runJob crc flush job).run state = .ok (some (.error kind)) state')
    {n : ℕ} (hnext : state.1.wal.nextSequenceNumber = .ok n) :
    ∃ e, WriteJob.entry n job = some e ∧ e.sequenceNumber = n ∧ e.valueFits = true ∧
      (Wal.append crc e).run state.1.wal = .error (.io kind) state'.1.wal := by
  unfold WriteWorker.runJob at hrun
  obtain ⟨_, mid, hflush, hrun⟩ := run_bind_eq_ok hrun
  rw [← flushIfFull_wal hflush] at hnext ⊢
  cases job with
  | shutdown => cases hrun
  | put key value =>
    exact ⟨_, rfl, rfl, rfl, write_error hnext (answer_error (run_some_map hrun))⟩
  | delete key =>
    exact ⟨_, rfl, rfl, rfl, write_error hnext (answer_error (run_some_map hrun))⟩

/-! ## Attempts -/

/-- INTERNAL: a job takes as many bytes as the record of its entry. -/
theorem recordSpan_of_entry {n : ℕ} {job : WriteJob} {e : WalEntry}
    (h : WriteJob.entry n job = some e) : recordSpan e = WriteJob.length job := by
  rw [recordSpan, ← encode_length (fun _ => 0)]
  cases job with
  | shutdown => cases h
  | put key value =>
    cases h
    exact encode_recordLength .put key (some value) n
  | delete key =>
    cases h
    exact encode_recordLength .delete key none n

/-- INTERNAL: the accepted entries of one attempt come before those of the later ones. -/
theorem acceptedEntries_cons (answer : WriteAnswer) (answers : List WriteAnswer) :
    acceptedEntries (answer :: answers) =
      acceptedEntries [answer] ++ acceptedEntries answers := by
  unfold acceptedEntries
  rw [← List.map_append, ← List.filter_append, List.singleton_append]

/-- INTERNAL: a log with no failure to come. -/
theorem calm_eq {w : Wal} (h : w.dir.faults = []) : calm w = w := by
  obtain ⟨segment, size, files, distinct, faults⟩ := w
  subst h
  rfl

/-- An attempt keeps a log intact.
SOURCE: memtable.rs:357-419 -/
theorem Intact.attempt {state next : WriteWorker × φ} {a : Attempt} {answer : WriteAnswer}
    {es : List WalEntry} {damaged : Bool} (h : Intact crc s (calm state.1.wal) es damaged)
    (hlength : WriteJob.length a.job < 2 ^ 32)
    (hgood : if damaged then a.WritesNothing state.1 else a.remains state.1 ≠ .straddling)
    (hrun : Interface.attempt crc flush state a = some (answer, next)) :
    next.1.wal.dir.faults = [] ∧
      Intact crc s (calm next.1.wal) (es ++ acceptedEntries [answer])
        (damaged || a.remains state.1 = .torn) := by
  unfold Interface.attempt at hrun
  dsimp only at hrun
  split at hrun
  next n result state' hnext hjob =>
    obtain ⟨e, hentry, hrun⟩ := Option.bind_eq_some_iff.mp hrun
    cases hrun
    have hn := checkedAdd_eq_ok hnext
    have hspan := recordSpan_of_entry hentry
    have hseq : e.sequenceNumber = n := by
      cases hjob : a.job with
      | shutdown =>
        rw [hjob] at hentry
        cases hentry
      | put key value =>
        rw [hjob] at hentry
        cases hentry
        rfl
      | delete key =>
        rw [hjob] at hentry
        cases hentry
        rfl
    have hremains : remains e.sequenceNumber (state.1.wal.activeSegment.maxSize -
        state.1.wal.activeSegment.fileSize) (recordSpan e) a.events = a.remains state.1 := by
      rw [hseq, ← hn.1, hspan]
      rfl
    have hnothing : WritesNothing (state.1.wal.activeSegment.maxSize -
        state.1.wal.activeSegment.fileSize) (recordSpan e) a.events = a.WritesNothing state.1 := by
      rw [hspan]
      rfl
    rw [← hremains, ← hnothing] at hgood
    rw [← hremains]
    refine ⟨rfl, ?_⟩
    have hwell : e.valueFits = true → e.key ≠ "" → WellFormed e := by
      intro hfits hkey
      have hlt : recordSpan e < 2 ^ 32 := hspan ▸ hlength
      exact ⟨hkey, hfits, by omega, hlt⟩
    subst hseq
    have h : Intact crc s (calm (withFaults state.1 a.events).wal) es damaged := h
    cases result with
    | ok old =>
      obtain ⟨e', hentry', -, hfits, happend⟩ := runJob_append hjob hnext
      cases hentry.symm.trans hentry'
      exact (h.appended (hwell hfits (append_key_ne happend)) hnext hgood happend _).2
    | error kind =>
      obtain ⟨e', hentry', -, hfits, happend⟩ := runJob_refused hjob hnext
      cases hentry.symm.trans hentry'
      have hkey : e.key ≠ "" := by
        intro hempty
        cases (append_empty_key hempty _).symm.trans happend
      have hintact := h.failed (hwell hfits hkey) hnext hgood happend
      rw [← List.append_nil es] at hintact
      exact hintact
  next => cases hrun

/-- Attempts keep a log intact.
SOURCE: memtable.rs:395-419 -/
theorem Intact.attempts {as : List Attempt} {state state' : WriteWorker × φ}
    {answers : List WriteAnswer} {es : List WalEntry} {damaged : Bool}
    (h : Intact crc s (calm state.1.wal) es damaged) (hfaults : state.1.wal.dir.faults = [])
    (hbehind : NothingBehind crc flush damaged state as)
    (hrun : Interface.attempts crc flush state as = some (answers, state')) :
    state'.1.wal.dir.faults = [] ∧
      ∃ damaged', Intact crc s (calm state'.1.wal) (es ++ acceptedEntries answers) damaged' := by
  induction as generalizing state answers es damaged with
  | nil =>
    cases hrun
    exact ⟨hfaults, damaged, by rwa [acceptedEntries, List.filter_nil, List.map_nil,
      List.append_nil]⟩
  | cons a as ih =>
    obtain ⟨hlength, hgood, hrest⟩ := hbehind
    unfold Interface.attempts at hrun
    obtain ⟨⟨answer, mid⟩, hfirst, hrun⟩ := Option.bind_eq_some_iff.mp hrun
    obtain ⟨⟨later, last⟩, hlater, hrun⟩ := Option.bind_eq_some_iff.mp hrun
    cases hrun
    obtain ⟨hclear, hmid⟩ := h.attempt hlength hgood hfirst
    rw [acceptedEntries_cons, ← List.append_assoc]
    exact ih hmid hclear (hrest _ hfirst) hlater

/-- INTERNAL: a fresh log is intact.
SOURCE: memtable.rs:84-88 -/
theorem start_intact {maxSize : ℕ} {w : WriteWorker}
    (hstart : MemTable.start crc Dir.empty s.val 0 maxSize = .ok w) :
    w.wal.dir.faults = [] ∧ Intact crc s (calm w.wal) [] false := by
  have hempty : SegmentFiles s Dir.empty [] :=
    ⟨List.Perm.refl _, List.Pairwise.nil, by simp, by simp, by simp⟩
  obtain ⟨wal, hfresh, hactive⟩ := @SegmentFiles.start_fresh crc _ _ _ hempty rfl (by simp) 0 rfl
    maxSize
  rw [hstart] at hfresh
  cases hfresh
  refine ⟨hactive.faults, ?_⟩
  rw [calm_eq hactive.faults]
  have hsettled : Settled crc s wal [] [] ([] ++ []) :=
    .intro hactive (by simp) (.nil (.start 0)) rfl (.done []) (by decide) fun _ => rfl
  exact .whole hsettled (Or.inl rfl)

/-- What was accepted on a fresh log is found by the recovery after a clean end, if the attempts leave
whole records, up to one that no write follows and that does not leave its record in two files.
SOURCE: wal.rs:40-71, memtable.rs:246-350, 357-393 -/
theorem accepted_found_again {maxSize : ℕ} {w : WriteWorker}
    (hstart : MemTable.start crc Dir.empty s.val 0 maxSize = .ok w) {f : φ} {as : List Attempt}
    {answers : List WriteAnswer} {state closed : WriteWorker × φ}
    (hrun : Interface.attempts crc flush (w, f) as = some (answers, state))
    (hclose : (WriteWorker.close crc flush).run state = .ok () closed)
    (hbehind : NothingBehind crc flush false (w, f) as) {next : ℕ}
    (hnext : closed.1.wal.nextSequenceNumber = .ok next) :
    ∃ segments table res, MemTable.findAndOpenSegments closed.1.wal.dir s.val 0 = .ok segments ∧
      MemTable.recover crc closed.1.wal.dir segments 0 ∅ = .ok (table, res) ∧
      FoundAgain answers table := by
  obtain ⟨hfaults, hfresh⟩ := start_intact hstart
  obtain ⟨hclear, damaged, hintact⟩ := hfresh.attempts hfaults hbehind hrun
  have htorn : Torn crc s (calm state.1.wal) ([] ++ acceptedEntries answers) := by
    cases hintact with
    | whole settled room => exact settled.torn room
    | torn h => exact h
  rw [calm_eq hclear, List.nil_append] at htorn
  rw [close_wal hclose] at hnext ⊢
  obtain ⟨segments, res, hopen, hrecover⟩ := (htorn.reads next hnext).recover
  exact ⟨segments, _, res, hopen, hrecover, fun key _ => lookup_tableOf _ key⟩

end

/-! ## Failures at every place -/

/-- What a recovery finds under a key after attempts on a fresh log and a clean end, with the answers
and whether nothing was written behind a part of a record. -/
def recoveredAfter (crc : Bytes → UInt32) (segmentSize : ℕ) (as : List Attempt) (key : String) :
    Exec (List WriteAnswer × Bool × ℕ × Option MemTableValue) := do
  let w ← MemTable.start crc Dir.empty segmentSize 0 1000
  match attempts crc ignoreTable (w, ()) as with
  | none => .error .panic
  | some (answers, state) =>
    match (WriteWorker.close crc ignoreTable).run state with
    | .error e _ => .error e
    | .ok _ (closed, _) => do
      let next ← closed.wal.nextSequenceNumber
      let segments ← MemTable.findAndOpenSegments closed.wal.dir segmentSize 0
      let (table, _) ← MemTable.recover crc closed.wal.dir segments 0 ∅
      return (answers, decide (NothingBehind crc ignoreTable false (w, ()) as), next,
        table.lookup key)

/-- INTERNAL: what a recovery finds is what the parts of the run leave. -/
theorem recoveredAfter_inv {crc : Bytes → UInt32} {segmentSize next : ℕ} {as : List Attempt}
    {key : String} {answers : List WriteAnswer} {behind : Bool} {value : Option MemTableValue}
    (h : recoveredAfter crc segmentSize as key = .ok (answers, behind, next, value)) :
    ∃ w state closed segments table res,
      MemTable.start crc Dir.empty segmentSize 0 1000 = .ok w ∧
      attempts crc ignoreTable (w, ()) as = some (answers, state) ∧
      (WriteWorker.close crc ignoreTable).run state = .ok () closed ∧
      decide (NothingBehind crc ignoreTable false (w, ()) as) = behind ∧
      closed.1.wal.nextSequenceNumber = .ok next ∧
      MemTable.findAndOpenSegments closed.1.wal.dir segmentSize 0 = .ok segments ∧
      MemTable.recover crc closed.1.wal.dir segments 0 ∅ = .ok (table, res) ∧
      table.lookup key = value := by
  unfold recoveredAfter at h
  obtain ⟨w, hstart, h⟩ := exec_bind_eq_ok.mp h
  cases hrun : attempts crc ignoreTable (w, ()) as with
  | none =>
    rw [hrun] at h
    cases h
  | some result =>
    rw [hrun] at h
    dsimp only at h
    cases hclose : (WriteWorker.close crc ignoreTable).run result.2 with
    | error e left =>
      rw [hclose] at h
      cases h
    | ok a closed =>
      rw [hclose] at h
      obtain ⟨next, hnext, h⟩ := exec_bind_eq_ok.mp h
      obtain ⟨segments, hopen, h⟩ := exec_bind_eq_ok.mp h
      obtain ⟨⟨table, res⟩, hrecover, h⟩ := exec_bind_eq_ok.mp h
      cases h
      exact ⟨w, result.2, closed, segments, table, res, hstart, hrun, hclose, rfl, hnext, hopen,
        hrecover, rfl⟩

/-- A put and a split put of which no byte is written at first, a put whose file is not created at
first, and one of which five bytes are written at the end. -/
def harmlessFailures : List Attempt :=
  [⟨.put "a" "x", [.fail 0]⟩, ⟨.put "a" "x", []⟩, ⟨.delete "a", []⟩, ⟨.put "b" "y", [.fail 0]⟩,
    ⟨.put "b" "y", []⟩, ⟨.put "c" "a value that ends here..", []⟩, ⟨.put "d" "z", [.ok, .fail 0]⟩,
    ⟨.put "d" "z", []⟩, ⟨.put "e" "v", [.fail 5]⟩]

/-- Five failures, and everything that was accepted is found. -/
theorem accepted_found_again_harmless : ∃ w answers state closed segments table res,
    MemTable.start (fun _ => 0) Dir.empty smallSegments.val 0 1000 = .ok w ∧
      attempts (fun _ => 0) ignoreTable (w, ()) harmlessFailures = some (answers, state) ∧
      (WriteWorker.close (fun _ => 0) ignoreTable).run state = .ok () closed ∧
      MemTable.findAndOpenSegments closed.1.wal.dir smallSegments.val 0 = .ok segments ∧
      MemTable.recover (fun _ => 0) closed.1.wal.dir segments 0 ∅ = .ok (table, res) ∧
      FoundAgain answers table := by
  have hleft : (recoveredAfter (fun _ => 0) smallSegments.val harmlessFailures "d").map
      (fun found => (found.1.map WriteAnswer.accepted, found.2.1)) =
      .ok ([false, true, true, false, true, true, false, true, false], true) := by decide
  obtain ⟨⟨answers, behind, next, value⟩, hfound, hseen⟩ := exec_map_eq_ok.mp hleft
  obtain rfl : behind = true := (Prod.mk.inj hseen).2
  obtain ⟨w, state, closed, -, -, -, hstart, hrun, hclose, hbehind, hnext, -⟩ :=
    recoveredAfter_inv hfound
  obtain ⟨segments, table, res, hopen, hrecover, hagain⟩ :=
    accepted_found_again hstart hrun hclose (of_decide_eq_true hbehind) hnext
  exact ⟨w, answers, state, closed, segments, table, res, hstart, hrun, hclose, hopen, hrecover,
    hagain⟩

/-- One byte of a put that fails makes the next put unreadable. -/
theorem failed_write_hides_later : ∃ w answers state closed segments table res,
    MemTable.start (fun _ => 0) Dir.empty smallSegments.val 0 1000 = .ok w ∧
      attempts (fun _ => 0) ignoreTable (w, ())
        [⟨.put "a" "x", [.fail 1]⟩, ⟨.put "b" "y", []⟩] = some (answers, state) ∧
      (WriteWorker.close (fun _ => 0) ignoreTable).run state = .ok () closed ∧
      MemTable.findAndOpenSegments closed.1.wal.dir smallSegments.val 0 = .ok segments ∧
      MemTable.recover (fun _ => 0) closed.1.wal.dir segments 0 ∅ = .ok (table, res) ∧
      ¬FoundAgain answers table := by
  have hleft : recoveredAfter (fun _ => 0) smallSegments.val
      [⟨.put "a" "x", [.fail 1]⟩, ⟨.put "b" "y", []⟩] "b" =
      .ok ([⟨⟨.put, "a", some "x", 0⟩, false⟩, ⟨⟨.put, "b", some "y", 0⟩, true⟩], false, 27,
        none) := by decide
  obtain ⟨w, state, closed, segments, table, res, hstart, hrun, hclose, -, -, hopen, hrecover,
    hvalue⟩ := recoveredAfter_inv hleft
  refine ⟨w, _, state, closed, segments, table, res, hstart, hrun, hclose, hopen, hrecover, ?_⟩
  intro h
  have hkey := h "b" (by decide)
  rw [hvalue] at hkey
  cases hkey

end Rkvs.Analysis
