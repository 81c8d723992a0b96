import Rkvs.Analysis.Replay
import Rkvs.Analysis.RequestCodec
import Rkvs.Analysis.Start
import Rkvs.Analysis.WriteOutcome

/-!
# Which requests kill the writer thread

Every worker has a log whose sizes fit its segments, whatever the files held that it was started
from: the offset at which a damaged log is cut off lies inside a file that was small enough to be
opened. So a request that was accepted makes the writer thread panic exactly if its key is empty
or its record does not fit.
-/

set_option autoImplicit false

namespace Rkvs.Analysis

open Rkvs.Library Rkvs.Model Rkvs.Interface

/-! ## The offset that recovery reports -/

section
variable {crc : Bytes → UInt32}

/-- What the parser reports at an offset leaves room for a header behind it. -/
def ReportsInside (bytes : Bytes) : Except RecoveryError (Option PartialWalEntry) → Prop
  | .ok none => True
  | .ok (some p) => p.offset + HEADER_SIZE ≤ bytes.length ∧ p.bytes.length = HEADER_SIZE
  | .error (.corrupted _ offset) => offset + HEADER_SIZE ≤ bytes.length
  | .error (.io _) => True

/-- INTERNAL: only a record's header is rejected.
SOURCE: wal/segment.rs:217-218 -/
theorem header_le_of_fail {bytes : Bytes} {d : Defect} (h : scanRecord crc bytes = .fail d) :
    HEADER_SIZE ≤ bytes.length := by
  by_contra hshort
  rw [scanRecord_short (by omega)] at h
  cases h

/-- SOURCE: wal/segment.rs:205-254 -/
theorem parse_inside {path : String} {bytes : Bytes} {es : List WalEntry}
    {res : Except RecoveryError (Option PartialWalEntry)}
    (h : Segment.parseValidateWalEntries crc path bytes = .ok (es, res)) :
    ReportsInside bytes res := by
  obtain ⟨es', tail, hreads, hends⟩ := Framing.exists_reads (F := walFraming crc) bytes
  have hlen := hreads.length_le
  cases hscan : scanRecord crc tail with
  | stop =>
    rw [parse_stop path hreads hscan] at h
    cases h
    unfold tailReport
    split
    · trivial
    · refine ⟨?_, ?_⟩
      · show bytes.length - tail.length + HEADER_SIZE ≤ bytes.length
        omega
      · rw [List.length_take]
        omega
  | fail d =>
    have hheader := header_le_of_fail hscan
    cases d with
    | corrupted =>
      rw [parse_corrupted path hreads hscan] at h
      cases h
      show bytes.length - tail.length + HEADER_SIZE ≤ bytes.length
      omega
    | fault f =>
      rw [parse_fault path hreads hscan] at h
      cases h
  | item e n => exact absurd hscan (hends e n)

/-- The offset of what is reported, and a header left over, leave room in a segment. -/
def WithinSegment (size : ℕ) : Except RecoveryError (Option PartialWalEntry) → Prop
  | .ok none => True
  | .ok (some p) => p.offset ≤ size ∧ p.bytes.length ≤ size
  | .error (.corrupted _ offset) => offset ≤ size
  | .error (.io _) => True

/-- SOURCE: wal/segment.rs:155-175 -/
theorem readFromOffset_within {dir : Dir} {segment : Segment} {offset size : ℕ}
    {es : List WalEntry} {res : Except RecoveryError (Option PartialWalEntry)}
    (hsize : (dir.content segment.filePath).length ≤ size)
    (h : segment.readParseValidateFromOffset crc dir offset = .ok (es, res)) :
    WithinSegment size res := by
  have hheader : HEADER_SIZE = 13 := rfl
  unfold Segment.readParseValidateFromOffset at h
  obtain ⟨⟨es', res'⟩, hparse, hrest⟩ := exec_bind_eq_ok.mp h
  have hinside := parse_inside hparse
  cases res' with
  | ok opt =>
    cases hrest
    cases opt with
    | none => trivial
    | some p =>
      simp only [ReportsInside, List.length_drop] at hinside
      show p.offset + offset ≤ size ∧ p.bytes.length ≤ size
      omega
  | error e =>
    cases e with
    | io kind =>
      cases hrest
      trivial
    | corrupted fp pos =>
      cases hrest
      simp only [ReportsInside, List.length_drop] at hinside
      show pos + offset ≤ size
      omega

/-- SOURCE: wal/segment.rs:177-203 -/
theorem readFromPartial_within {dir : Dir} {segment : Segment} {bytes : Bytes} {size : ℕ}
    {es : List WalEntry} {res : Except RecoveryError (Option PartialWalEntry)}
    (hsize : (dir.content segment.filePath).length ≤ size) (hbytes : bytes.length ≤ size)
    (h : segment.readParseValidateFromPartialRecord crc dir bytes = .ok (es, res)) :
    WithinSegment size res := by
  have hheader : HEADER_SIZE = 13 := rfl
  unfold Segment.readParseValidateFromPartialRecord at h
  obtain ⟨⟨es', res'⟩, hparse, hrest⟩ := exec_bind_eq_ok.mp h
  have hinside := parse_inside hparse
  cases res' with
  | ok opt =>
    cases opt with
    | none =>
      cases hrest
      trivial
    | some p =>
      simp only [ReportsInside, List.length_append] at hinside
      obtain ⟨n, hsub, hrest⟩ := exec_bind_eq_ok.mp hrest
      cases hrest
      unfold checkedSub at hsub
      split at hsub
      · cases hsub
        show p.offset - bytes.length ≤ size ∧ p.bytes.length ≤ size
        omega
      · cases hsub
  | error e =>
    cases e with
    | io kind =>
      cases hrest
      trivial
    | corrupted fp pos =>
      cases hrest
      simp only [ReportsInside, List.length_append] at hinside
      show (if pos > bytes.length then pos - bytes.length else pos) ≤ size
      split <;> omega

/-- The loop reports a place inside a segment.
SOURCE: memtable.rs:246-350 -/
theorem recoverLoop_within {dir : Dir} {size : ℕ} (segments : List Segment)
    (hsize : ∀ segment ∈ segments, (dir.content segment.filePath).length ≤ size) (offset : ℕ)
    (carry : Option PartialWalEntry) (hcarry : WithinSegment size (.ok carry)) (currSize : ℕ)
    (table table' : Table) {currSize' offset' : ℕ} {fp : String}
    (h : MemTable.recoverLoop crc dir segments offset carry currSize table =
      .ok (table', .error (currSize', .corrupted fp offset'))) : offset' ≤ size := by
  induction segments generalizing offset carry currSize table with
  | nil =>
    cases carry with
    | none => cases h
    | some p =>
      cases h
      exact hcarry.1
  | cons segment segments ih =>
    have hhead := hsize segment (List.mem_cons_self ..)
    have htail := fun g hg => hsize g (List.mem_cons_of_mem _ hg)
    cases carry with
    | none =>
      rw [MemTable.recoverLoop] at h
      obtain ⟨⟨es, res⟩, hread, hrest⟩ := exec_bind_eq_ok.mp h
      have hwithin := readFromOffset_within hhead hread
      cases res with
      | ok opt => exact ih htail _ opt hwithin _ _ hrest
      | error e =>
        cases hrest
        exact hwithin
    | some p =>
      rw [MemTable.recoverLoop] at h
      obtain ⟨⟨es, res⟩, hread, hrest⟩ := exec_bind_eq_ok.mp h
      have hwithin := readFromPartial_within hhead hcarry.2 hread
      cases res with
      | ok opt => exact ih htail _ opt hwithin _ _ hrest
      | error e =>
        dsimp only at hrest
        split at hrest
        · cases hrest
          exact hcarry.1
        · cases hrest
          exact hwithin

/-! ## The states of a worker -/

section
variable {s : SegmentSize}

/-- INTERNAL: what is opened fits a segment.
SOURCE: memtable.rs:164-171, 189-196 -/
theorem openSegment_within {dir : Dir} {fp : String} {segment : Segment}
    (h : MemTable.openSegment dir s.val fp = .ok segment) :
    segment.filePath = fp ∧ segment.maxSize = s.val ∧ segment.fileSize ≤ s.val ∧
      (dir.content fp).length ≤ s.val := by
  unfold MemTable.openSegment at h
  dsimp only at h
  split at h
  · cases h
  · rename_i hle
    unfold Segment.fromFile at h
    obtain ⟨base, -, hrest⟩ := exec_bind_eq_ok.mp h
    cases hrest
    have hfits := Nat.not_lt.mp hle
    exact ⟨rfl, rfl, hfits, hfits⟩

/-- INTERNAL: what a map returns comes from the elements. -/
theorem mapM_inv {α β : Type} {f : α → Exec β} {l : List α} {bs : List β}
    (h : l.mapM f = .ok bs) : ∀ b ∈ bs, ∃ a ∈ l, f a = .ok b := by
  induction l generalizing bs with
  | nil =>
    cases h
    simp
  | cons a l ih =>
    rw [List.mapM_cons] at h
    obtain ⟨b, hb, hrest⟩ := exec_bind_eq_ok.mp h
    obtain ⟨bs', hbs', hrest⟩ := exec_bind_eq_ok.mp hrest
    cases hrest
    intro c hc
    obtain rfl | hc := List.mem_cons.mp hc
    · exact ⟨a, List.mem_cons_self .., hb⟩
    · obtain ⟨a', ha', hf⟩ := ih hbs' c hc
      exact ⟨a', List.mem_cons_of_mem _ ha', hf⟩

/-- SOURCE: wal.rs:14-26 -/
theorem createNew_sound {dir : Dir} {w : Wal} (h : Wal.createNew dir s.val = .ok w) :
    Sound s w := by
  have hparse := s.parseBaseLsn_fileName (show 0 < 2 ^ 64 by omega)
  unfold Wal.createNew at h
  dsimp only at h
  rw [s.assert_val, show determineSegmentFilename 0 0 s.val = s.fileName 0 from rfl] at h
  rw [exec_ok_bind] at h
  generalize s.fileName 0 = path at h hparse
  have hcreate := createFile_runs path dir
  cases hrun : (Dir.createFile path).run dir with
  | error e dir' =>
    rw [hrun] at h
    cases h
  | ok a dir' =>
    rw [hrun] at h
    obtain ⟨-, hempty⟩ := hcreate.ok hrun
    obtain ⟨segment, hnew, h⟩ := exec_bind_eq_ok.mp h
    cases h
    unfold Segment.new at hnew
    simp only [hempty, hparse, exec_ok_bind, exec_pure] at hnew
    cases hnew
    exact ⟨rfl, rfl, Nat.zero_le _⟩

/-- A worker starts with a sound log.
SOURCE: memtable.rs:50-89 -/
theorem start_sound {dir : Dir} {sequenceNumber maxSize : ℕ} {w : WriteWorker}
    (h : MemTable.start crc dir s.val sequenceNumber maxSize = .ok w) : Sound s w.wal := by
  have hlt := s.lt
  unfold MemTable.start at h
  obtain ⟨segments, hopen, h⟩ := exec_bind_eq_ok.mp h
  split at h
  · obtain ⟨wal, hcreate, h⟩ := exec_bind_eq_ok.mp h
    cases h
    exact createNew_sound hcreate
  · obtain ⟨startingOffset, -, h⟩ := exec_bind_eq_ok.mp h
    obtain ⟨⟨table, res⟩, hrecover, h⟩ := exec_bind_eq_ok.mp h
    have hsize : ∀ segment ∈ segments, (dir.content segment.filePath).length ≤ s.val := by
      intro segment hmem
      unfold MemTable.findAndOpenSegments at hopen
      obtain ⟨names, -, hopen⟩ := exec_bind_eq_ok.mp hopen
      obtain ⟨fp, -, hfp⟩ := mapM_inv hopen segment hmem
      obtain ⟨hpath, -, -, hle⟩ := openSegment_within hfp
      rwa [hpath]
    cases res with
    | ok currSize =>
      obtain ⟨segment, hlast, h⟩ := exec_bind_eq_ok.mp h
      cases h
      unfold MemTable.openLastSegment at hlast
      obtain ⟨names, -, hlast⟩ := exec_bind_eq_ok.mp hlast
      split at hlast
      · cases hlast
      · obtain ⟨-, hmax, hle, -⟩ := openSegment_within hlast
        exact ⟨rfl, hmax, hle⟩
    | error e =>
      obtain ⟨currSize, e⟩ := e
      cases e with
      | io kind => cases h
      | corrupted fp offset =>
        have hwithin := recoverLoop_within segments hsize _ none trivial _ _ _ hrecover
        obtain ⟨⟨segment, dir'⟩, htruncate, h⟩ := exec_bind_eq_ok.mp h
        obtain ⟨lsn, -, h⟩ := exec_bind_eq_ok.mp h
        obtain ⟨names, -, h⟩ := exec_bind_eq_ok.mp h
        cases h
        unfold MemTable.truncateAndOpenSegmentFile at htruncate
        obtain ⟨listed, -, htruncate⟩ := exec_bind_eq_ok.mp htruncate
        split at htruncate
        · cases htruncate
        · obtain ⟨dir'', -, htruncate⟩ := exec_bind_eq_ok.mp htruncate
          obtain ⟨segment', hfrom, htruncate⟩ := exec_bind_eq_ok.mp htruncate
          cases htruncate
          unfold Segment.fromFile at hfrom
          obtain ⟨base, -, hfrom⟩ := exec_bind_eq_ok.mp hfrom
          cases hfrom
          refine ⟨rfl, rfl, ?_⟩
          show offset % 2 ^ 32 ≤ s.val
          exact (Nat.mod_le _ _).trans hwithin

/-- The log of every worker is sound.
SOURCE: memtable.rs:50-89, 357-426 -/
theorem reachable_sound {w : WriteWorker} (h : Reachable crc s.val w) : Sound s w.wal := by
  induction h with
  | started start => exact start_sound start
  | put _ answer ih => exact ((put_ifRoom _ _ _ ih).ok answer).2
  | putFailed _ answer ih => exact ((put_ifRoom _ _ _ ih).error answer).1
  | delete _ answer ih => exact ((delete_ifRoom _ _ ih).ok answer).2
  | deleteFailed _ answer ih => exact ((delete_ifRoom _ _ ih).error answer).1
  | flushed _ ih => exact ih

/-- A write may panic exactly if there is no room for it. -/
theorem never_panics_iff {w : WriteWorker} (h : Sound s w.wal) {key : String}
    {value : Option String} {write : EStateM Fault WriteWorker (Option MemTableValue)}
    (hwrite : WritesIfRoom s key value write) :
    (∀ faults w', write.run (withFaults w faults) ≠ .error .panic w') ↔
      Writable w key value := by
  have hsound : ∀ faults, Sound s (withFaults w faults).wal := fun _ =>
    ⟨h.segmentMaxSize, h.maxSize, h.fileSize_le⟩
  constructor
  · intro hnever
    have hruns := hwrite (withFaults w []) (hsound [])
    cases hrun : write.run (withFaults w []) with
    | ok old w' => exact (hruns.ok hrun).1
    | error e w' =>
      cases e with
      | io kind => exact absurd rfl (hruns.error hrun).2
      | panic => exact absurd hrun (hnever [] w')
  · intro hw faults w' hrun
    exact (hwrite (withFaults w faults) (hsound faults)).error hrun hw

end

end

/-! ## Accepted requests -/

section
variable {Uuid : Type} {uuid : UuidCrate Uuid}

/-- INTERNAL: a put has a value and a delete has none.
SOURCE: protocol.rs:109-148 -/
theorem parsePayload_value {buf : Bytes} {requestType : RequestType} {id : Uuid} {p : Payload}
    (h : parsePayload buf requestType id = .ok p) :
    p.value.isSome ↔ requestType = .put := by
  unfold parsePayload at h
  obtain ⟨_, -, h⟩ := exec_bind_eq_ok.mp h
  obtain ⟨_, -, h⟩ := exec_bind_eq_ok.mp h
  split at h
  · cases h
  · cases requestType with
    | put =>
      obtain ⟨_, -, h⟩ := exec_bind_eq_ok.mp h
      split at h
      · cases h
      · obtain ⟨_, -, h⟩ := exec_bind_eq_ok.mp h
        obtain ⟨_, -, h⟩ := exec_bind_eq_ok.mp h
        split at h
        · cases h
        · cases h
          simp
    | get =>
      obtain ⟨_, -, h⟩ := exec_bind_eq_ok.mp h
      split at h
      · cases h
      · cases h
        simp
    | delete =>
      obtain ⟨_, -, h⟩ := exec_bind_eq_ok.mp h
      split at h
      · cases h
      · cases h
        simp

/-- INTERNAL: an accepted request carries a value exactly for a put.
SOURCE: protocol.rs:173-185 -/
theorem accepted_value {headerLen : ℕ} {stream rest : Bytes} {r : TcpRequest Uuid}
    (hrun : (recvTcpRequest uuid headerLen).run stream = .ok r rest) :
    r.payload.value.isSome ↔ r.headers.requestType = .put := by
  unfold recvTcpRequest at hrun
  obtain ⟨_, _, -, hrun⟩ := run_bind_eq_ok hrun
  obtain ⟨headers, _, -, hrun⟩ := run_bind_eq_ok hrun
  obtain ⟨_, _, -, hrun⟩ := run_bind_eq_ok hrun
  obtain ⟨buf, _, -, hrun⟩ := run_bind_eq_ok hrun
  obtain ⟨payload, _, hparse, hrun⟩ := run_bind_eq_ok hrun
  cases hrun
  cases hpayload : parsePayload buf headers.requestType headers.correlationId with
  | ok p =>
    rw [hpayload] at hparse
    cases hparse
    exact parsePayload_value hpayload
  | error e =>
    rw [hpayload] at hparse
    cases hparse

/-- An accepted request never makes the writer thread panic exactly if its key is not empty and
the log and the counters have room for it. -/
theorem accepted_write_returns_iff {crc : Bytes → UInt32} {s : SegmentSize} {w : WriteWorker}
    (reachable : Reachable crc s.val w) {headerLen : ℕ} {stream rest : Bytes}
    {r : TcpRequest Uuid} (accepted : (recvTcpRequest uuid headerLen).run stream = .ok r rest)
    (hwrite : r.headers.requestType ≠ .get) :
    (∀ faults w', (writeRequest crc r).run (withFaults w faults) ≠ .error .panic w') ↔
      Writable w r.payload.key r.payload.value := by
  have hsound := reachable_sound reachable
  have hvalue := accepted_value accepted
  unfold writeRequest
  cases htype : r.headers.requestType with
  | get => exact absurd htype hwrite
  | put =>
    rw [htype] at hvalue
    obtain ⟨value, hsome⟩ := Option.isSome_iff_exists.mp (hvalue.mpr rfl)
    rw [hsome]
    exact never_panics_iff hsound (put_ifRoom _ _)
  | delete =>
    rw [htype] at hvalue
    have hnone : r.payload.value = none := by
      rw [← Option.not_isSome_iff_eq_none, hvalue]
      simp
    rw [hnone]
    exact never_panics_iff hsound (delete_ifRoom _)

/-- The frame of a put of `value` under `key`, without the length of the headers. -/
def putBytes (key value : String) : Bytes :=
  MAGIC_BYTES ++ List.replicate 16 0 ++ [0, 2, 0, 0] ++
    beBytes 4 (8 + (asBytes key).length + (asBytes value).length) ++
    beBytes 4 (asBytes key).length ++ asBytes key ++ beBytes 4 (asBytes value).length ++
    asBytes value

/-- The request that is read from it. -/
def putRequest (key value : String) : TcpRequest PlainId :=
  ⟨⟨.put, plainIds.nil, 0, 0⟩, ⟨key, some value⟩⟩

/-- INTERNAL: a worker without files starts an empty segment. -/
theorem start_empty (s : SegmentSize) : ∃ w,
    MemTable.start (fun _ => 0) Dir.empty s.val 0 1000 = .ok w ∧ w.currentSize = 0 ∧
      w.wal.activeSegment = openedSegment s (0, []) := by
  have hfiles : SegmentFiles s Dir.empty [] :=
    ⟨List.Perm.refl _, List.Pairwise.nil, by simp, by simp, by simp⟩
  obtain ⟨wal, hstart, hactive⟩ := hfiles.start_fresh (n := 0) rfl (by simp) rfl 1000
  exact ⟨_, hstart, rfl, hactive.active⟩

theorem accepted_write_returns_put : ∃ w rest,
    MemTable.start (fun _ => 0) Dir.empty smallSegments.val 0 1000 = .ok w ∧
      (recvTcpRequest plainIds 24).run (putBytes "k" "v") = .ok (putRequest "k" "v") rest ∧
      ∀ faults w', (writeRequest (fun _ => 0) (putRequest "k" "v")).run (withFaults w faults) ≠
        .error .panic w' := by
  obtain ⟨w, hstart, hsize, hactive⟩ := start_empty smallSegments
  have haccepted : (recvTcpRequest plainIds 24).run (putBytes "k" "v") =
      .ok (putRequest "k" "v") [] := rfl
  refine ⟨w, [], hstart, haccepted, ?_⟩
  refine (accepted_write_returns_iff (.started hstart) haccepted (by decide)).mpr ?_
  unfold Writable
  rw [hsize, hactive]
  refine ⟨by decide, by decide, Or.inl ?_, ?_⟩
  · decide
  · decide

/-- A put with an empty key is accepted and makes the writer thread panic. -/
theorem empty_key_kills_writer : ¬∀ (s : SegmentSize) (w : WriteWorker) (stream rest : Bytes)
    (r : TcpRequest PlainId), Reachable (fun _ => 0) s.val w →
      (recvTcpRequest plainIds 24).run stream = .ok r rest → r.headers.requestType ≠ .get →
      ∀ faults w', (writeRequest (fun _ => 0) r).run (withFaults w faults) ≠ .error .panic w' := by
  intro h
  obtain ⟨w, hstart, -, -⟩ := start_empty smallSegments
  have haccepted : (recvTcpRequest plainIds 24).run (putBytes "" "v") =
      .ok (putRequest "" "v") [] := rfl
  have hnever := h smallSegments w _ _ _ (.started hstart) haccepted (by decide)
  have hsound := reachable_sound (.started hstart)
  exact ((never_panics_iff hsound (put_ifRoom "" "v")).mp hnever).1 rfl

end

end Rkvs.Analysis
