import Rkvs.Analysis.RecoveryReport
import Rkvs.Analysis.Start
import Rkvs.Analysis.ImageReads
import Rkvs.Interface.Damage

/-!
# Settled logs

A log is settled when reading its files ends, without an error, close to the end of the file
that it writes to, and no file behind is listed. Starting from a settled log gives the table of
what is read. Writes keep a log settled if nothing stands behind its last record, or so little
that it stays shorter than a header when the file is filled up.
-/

set_option autoImplicit false

namespace Rkvs.Analysis

open Rkvs.Library Rkvs.Model Rkvs.Interface

section
variable {crc : Bytes → UInt32} {s : SegmentSize}

/-- The files of the log are read as `es`, up to the `tail` of the active file with its
`content`. -/
inductive Settled (crc : Bytes → UInt32) (s : SegmentSize) (w : Wal) (content tail : Bytes) :
    List WalEntry → Prop
  | intro {front rear : List (ℕ × Bytes)} {base : ℕ} {es₀ es₁ : List WalEntry} {cur : Cursor}
      (active : ActiveAt s w front base content rear)
      (stale : ∀ f ∈ rear, s.endSeen f.1 f.2.length = 0)
      (files : ReadsFiles crc s (.start 0) (keptAfter s 0 front) es₀ cur)
      (offset : cur.offset = 0)
      (reads : (walFraming crc).Reads (cur.buffer content) es₁ tail)
      (short : tail.length < HEADER_SIZE)
      (unlisted : s.endSeen base content.length = 0 → cur.carry = none) :
      Settled crc s w content tail (es₀ ++ es₁)

/-! ## Starting from a settled log -/

/-- INTERNAL: a file that is not listed is empty. -/
theorem eq_nil_of_endSeen {base : ℕ} {content : Bytes} (h : s.endSeen base content.length = 0) :
    content = [] := by
  by_contra hne
  have hpos := s.endSeen_pos base (List.length_pos_iff.mpr hne)
  omega

/-- INTERNAL: files of which none is listed. -/
theorem keptAfter_eq_nil {fs : List (ℕ × Bytes)} :
    keptAfter s 0 fs = [] ↔ ∀ f ∈ fs, s.endSeen f.1 f.2.length = 0 := by
  unfold keptAfter
  rw [List.filter_eq_nil_iff]
  simp

/-- INTERNAL: the last file that is listed. -/
theorem exists_last_listed {fs : List (ℕ × Bytes)} (h : keptAfter s 0 fs ≠ []) :
    ∃ front base content stale, fs = front ++ (base, content) :: stale ∧
      0 < s.endSeen base content.length ∧ ∀ f ∈ stale, s.endSeen f.1 f.2.length = 0 := by
  induction fs using List.reverseRecOn with
  | nil => exact absurd rfl h
  | append_singleton fs f ih =>
    by_cases hlisted : 0 < s.endSeen f.1 f.2.length
    · exact ⟨fs, f.1, f.2, [], rfl, hlisted, by simp⟩
    · have hkept : keptAfter s 0 (fs ++ [f]) = keptAfter s 0 fs := by
        unfold keptAfter
        rw [List.filter_append, List.filter_singleton, decide_eq_false hlisted]
        simp
      obtain ⟨front, base, content, stale, hfs, hlast, hstale⟩ := ih (hkept ▸ h)
      refine ⟨front, base, content, stale ++ [f], by rw [hfs]; simp, hlast, ?_⟩
      intro g hg
      obtain hg | hg := List.mem_append.mp hg
      · exact hstale g hg
      · rw [List.mem_singleton.mp hg]
        omega

/-- INTERNAL: the files listed up to the last one. -/
theorem keptAfter_last {front stale : List (ℕ × Bytes)} {base : ℕ} {content : Bytes}
    (hlast : 0 < s.endSeen base content.length)
    (hstale : ∀ f ∈ stale, s.endSeen f.1 f.2.length = 0) :
    keptAfter s 0 (front ++ (base, content) :: stale) = keptAfter s 0 front ++ [(base, content)] := by
  have hnone : stale.filter (fun f => 0 < s.endSeen f.1 f.2.length) = [] :=
    keptAfter_eq_nil.mpr hstale
  unfold keptAfter
  rw [List.filter_append, List.filter_cons_of_pos (by simpa using hlast), hnone]

/-- A directory whose listed files are read to the end is started from.
SOURCE: memtable.rs:50-89 -/
theorem start_of_reads {dir : Dir} {fs : List (ℕ × Bytes)} (h : SegmentFiles s dir fs)
    (hfaults : dir.faults = []) (hend : ∀ f ∈ fs, s.endSeen f.1 f.2.length < 2 ^ 64)
    {es : List WalEntry} {offset : ℕ}
    (hreads : ReadsFiles crc s (.start 0) (keptAfter s 0 fs) es (.start offset)) (maxSize : ℕ) :
    ∃ w, MemTable.start crc dir s.val 0 maxSize = .ok w ∧ w.table = tableOf es := by
  by_cases hkept : keptAfter s 0 fs = []
  · rw [hkept] at hreads
    cases hreads
    obtain ⟨w, hstart, -⟩ := h.start_fresh hfaults hend hkept maxSize
    exact ⟨_, hstart, rfl⟩
  · have hrecover := recover_readsFiles hreads
      fun f hf => h.content (List.mem_of_mem_filter hf)
    obtain ⟨front, base, content, stale, rfl, hlast, hstale⟩ := exists_last_listed hkept
    rw [← Nat.zero_mod s.val] at hrecover
    obtain ⟨w, hstart, -⟩ := h.start_clean hfaults hend hkept hrecover hlast hstale maxSize
    exact ⟨_, hstart, rfl⟩

/-- INTERNAL: the files end below the last LSN if the active one does. -/
theorem end_lt_of_active {dir : Dir} {front rear : List (ℕ × Bytes)} {base : ℕ} {content : Bytes}
    (h : SegmentFiles s dir (front ++ (base, content) :: rear))
    (hstale : ∀ f ∈ rear, s.endSeen f.1 f.2.length = 0) (hroom : base + content.length < 2 ^ 64) :
    ∀ f ∈ front ++ (base, content) :: rear, s.endSeen f.1 f.2.length < 2 ^ 64 := by
  have hmem : (base, content) ∈ front ++ (base, content) :: rear := by simp
  intro f hf
  obtain hf | hf := List.mem_append.mp hf
  · exact lt_of_le_of_lt (h.endSeen_le_base hf) (h.lt _ hmem)
  · obtain rfl | hf := List.mem_cons.mp hf
    · exact (endSeen_lt_iff (h.dvd _ hmem) (h.lt _ hmem) (h.size_le _ hmem)).mpr hroom
    · rw [hstale f hf]
      norm_num

/-- Files of which the last one with data in it is the active one are read up to its end; an active
file that is not listed is not read. -/
theorem reads_listed {front rear : List (ℕ × Bytes)} {base : ℕ} {content tail : Bytes}
    {es₀ es₁ : List WalEntry} {cur : Cursor}
    (hstale : ∀ f ∈ rear, s.endSeen f.1 f.2.length = 0)
    (hfront : ReadsFiles crc s (.start 0) (keptAfter s 0 front) es₀ cur)
    (hlast : FileReads crc cur content es₁ tail)
    (hunlisted : s.endSeen base content.length = 0 → cur.carry = none) :
    ∃ cur', ReadsFiles crc s (.start 0) (keptAfter s 0 (front ++ (base, content) :: rear))
        (es₀ ++ es₁) cur' ∧ (tail.length < HEADER_SIZE → ∃ offset, cur' = .start offset) := by
  by_cases hlisted : 0 < s.endSeen base content.length
  · refine ⟨_, (hfront.append (hlast.single base)).congr (keptAfter_last hlisted hstale).symm rfl rfl,
      fun hshort => ⟨0, Cursor.after_short _ _ hshort⟩⟩
  · -- the active file is empty
    have hzero : s.endSeen base content.length = 0 := by omega
    have hempty := eq_nil_of_endSeen hzero
    have hnone := hunlisted hzero
    cases cur with
    | carried p => cases hnone
    | start k =>
      have hes : es₁ = [] := by
        have hlen := hlast.reads.length_le
        rw [hempty, Cursor.buffer, List.drop_nil, List.length_nil] at hlen
        exact List.length_eq_zero_iff.mp (by omega)
      have hkept : keptAfter s 0 (front ++ (base, content) :: rear) = keptAfter s 0 front := by
        have hrest : keptAfter s 0 ((base, content) :: rear) = [] := by
          apply keptAfter_eq_nil.mpr
          rintro f (_ | ⟨_, hf⟩)
          · exact hzero
          · exact hstale f hf
        unfold keptAfter at hrest ⊢
        rw [List.filter_append, hrest, List.append_nil]
      rw [hes, List.append_nil, hkept]
      exact ⟨_, hfront, fun _ => ⟨k, rfl⟩⟩

/-- Starting from a settled log gives the table of its records.
SOURCE: memtable.rs:50-89 -/
theorem Settled.start {w : Wal} {content tail : Bytes} {es : List WalEntry}
    (h : Settled crc s w content tail es) {next : ℕ} (hnext : w.nextSequenceNumber = .ok next)
    (maxSize : ℕ) :
    ∃ w', MemTable.start crc w.dir s.val 0 maxSize = .ok w' ∧ w'.table = tableOf es := by
  obtain @⟨front, rear, base, es₀, es₁, cur, active, stale, files, offset, reads, short,
    unlisted⟩ := h
  rw [active.next] at hnext
  have hend := end_lt_of_active active.files stale (checkedAdd_eq_ok hnext).2
  have hfile : FileReads crc cur content es₁ tail :=
    ⟨reads, scanRecord_short short, by rw [offset]; exact Nat.zero_le _, Or.inl short⟩
  obtain ⟨cur', hall, hstart⟩ := reads_listed stale files hfile unlisted
  obtain ⟨k, rfl⟩ := hstart short
  exact start_of_reads active.files active.faults hend hall maxSize

/-! ## What a start leaves -/

/-- INTERNAL: reading two lists of files one after the other. -/
theorem readsFiles_append_inv {cur cur' : Cursor} {fs gs : List (ℕ × Bytes)}
    {es : List WalEntry} (h : ReadsFiles crc s cur (fs ++ gs) es cur') :
    ∃ es₀ mid es₁, ReadsFiles crc s cur fs es₀ mid ∧ ReadsFiles crc s mid gs es₁ cur' ∧
      es = es₀ ++ es₁ := by
  induction fs generalizing cur es with
  | nil => exact ⟨[], cur, es, .nil cur, h, rfl⟩
  | cons f fs ih =>
    cases h with
    | @cons _ _ base content tail _ es es' head rest =>
      obtain ⟨es₀, mid, es₁, hfs, hgs, rfl⟩ := ih rest
      exact ⟨es ++ es₀, mid, es₁, .cons head hfs, hgs, by rw [List.append_assoc]⟩

/-- INTERNAL: only the first file is read from an offset. -/
theorem readsFiles_offset {cur cur' : Cursor} {fs : List (ℕ × Bytes)} {es : List WalEntry}
    (h : ReadsFiles crc s cur fs es cur') (hcur : cur.offset = 0) : cur'.offset = 0 := by
  induction h with
  | nil => exact hcur
  | cons _ _ ih => exact ih (Cursor.after_offset ..)

/-- Recovery ends without an error, with fewer bytes than a header behind the last record of the
last file that is listed. -/
inductive EndsWith (crc : Bytes → UInt32) (s : SegmentSize) (dir : Dir)
    (content tail : Bytes) : Prop
  | intro {fs front : List (ℕ × Bytes)} {base : ℕ} {es es' : List WalEntry} {cur : Cursor}
      (files : SegmentFiles s dir fs) (listed : keptAfter s 0 fs = front ++ [(base, content)])
      (reads : ReadsFiles crc s (.start 0) front es cur)
      (last : FileReads crc cur content es' tail) (short : tail.length < HEADER_SIZE)

/-- Every file behind a reported corruption that recovery lists is listed at the new end of the
log as well, and so it is deleted. -/
def LaterFilesDeleted (crc : Bytes → UInt32) (s : SegmentSize) (dir : Dir) : Prop :=
  ∀ segments table size fp offset base,
    MemTable.findAndOpenSegments dir s.val 0 = .ok segments →
    MemTable.recover crc dir segments 0 ∅ = .ok (table, .error (size, .corrupted fp offset)) →
    parseBaseLsn fp s.val = .ok base →
    ∀ file ∈ dir.files, fp < file.1 → finalEntryAfter file.1 file.2.length 0 = .ok true →
      finalEntryAfter file.1 file.2.length (base + offset) = .ok true

section
variable {dir : Dir} {maxSize : ℕ} {w : WriteWorker}

/-- INTERNAL: a start that finds no file begins a settled log. -/
theorem start_settles_fresh {fs : List (ℕ × Bytes)} (h : SegmentFiles s dir fs)
    (hfaults : dir.faults = []) (hend : ∀ f ∈ fs, s.endSeen f.1 f.2.length < 2 ^ 64)
    (hkept : keptAfter s 0 fs = []) (hstart : MemTable.start crc dir s.val 0 maxSize = .ok w) :
    Settled crc s w.wal [] [] [] ∧ w.table = ∅ := by
  obtain ⟨wal, hfresh, hactive⟩ := h.start_fresh hfaults hend hkept maxSize
  rw [hfresh] at hstart
  cases hstart
  have hstale : ∀ f ∈ fs.filter (fun f => 0 < f.1), s.endSeen f.1 f.2.length = 0 :=
    fun f hf => keptAfter_eq_nil.mp hkept f (List.mem_of_mem_filter hf)
  have hsettled : Settled crc s wal [] [] ([] ++ []) :=
    .intro hactive hstale (.nil (.start 0)) rfl (.done []) (by decide) fun _ => rfl
  exact ⟨hsettled, rfl⟩

/-- INTERNAL: recovery returns in a start that does. -/
theorem recover_of_start {fs : List (ℕ × Bytes)} (h : SegmentFiles s dir fs)
    (hend : ∀ f ∈ fs, s.endSeen f.1 f.2.length < 2 ^ 64) (hkept : keptAfter s 0 fs ≠ [])
    (hstart : MemTable.start crc dir s.val 0 maxSize = .ok w) :
    ∃ table res, MemTable.recover crc dir ((keptAfter s 0 fs).map (openedSegment s)) 0 ∅ =
      .ok (table, res) := by
  cases hrec : MemTable.recover crc dir ((keptAfter s 0 fs).map (openedSegment s)) 0 ∅ with
  | ok r => exact ⟨r.1, r.2, rfl⟩
  | error f =>
    unfold MemTable.start at hstart
    rw [h.findAndOpenSegments_eq hend 0, exec_ok_bind, if_neg (by simpa using hkept),
      checkedMod_ok s.pos, exec_ok_bind, Nat.zero_mod, hrec, exec_error_bind] at hstart
    cases hstart

/-- INTERNAL: a start that reads all files to their ends goes on in the last one. -/
theorem start_settles_clean {fs : List (ℕ × Bytes)} (h : SegmentFiles s dir fs)
    (hfaults : dir.faults = []) (hend : ∀ f ∈ fs, s.endSeen f.1 f.2.length < 2 ^ 64)
    (hkept : keptAfter s 0 fs ≠ []) {es : List WalEntry} {size : ℕ}
    (hrecover : MemTable.recover crc dir ((keptAfter s 0 fs).map (openedSegment s)) 0 ∅ =
      .ok (tableOf es, .ok size))
    (hreads : ReadsFiles crc s (.start 0) (keptAfter s 0 fs) es (.start 0))
    (hstart : MemTable.start crc dir s.val 0 maxSize = .ok w) :
    ∃ content tail, Settled crc s w.wal content tail es ∧ w.table = tableOf es ∧
      EndsWith crc s dir content tail := by
  rw [← Nat.zero_mod s.val] at hrecover
  obtain ⟨front, base, content, stale, rfl, hlast, hstale⟩ := exists_last_listed hkept
  obtain ⟨wal, hclean, hactive⟩ := h.start_clean hfaults hend hkept hrecover hlast hstale maxSize
  rw [hclean] at hstart
  cases hstart
  rw [keptAfter_last hlast hstale] at hreads
  obtain ⟨es₀, cur, es₁, hfront, hfile, rfl⟩ := readsFiles_append_inv hreads
  have hoffset := readsFiles_offset hfront rfl
  generalize hcur : Cursor.start 0 = clean at hfile
  cases hfile with
  | @cons _ _ _ _ tail _ es es' head rest =>
    cases rest
    have hshort : tail.length < HEADER_SIZE := by
      by_contra hlong
      rw [Cursor.after_header _ _ (Nat.not_lt.mp hlong)] at hcur
      cases hcur
    refine ⟨content, tail, ?_, rfl, .intro h (keptAfter_last hlast hstale) hfront head hshort⟩
    rw [List.append_nil]
    exact .intro hactive hstale hfront hoffset head.reads hshort
      fun hzero => absurd hzero (Nat.pos_iff_ne_zero.mp hlast)

section
variable {front rear : List (ℕ × Bytes)} {base offset : ℕ} {content : Bytes}
  (h : SegmentFiles s dir (front ++ (base, content) :: rear))
  (hend : ∀ f ∈ front ++ (base, content) :: rear, s.endSeen f.1 f.2.length < 2 ^ 64)
  {table : Table} {size : ℕ}
  (hrecover : MemTable.recover crc dir
    ((keptAfter s 0 (front ++ (base, content) :: rear)).map (openedSegment s)) 0 ∅ =
      .ok (table, .error (size, .corrupted (s.fileName base) offset)))
include h hend hrecover

/-- INTERNAL: of the files behind a reported corruption only unlisted ones are left. -/
theorem stale_of_deleted (hdeleted : LaterFilesDeleted crc s dir) :
    ∀ f ∈ rear.filter (fun f => ¬base + offset < s.endSeen f.1 f.2.length),
      s.endSeen f.1 f.2.length = 0 := by
  intro f hf
  obtain ⟨hf, hkeep⟩ := List.mem_filter.mp hf
  have hmem : (base, content) ∈ front ++ (base, content) :: rear := by simp
  have hfmem : f ∈ front ++ (base, content) :: rear := by simp [hf]
  by_contra hne
  have hname : s.fileName base < s.fileName f.1 := by
    have hlt := (List.pairwise_cons.mp (List.pairwise_append.mp h.sorted).2.1).1 f hf
    exact s.fileName_lt (h.dvd _ hmem) (h.dvd f hfmem) hlt (h.lt f hfmem)
  have hparse : parseBaseLsn (s.fileName base) s.val = .ok base := by
    rw [s.parseBaseLsn_fileName (h.lt _ hmem), s.baseOf_of_dvd (h.dvd _ hmem)]
  have hseen : ∀ n, finalEntryAfter (s.fileName f.1) f.2.length n =
      .ok (decide (n < s.endSeen f.1 f.2.length)) := by
    intro n
    rw [s.finalEntryAfter_fileName (h.lt f hfmem) (h.size_le f hfmem), if_pos (hend f hfmem)]
  have hfile : (s.fileName f.1, f.2) ∈ dir.files :=
    h.files.mem_iff.mpr (List.mem_map.mpr ⟨f, hfmem, rfl⟩)
  have hgone := hdeleted _ _ _ _ _ _ (h.findAndOpenSegments_eq hend 0) hrecover hparse _ hfile
    hname (by rw [hseen, decide_eq_true (Nat.pos_of_ne_zero hne)])
  rw [hseen] at hgone
  exact of_decide_eq_true hkeep (of_decide_eq_true (Except.ok.inj hgone))

/-- INTERNAL: a start that finds a corrupted record cuts its file off there and goes on in it. -/
theorem start_settles_repaired (hfaults : dir.faults = [])
    (hlast : 0 < s.endSeen base content.length) {es : List WalEntry} (htable : table = tableOf es)
    (hread : ReadUpTo crc s (keptAfter s 0 front) content offset es)
    (hstart : MemTable.start crc dir s.val 0 maxSize = .ok w)
    (hdeleted : LaterFilesDeleted crc s dir) :
    Settled crc s w.wal (content.take offset) [] es ∧ w.table = tableOf es := by
  have hstale := stale_of_deleted h hend hrecover hdeleted
  have hmem : (base, content) ∈ front ++ (base, content) :: rear := by simp
  have hkept : keptAfter s 0 (front ++ (base, content) :: rear) ≠ [] :=
    List.ne_nil_of_mem (List.mem_filter.mpr ⟨hmem, decide_eq_true hlast⟩)
  have hoffset := hread.offset_le
  have hnext : base + offset < 2 ^ 64 := by
    have hlt := (endSeen_lt_iff (h.dvd _ hmem) (h.lt _ hmem) (h.size_le _ hmem)).mp (hend _ hmem)
    dsimp only at hlt
    omega
  rw [← Nat.zero_mod s.val] at hrecover
  obtain ⟨wal, hrepair, hactive⟩ :=
    h.start_repair hfaults hend hkept hlast hrecover hoffset hnext maxSize
  rw [hrepair] at hstart
  cases hstart
  obtain ⟨es₀, cur, es₁, hreads, hcur, hfile, rfl, hcarry⟩ := hread.reads
  refine ⟨.intro hactive hstale hreads hcur hfile (by decide) ?_, htable⟩
  intro hzero
  have hempty := congrArg List.length (eq_nil_of_endSeen hzero)
  rw [List.length_take, List.length_nil] at hempty
  exact hcarry (by omega)

end

/-- A start that returns leaves a settled log with the table of its records, if no file behind a
reported corruption survives.
SOURCE: memtable.rs:50-89 -/
theorem start_settles {fs : List (ℕ × Bytes)} (h : SegmentFiles s dir fs)
    (hfaults : dir.faults = []) (hstart : MemTable.start crc dir s.val 0 maxSize = .ok w)
    (hdeleted : LaterFilesDeleted crc s dir) :
    ∃ content tail es, Settled crc s w.wal content tail es ∧ w.table = tableOf es ∧
      (tail = [] ∨ EndsWith crc s dir content tail) := by
  have hend : ∀ f ∈ fs, s.endSeen f.1 f.2.length < 2 ^ 64 := by
    intro f hf
    by_contra hover
    rw [h.start_panic hf hover] at hstart
    cases hstart
  by_cases hkept : keptAfter s 0 fs = []
  · obtain ⟨hsettled, htable⟩ := start_settles_fresh h hfaults hend hkept hstart
    exact ⟨[], [], [], hsettled, htable, Or.inl rfl⟩
  obtain ⟨table, res, hrecover⟩ := recover_of_start h hend hkept hstart
  have hcontent : ∀ f ∈ keptAfter s 0 fs, dir.content (s.fileName f.1) = f.2 :=
    fun f hf => h.content (List.mem_of_mem_filter hf)
  obtain ⟨es, rfl, houtcome⟩ := recover_outcome hcontent hrecover
  generalize hlisted : keptAfter s 0 fs = kept at houtcome
  cases houtcome with
  | all reads =>
    subst hlisted
    obtain ⟨content, tail, hsettled, htable, hends⟩ :=
      start_settles_clean h hfaults hend hkept hrecover reads hstart
    exact ⟨content, tail, es, hsettled, htable, Or.inr hends⟩
  | @upTo front' rear' base size offset content files upTo =>
    -- the files around the one that is cut off
    have hsplit : fs.filter (fun f => 0 < s.endSeen f.1 f.2.length) =
        front' ++ ((base, content) :: rear') := hlisted.trans files
    obtain ⟨front, rest, rfl, hfront, hrest⟩ := List.filter_eq_append_iff.mp hsplit
    obtain ⟨skipped, rear, rfl, hskipped, hf, -⟩ := List.filter_eq_cons_iff.mp hrest
    rw [← List.append_assoc] at h hend hrecover
    have hlast : 0 < s.endSeen base content.length := of_decide_eq_true hf
    have hfront_kept : keptAfter s 0 (front ++ skipped) = front' := by
      unfold keptAfter
      rw [List.filter_append, hfront, List.filter_eq_nil_iff.mpr hskipped, List.append_nil]
    rw [← hfront_kept] at upTo
    obtain ⟨hsettled, htable⟩ :=
      start_settles_repaired h hend hrecover hfaults hlast rfl upTo hstart hdeleted
    exact ⟨content.take offset, [], es, hsettled, htable, Or.inl rfl⟩

end

/-! ## Writing to a settled log -/

/-- INTERNAL: what is read grows with the file. -/
theorem buffer_append {cur : Cursor} (h : cur.offset = 0) (content more : Bytes) :
    cur.buffer (content ++ more) = cur.buffer content ++ more := by
  cases cur with
  | start k =>
    rw [Cursor.offset] at h
    simp [Cursor.buffer, h]
  | carried p => simp [Cursor.buffer]

/-- INTERNAL: a record that does not fit, behind what is left over, is handed over to the next
file. -/
theorem handed_crossing (crc : Bytes → UInt32) {e : WalEntry} (he : WellFormed e)
    {tail : Bytes} {free : ℕ}
    (htail : tail = [] ∨ tail.length + free < HEADER_SIZE) (hfull : free < recordSpan e)
    (path : String) (position : ℕ) :
    scanRecord crc (tail ++ (crossingAt e free).before (WalEntry.encode crc)) = .stop ∧
      ((tail ++ (crossingAt e free).before (WalEntry.encode crc)).length < HEADER_SIZE ∨
        tail = []) ∧
      (Cursor.after path position
        (tail ++ (crossingAt e free).before (WalEntry.encode crc))).buffer
          ((crossingAt e free).after (WalEntry.encode crc)) = e.encode crc := by
  have hlen : (e.encode crc).length = recordSpan e := encode_length crc e
  have hlong := header_lt_span he
  unfold crossingAt
  by_cases hroom : HEADER_SIZE ≤ free
  · rw [if_pos hroom]
    have hnil : tail = [] := htail.resolve_right (by omega)
    have hheader : ((e.encode crc).take HEADER_SIZE).length = HEADER_SIZE := by
      rw [List.length_take]
      omega
    have hbefore : (Crossing.mk e true (free - HEADER_SIZE)).before (WalEntry.encode crc) =
        (e.encode crc).take HEADER_SIZE ++ List.replicate (free - HEADER_SIZE) 0 := by
      simp [Crossing.before, Crossing.cut]
    rw [hnil, List.nil_append]
    refine ⟨?_, Or.inr rfl, ?_⟩
    · apply before_stop (keepsSpan_encode crc) he rfl _ (by simp)
      simp only [Crossing.cut, if_true]
      omega
    · rw [Cursor.after_header _ _ (by rw [hbefore, List.length_append]; omega), hbefore,
        List.take_left' hheader]
      simp [Cursor.buffer, Crossing.after, Crossing.cut]
  · rw [if_neg hroom]
    have hbefore : (Crossing.mk e false free).before (WalEntry.encode crc) =
        List.replicate free 0 := by
      simp [Crossing.before, Crossing.cut]
    have hshort : (tail ++ (Crossing.mk e false free).before (WalEntry.encode crc)).length <
        HEADER_SIZE := by
      rw [hbefore, List.length_append, List.length_replicate]
      obtain rfl | hshort := htail
      · rw [List.length_nil]
        omega
      · exact hshort
    refine ⟨scanRecord_short hshort, Or.inl hshort, ?_⟩
    rw [Cursor.after_short _ _ hshort]
    simp [Cursor.buffer, Crossing.after, Crossing.cut]

/-- A write keeps a log settled.
SOURCE: wal.rs:40-58 -/
theorem Settled.append {w w' : Wal} {content tail : Bytes} {es : List WalEntry} {e : WalEntry}
    (h : Settled crc s w content tail es)
    (htail : tail = [] ∨ tail.length + (s.val - content.length) < HEADER_SIZE)
    (he : WellFormed e) (hnext : w.nextSequenceNumber = .ok e.sequenceNumber)
    (hrun : (Wal.append crc e).run w = .ok () w') :
    ∃ content', Settled crc s w' content' [] (es ++ [e]) := by
  obtain @⟨front, rear, base, es₀, es₁, cur, active, stale, files, offset, reads, short,
    unlisted⟩ := h
  have hlen : (e.encode crc).length = recordSpan e := encode_length crc e
  have hlong := header_lt_span he
  have hsize := active.size_le
  have hseq : e.sequenceNumber = base + content.length := by
    rw [active.next] at hnext
    unfold checkedAdd at hnext
    split at hnext
    · exact (Except.ok.inj hnext).symm
    · cases hnext
  have hone : ∀ rest, (walFraming crc).Reads (e.encode crc ++ rest) [e] rest := by
    intro rest
    have hreads : (walFraming crc).Reads ([e].flatMap (WalEntry.encode crc) ++ rest) [e] rest :=
      reads_encode (by simpa using he) rest
    rwa [List.flatMap_singleton] at hreads
  have hbuffer := buffer_append offset content
  rw [List.append_assoc]
  obtain ⟨hfit, hactive⟩ | ⟨hfull, -, hactive⟩ := active.append_inv crc he hseq hrun
  · -- the record stands behind the others
    have hnil : tail = [] := htail.resolve_right (by omega)
    subst hnil
    refine ⟨_, .intro hactive stale files offset ?_ (by decide) ?_⟩
    · rw [hbuffer]
      have hmore := hone []
      rw [List.append_nil] at hmore
      exact (reads.append (e.encode crc)).trans hmore
    · intro hzero
      have hempty := congrArg List.length (eq_nil_of_endSeen hzero)
      rw [List.length_append, List.length_nil] at hempty
      omega
  · -- the record crosses over
    generalize hnew : s.baseOf (e.sequenceNumber + recordSpan e) = base' at hactive
    obtain ⟨hstop, hle, hjoin⟩ := handed_crossing crc he htail
      (show s.val - content.length < recordSpan e by omega) (s.fileName base)
      ((content ++ (crossingAt e (s.val - content.length)).before (WalEntry.encode crc)).length -
        (tail ++ (crossingAt e (s.val - content.length)).before (WalEntry.encode crc)).length)
    have hfile : FileReads crc cur
        (content ++ (crossingAt e (s.val - content.length)).before (WalEntry.encode crc)) es₁
        (tail ++ (crossingAt e (s.val - content.length)).before (WalEntry.encode crc)) := by
      refine ⟨?_, hstop, by rw [offset]; exact Nat.zero_le _, hle.imp_right ?_⟩
      · rw [hbuffer]
        exact reads.append _
      · rintro rfl
        simp
    have hcut : (crossingAt e (s.val - content.length)).entry = e ∧
        (crossingAt e (s.val - content.length)).cut +
          (crossingAt e (s.val - content.length)).zeros = s.val - content.length := by
      unfold crossingAt
      split
      · refine ⟨rfl, ?_⟩
        simp only [Crossing.cut, if_true]
        omega
      · simp [Crossing.cut]
    have hbefore := before_length (keepsSpan_encode crc)
      (show (crossingAt e (s.val - content.length)).cut +
        (crossingAt e (s.val - content.length)).zeros <
          recordSpan (crossingAt e (s.val - content.length)).entry by rw [hcut.1]; omega)
    have hpos := s.pos
    have hlisted : 0 < s.endSeen base
        (content ++ (crossingAt e (s.val - content.length)).before (WalEntry.encode crc)).length :=
      s.endSeen_pos _ (by rw [List.length_append]; omega)
    have hfiles := files.append (hfile.single base)
    rw [← keptAfter_last hlisted fun f hf => stale f (List.mem_of_mem_filter hf)] at hfiles
    rw [← List.append_assoc]
    refine ⟨_, .intro hactive (fun f hf => stale f (List.mem_of_mem_filter hf)) hfiles
      (Cursor.after_offset ..) ?_ (by decide) ?_⟩
    · rw [hjoin]
      have hmore := hone []
      rwa [List.append_nil] at hmore
    · intro hzero
      have hempty := congrArg List.length (eq_nil_of_endSeen hzero)
      unfold Crossing.after Crossing.cut at hempty
      rw [hcut.1, List.length_drop, List.length_nil] at hempty
      split at hempty <;> omega

end

end Rkvs.Analysis
