import Rkvs.Analysis.Durability
import Rkvs.Analysis.FailedOperations

/-!
# What a failed append leaves

An append that fails and leaves whole records keeps the log settled, so that it may go on. One that
leaves a part of a record at the end of the log keeps it readable.
-/

set_option autoImplicit false

namespace Rkvs.Analysis

open Rkvs.Library Rkvs.Model Rkvs.Interface

section
variable {crc : Bytes → UInt32} {s : SegmentSize}

/-! ## Logs that can be read -/

/-- The listed files are read as `es`, and recovery finds no record in what follows. -/
inductive Readable (crc : Bytes → UInt32) (s : SegmentSize) (dir : Dir) (es : List WalEntry) : Prop
  | intro {fs : List (ℕ × Bytes)} {cur : Cursor} (files : SegmentFiles s dir fs)
      (ends : ∀ f ∈ fs, s.endSeen f.1 f.2.length < 2 ^ 64)
      (reads : ReadsFiles crc s (.start 0) (keptAfter s 0 fs) es cur)

/-- Recovery fills the table with what can be read, whether or not it reports a part of a record.
SOURCE: memtable.rs:246-350 -/
theorem Readable.recover {dir : Dir} {es : List WalEntry} (h : Readable crc s dir es) :
    ∃ segments res, MemTable.findAndOpenSegments dir s.val 0 = .ok segments ∧
      MemTable.recover crc dir segments 0 ∅ = .ok (tableOf es, res) := by
  obtain @⟨fs, cur, files, ends, reads⟩ := h
  have hcontent : ∀ f ∈ keptAfter s 0 fs, dir.content (s.fileName f.1) = f.2 :=
    fun f hf => files.content (List.mem_of_mem_filter hf)
  have hopen := files.findAndOpenSegments_eq ends 0
  cases cur with
  | start offset => exact ⟨_, _, hopen, recover_readsFiles reads hcontent⟩
  | carried p => exact ⟨_, _, hopen, recover_leftOver reads hcontent⟩

/-- The bytes are not taken for a record where `free` bytes were left for them. -/
def Skipped (crc : Bytes → UInt32) (free : ℕ) (more : Bytes) : Prop :=
  ∀ tail : Bytes, tail = [] ∨ tail.length + free < HEADER_SIZE →
    scanRecord crc (tail ++ more) = .stop ∧ ((tail ++ more).length < HEADER_SIZE ∨ tail = [])

/-- INTERNAL: no bytes are no record. -/
theorem skipped_nil (crc : Bytes → UInt32) (free : ℕ) : Skipped crc free [] := by
  intro tail htail
  have hshort : tail.length < HEADER_SIZE := by
    obtain rfl | htail := htail
    · decide
    · omega
  rw [List.append_nil]
  exact ⟨scanRecord_short hshort, Or.inl hshort⟩

/-- INTERNAL: a part of a record, or its header and zeros. -/
theorem skipped_record {e : WalEntry} (he : WellFormed e) {free : ℕ} (hfree : HEADER_SIZE ≤ free)
    {more : Bytes} (hhead : more.length < HEADER_SIZE ∨ more.take 4 = (e.encode crc).take 4)
    (hlen : more.length < recordSpan e) : Skipped crc free more := by
  intro tail htail
  obtain rfl : tail = [] := htail.resolve_right (by omega)
  rw [List.nil_append]
  refine ⟨?_, Or.inr rfl⟩
  obtain hshort | hhead := hhead
  · exact scanRecord_short hshort
  · exact scanRecord_incomplete he hhead (by rwa [encode_length])

/-- INTERNAL: a part of the record itself. -/
theorem skipped_take {e : WalEntry} (he : WellFormed e) {free k : ℕ} (hfree : HEADER_SIZE ≤ free)
    (hk : k < recordSpan e) : Skipped crc free ((e.encode crc).take k) := by
  have hlen : (e.encode crc).length = recordSpan e := encode_length crc e
  refine skipped_record he hfree ?_ (by rw [List.length_take]; omega)
  by_cases hfour : 4 ≤ k
  · rw [List.take_take, Nat.min_eq_left hfour]
    exact Or.inr rfl
  · have hheader : HEADER_SIZE = 13 := rfl
    rw [List.length_take]
    exact Or.inl (by omega)

/-- INTERNAL: the header of a record and zeros. -/
theorem skipped_header {e : WalEntry} (he : WellFormed e) {free zeros : ℕ}
    (hfree : HEADER_SIZE ≤ free) (hzeros : HEADER_SIZE + zeros ≤ free) (hfull : free < recordSpan e) :
    Skipped crc free ((e.encode crc).take HEADER_SIZE ++ List.replicate zeros 0) := by
  have hlen : (e.encode crc).length = recordSpan e := encode_length crc e
  have htake : ((e.encode crc).take HEADER_SIZE).length = HEADER_SIZE := by
    rw [List.length_take]
    omega
  have hheader : HEADER_SIZE = 13 := rfl
  refine skipped_record he hfree (Or.inr ?_) ?_
  · rw [List.take_append_of_le_length (by omega), List.take_take]
    rfl
  · rw [List.length_append, htake, List.length_replicate]
    omega

/-- INTERNAL: zeros for which a header has no room. -/
theorem skipped_zeros {free zeros : ℕ} (hfree : free < HEADER_SIZE) (hzeros : zeros ≤ free) :
    Skipped crc free (List.replicate zeros 0) := by
  intro tail htail
  have hshort : (tail ++ List.replicate zeros 0).length < HEADER_SIZE := by
    rw [List.length_append, List.length_replicate]
    obtain rfl | htail := htail
    · rw [List.length_nil]
      omega
    · omega
  exact ⟨scanRecord_short hshort, Or.inl hshort⟩

/-- The files of a log in front of the active one, and what is read of its `content` but for the
`tail`. -/
structure ReadsUpTo (crc : Bytes → UInt32) (s : SegmentSize) (front : List (ℕ × Bytes))
    (content tail : Bytes) (es₀ es₁ : List WalEntry) (cur : Cursor) : Prop where
  files : ReadsFiles crc s (.start 0) (keptAfter s 0 front) es₀ cur
  offset : cur.offset = 0
  reads : (walFraming crc).Reads (cur.buffer content) es₁ tail
  room : tail = [] ∨ tail.length + (s.val - content.length) < HEADER_SIZE

section
variable {front rear : List (ℕ × Bytes)} {base : ℕ} {content tail more : Bytes}
  {es₀ es₁ : List WalEntry} {cur : Cursor}

/-- INTERNAL: the active file is read up to bytes that are skipped. -/
theorem ReadsUpTo.fileReads (h : ReadsUpTo crc s front content tail es₀ es₁ cur)
    (hskip : Skipped crc (s.val - content.length) more) :
    FileReads crc cur (content ++ more) es₁ (tail ++ more) := by
  obtain ⟨hstop, hshort⟩ := hskip tail h.room
  refine ⟨?_, hstop, by rw [h.offset]; exact Nat.zero_le _, hshort.imp_right ?_⟩
  · rw [buffer_append h.offset]
    exact h.reads.append more
  · rintro rfl
    simp

/-- A log with such bytes at its end is readable. -/
theorem ReadsUpTo.readable (h : ReadsUpTo crc s front content tail es₀ es₁ cur) {dir : Dir}
    (hfiles : SegmentFiles s dir (front ++ (base, content ++ more) :: rear))
    (hstale : ∀ f ∈ rear, s.endSeen f.1 f.2.length = 0)
    (hskip : Skipped crc (s.val - content.length) more)
    (hunlisted : s.endSeen base (content ++ more).length = 0 → cur.carry = none)
    (hend : base + (content ++ more).length < 2 ^ 64) : Readable crc s dir (es₀ ++ es₁) := by
  obtain ⟨cur', hreads, -⟩ := reads_listed hstale h.files (h.fileReads hskip) hunlisted
  exact .intro hfiles (end_lt_of_active hfiles hstale hend) hreads

/-- INTERNAL: a file with something in it is listed. -/
theorem listed_of_ne (hne : more ≠ []) :
    s.endSeen base (content ++ more).length = 0 → cur.carry = none := by
  intro hzero
  exact absurd (List.append_eq_nil_iff.mp (eq_nil_of_endSeen hzero)).2 hne

end

/-! ## What a failed write leaves -/

/-- A log that can be read, though its active file may have more bytes than it has counted. -/
structure Torn (crc : Bytes → UInt32) (s : SegmentSize) (w : Wal) (es : List WalEntry) : Prop where
  there : w.activeSegment.filePath ∈ w.dir.names
  sound : Sound s w
  reads : ∀ next, w.nextSequenceNumber = .ok next → Readable crc s w.dir es

/-- INTERNAL: the sizes of a log fit its segments. -/
theorem ActiveAt.sound {w : Wal} {front rear : List (ℕ × Bytes)} {base : ℕ} {content : Bytes}
    (h : ActiveAt s w front base content rear) : Sound s w := by
  refine ⟨h.maxSize, ?_, ?_⟩
  · rw [h.active]
    rfl
  · rw [h.active]
    exact h.size_le

/-- INTERNAL: no bytes are no change. -/
theorem withTail_nil {w : Wal} (h : w.activeSegment.filePath ∈ w.dir.names) :
    withTail w [] = w := by
  have hdir : w.dir.put w.activeSegment.filePath
      (w.dir.content w.activeSegment.filePath ++ []) = w.dir := by
    rw [List.append_nil]
    exact Dir.ext (Dir.putFiles_content h) rfl
  unfold withTail
  dsimp only
  rw [hdir]

/-- INTERNAL: the same for the active file. -/
theorem ActiveAt.withTail_nil {w w' : Wal} {front rear : List (ℕ × Bytes)} {base : ℕ}
    {content buf : Bytes} (h : ActiveAt s (calm w) front base content rear)
    (hleft : calm w' = withTail (calm w) (buf.take 0)) : calm w' = calm w := by
  rw [hleft]
  apply Analysis.withTail_nil
  rw [h.active]
  exact h.mem_names

/-- INTERNAL: a log whose active file was filled up before a failure can be read. -/
theorem torn_of_active {w : Wal} {front rear : List (ℕ × Bytes)} {base : ℕ}
    {content tail more : Bytes} {es₀ es₁ : List WalEntry} {cur : Cursor}
    (h : ReadsUpTo crc s front content tail es₀ es₁ cur)
    (hactive : ActiveAt s w front base (content ++ more) rear)
    (hstale : ∀ f ∈ rear, s.endSeen f.1 f.2.length = 0)
    (hskip : Skipped crc (s.val - content.length) more)
    (hunlisted : s.endSeen base (content ++ more).length = 0 → cur.carry = none) :
    Torn crc s w (es₀ ++ es₁) := by
  refine ⟨?_, hactive.sound, ?_⟩
  · rw [hactive.active]
    exact hactive.mem_names
  · intro next hnext
    rw [hactive.next] at hnext
    exact h.readable hactive.files hstale hskip hunlisted (checkedAdd_eq_ok hnext).2

/-- INTERNAL: a log of which only the front of some bytes was written can be read. -/
theorem torn_of_write {w w' : Wal} {front rear : List (ℕ × Bytes)} {base : ℕ}
    {content tail done buf : Bytes} {es₀ es₁ : List WalEntry} {cur : Cursor} {k : ℕ}
    (h : ReadsUpTo crc s front content tail es₀ es₁ cur)
    (hactive : ActiveAt s (calm w) front base (content ++ done) rear)
    (hstale : ∀ f ∈ rear, s.endSeen f.1 f.2.length = 0)
    (hleft : calm w' = withTail (calm w) (buf.take k)) (hk : k < buf.length)
    (hfit : (content ++ done).length + buf.length ≤ s.val)
    (hskip : Skipped crc (s.val - content.length) (done ++ buf.take k))
    (hne : done ++ buf.take k ≠ []) : Torn crc s (calm w') (es₀ ++ es₁) := by
  have hlen : (content ++ done ++ buf.take k).length < s.val := by
    rw [List.length_append, List.length_take]
    omega
  have hfiles := hactive.files.put rfl (content ++ done ++ buf.take k) hlen.le
  have hpath : (calm w).activeSegment.filePath = s.fileName base := by
    rw [hactive.active]
    rfl
  have hroom : base + s.val ≤ 2 ^ 64 :=
    Nat.le_of_lt_add_of_dvd (Nat.add_lt_add_right hactive.base_lt _)
      (Nat.dvd_add (hactive.files.dvd (base, content ++ done) (by simp)) (Nat.dvd_refl _))
      (s.dvd.trans (Nat.pow_dvd_pow 2 (by omega)))
  rw [hleft]
  unfold withTail
  dsimp only
  rw [hpath, hactive.content_eq]
  have hsound := hactive.sound
  refine ⟨Dir.mem_names_put.mpr (Or.inl hpath),
    ⟨hsound.segmentMaxSize, hsound.maxSize, hsound.fileSize_le⟩, fun next _ => ?_⟩
  rw [List.append_assoc] at hfiles hlen ⊢
  exact h.readable hfiles hstale hskip (listed_of_ne hne) (by omega)

/-- INTERNAL: a log that has opened an empty file behind such a file can be read, if the empty file is
not listed. -/
theorem torn_of_unlisted {w : Wal} {front rear : List (ℕ × Bytes)} {base lsn : ℕ}
    {content tail more : Bytes} {es₀ es₁ : List WalEntry} {cur : Cursor}
    (h : ReadsUpTo crc s front content tail es₀ es₁ cur)
    (hactive : ActiveAt s w (front ++ (base, content ++ more) ::
      rear.filter fun f => f.1 < s.baseOf lsn) (s.baseOf lsn) []
      (rear.filter fun f => s.baseOf lsn < f.1))
    (hstale : ∀ f ∈ rear, s.endSeen f.1 f.2.length = 0)
    (hskip : Skipped crc (s.val - content.length) more) (hne : more ≠ []) (hlsn : lsn < 2 ^ 32) :
    Torn crc s w (es₀ ++ es₁) := by
  have hthere : w.activeSegment.filePath ∈ w.dir.names := by
    rw [hactive.active]
    exact hactive.mem_names
  have hfiles := hactive.files
  rw [List.append_assoc, List.cons_append] at hfiles
  have hbase := s.baseOf_le lsn
  refine ⟨hthere, hactive.sound, fun next _ => h.readable hfiles ?_ hskip (listed_of_ne hne) ?_⟩
  · intro f hf
    obtain hf | hf := List.mem_append.mp hf
    · exact hstale f (List.mem_of_mem_filter hf)
    · obtain rfl | hf := List.mem_cons.mp hf
      · have hdiv : s.baseOf lsn / 2 ^ 32 = 0 := Nat.div_eq_of_lt (by omega)
        unfold SegmentSize.endSeen
        rw [hdiv, List.length_nil]
        simp
      · exact hstale f (List.mem_of_mem_filter hf)
  · have hmem : (base, content ++ more) ∈ front ++ (base, content ++ more) ::
        rear.filter fun f => f.1 < s.baseOf lsn := by simp
    have hadd := hactive.files.add_le hmem
    have hsize := hactive.files.size_le _ (List.mem_append_left _ hmem)
    dsimp only at hadd hsize
    omega

/-- INTERNAL: the header of a record as it is written before the rest of it. -/
theorem header_length (crc : Bytes → UInt32) {e : WalEntry} (he : WellFormed e) :
    ((e.encode crc).take HEADER_SIZE).length = HEADER_SIZE := by
  have hlen : (e.encode crc).length = recordSpan e := encode_length crc e
  have hlong := header_lt_span he
  rw [List.length_take]
  omega

section
variable {w w' : Wal} {front rear : List (ℕ × Bytes)} {base : ℕ} {content tail : Bytes}
  {es₀ es₁ : List WalEntry} {cur : Cursor} {e : WalEntry}

/-- INTERNAL: the free bytes behind a header that was written. -/
theorem ActiveAt.free_behind_header (he : WellFormed e)
    (h : ActiveAt s (calm w) front base (content ++ (e.encode crc).take HEADER_SIZE) rear) :
    s.val - content.length - HEADER_SIZE = s.val - w.activeSegment.fileSize ∧
      (content ++ (e.encode crc).take HEADER_SIZE).length = content.length + HEADER_SIZE := by
  have hlen : (content ++ (e.encode crc).take HEADER_SIZE).length =
      content.length + HEADER_SIZE := by
    rw [List.length_append, header_length crc he]
  have hsize : w.activeSegment.fileSize = content.length + HEADER_SIZE :=
    (congrArg Segment.fileSize h.active).trans hlen
  refine ⟨?_, hlen⟩
  rw [hsize, Nat.sub_sub]

/-- INTERNAL: a header and zeros are something. -/
theorem header_zeros_ne (crc : Bytes → UInt32) (he : WellFormed e) (zeros : ℕ) :
    (e.encode crc).take HEADER_SIZE ++ List.replicate zeros 0 ≠ [] := by
  intro hnil
  have hheader := header_length crc he
  rw [(List.append_eq_nil_iff.mp hnil).1] at hheader
  cases hheader

variable (he : WellFormed e) (hfree : HEADER_SIZE ≤ s.val - content.length)
  (hfull : s.val - content.length < recordSpan e)
  (h : ActiveAt s (calm w) front base (content ++ (e.encode crc).take HEADER_SIZE) rear)
include he hfree hfull h

/-- INTERNAL: of the zeros behind a header only a part was written.
SOURCE: wal.rs:48 -/
theorem torn_of_pad (hreads : ReadsUpTo crc s front content tail es₀ es₁ cur)
    (hstale : ∀ f ∈ rear, s.endSeen f.1 f.2.length = 0) {kind : ErrorKind}
    (hpad : Wal.segmentPad.run w = .error (.io kind) w') :
    (writeOutcome (s.val - w.activeSegment.fileSize) w.dir.faults).1 ≠ none ∧
      Torn crc s (calm w') (es₀ ++ es₁) := by
  obtain ⟨hfree₁, hlong⟩ := h.free_behind_header he
  have hsound : Sound s w := ⟨h.maxSize, h.sound.maxSize, h.sound.fileSize_le⟩
  obtain ⟨k, hk, hlt, hleft⟩ := segmentPad_error hsound hpad
  have htake : List.replicate k (0 : UInt8) =
      (List.replicate (s.val - w.activeSegment.fileSize) 0).take k := by
    rw [List.take_replicate, Nat.min_eq_left hlt.le]
  rw [htake] at hleft
  refine ⟨by simp [hk], torn_of_write hreads h hstale hleft (by simpa using hlt) ?_ ?_ ?_⟩
  · rw [hlong, List.length_replicate]
    omega
  · rw [← htake]
    exact skipped_header he hfree (by omega) hfull
  · rw [← htake]
    exact header_zeros_ne crc he k

/-- INTERNAL: a segment filled up behind a header.
SOURCE: wal.rs:48 -/
theorem padded_behind_header (hpad : Wal.segmentPad.run w = .ok () w') :
    ∃ more, ActiveAt s (calm w') front base (content ++ more) rear ∧
      Skipped crc (s.val - content.length) more ∧ more ≠ [] ∧
      writeOutcome (s.val - w.activeSegment.fileSize) w.dir.faults = (none, w'.dir.faults) := by
  obtain ⟨-, hlong⟩ := h.free_behind_header he
  have hsound : Sound s w := ⟨h.maxSize, h.sound.maxSize, h.sound.fileSize_le⟩
  obtain ⟨_, hrun, hactive⟩ := h.segmentPad_ok
  cases (segmentPad_replays _ _ _ hpad).symm.trans hrun
  rw [List.append_assoc] at hactive
  exact ⟨_, hactive, skipped_header he hfree (by omega) hfull, header_zeros_ne crc he _,
    segmentPad_outcome hsound hpad⟩

end

/-- INTERNAL: the parts of a settled log. -/
theorem Settled.readsUpTo {w : Wal} {content tail : Bytes} {es : List WalEntry}
    (h : Settled crc s w content tail es)
    (hroom : tail = [] ∨ tail.length + (s.val - content.length) < HEADER_SIZE) :
    ∃ front rear base es₀ es₁ cur, ActiveAt s w front base content rear ∧
      (∀ f ∈ rear, s.endSeen f.1 f.2.length = 0) ∧
      ReadsUpTo crc s front content tail es₀ es₁ cur ∧
      (s.endSeen base content.length = 0 → cur.carry = none) ∧ es = es₀ ++ es₁ := by
  obtain @⟨front, rear, base, es₀, es₁, cur, active, stale, files, offset, reads, -, unlisted⟩ := h
  exact ⟨front, rear, base, es₀, es₁, cur, active, stale, ⟨files, offset, reads, hroom⟩, unlisted,
    rfl⟩

section
variable {w w' : Wal} {content tail : Bytes} {es : List WalEntry}

/-- INTERNAL: a settled log can be read. -/
theorem Settled.torn (h : Settled crc s w content tail es)
    (hroom : tail = [] ∨ tail.length + (s.val - content.length) < HEADER_SIZE) :
    Torn crc s w es := by
  obtain ⟨front, rear, base, es₀, es₁, cur, hactive, hstale, hreads, hunlisted, rfl⟩ :=
    h.readsUpTo hroom
  rw [← List.append_nil content] at hactive hunlisted
  exact torn_of_active hreads hactive hstale (skipped_nil crc _) hunlisted

/-- INTERNAL: bytes of which only a part was written to a settled log. -/
theorem Settled.cut (h : Settled crc s (calm w) content tail es)
    (hroom : tail = [] ∨ tail.length + (s.val - content.length) < HEADER_SIZE) {buf : Bytes} {k : ℕ}
    (hleft : calm w' = withTail (calm w) (buf.take k)) (hk : k < buf.length)
    (hfit : content.length + buf.length ≤ s.val)
    (hskip : Skipped crc (s.val - content.length) (buf.take k)) (hpos : 0 < k) :
    Torn crc s (calm w') es := by
  obtain ⟨front, rear, base, es₀, es₁, cur, hactive, hstale, hreads, -, rfl⟩ :=
    h.readsUpTo hroom
  rw [← List.append_nil content] at hactive hfit
  refine torn_of_write hreads hactive hstale hleft hk hfit hskip ?_
  rw [List.nil_append]
  intro hnil
  have hlen := congrArg List.length hnil
  rw [List.length_take, List.length_nil] at hlen
  omega

/-- INTERNAL: a settled log is left as it was if no bytes were written. -/
theorem Settled.uncut (h : Settled crc s (calm w) content tail es) {buf : Bytes}
    (hleft : calm w' = withTail (calm w) (buf.take 0)) : calm w' = calm w := by
  obtain @⟨front, rear, base, es₀, es₁, cur, active⟩ := h
  exact active.withTail_nil hleft

/-- INTERNAL: a settled log is settled when its active file has been filled with zeros for which a
header has no room.
SOURCE: wal/segment.rs:108-113 -/
theorem Settled.pad (h : Settled crc s w content tail es)
    (hroom : tail = [] ∨ tail.length + (s.val - content.length) < HEADER_SIZE)
    (hfree : s.val - content.length < HEADER_SIZE) (hrun : Wal.segmentPad.run w = .ok () w') :
    w'.activeSegment.baseLsn = w.activeSegment.baseLsn ∧
      ∃ content' tail', Settled crc s w' content' tail' es ∧ content'.length = s.val ∧
        tail'.length < HEADER_SIZE := by
  obtain ⟨front, rear, base, es₀, es₁, cur, hactive, hstale, hreads, -, rfl⟩ :=
    h.readsUpTo hroom
  have hskip := @skipped_zeros crc _ _ hfree (le_refl (s.val - content.length))
  have hfile := hreads.fileReads hskip
  have hshort : (tail ++ List.replicate (s.val - content.length) 0).length < HEADER_SIZE := by
    obtain hshort | rfl := (hskip tail hroom).2
    · exact hshort
    · simpa using hfree
  have hpos := s.pos
  have hsize := hactive.size_le
  have hfull : (content ++ List.replicate (s.val - content.length) 0).length = s.val := by
    rw [List.length_append, List.length_replicate]
    omega
  obtain ⟨w₁, hrun₁, hactive₁⟩ := hactive.segmentPad_ok
  rw [hrun] at hrun₁
  cases hrun₁
  refine ⟨by rw [hactive₁.active, hactive.active]; rfl, _, _,
    .intro hactive₁ hstale hreads.files hreads.offset hfile.reads hshort ?_, hfull, hshort⟩
  intro hzero
  have hlisted := s.endSeen_pos base (hpos.trans_eq hfull.symm)
  omega

/-- INTERNAL: a settled log whose active file is full is settled in the next segment.
SOURCE: wal.rs:64-71 -/
theorem Settled.rotate (h : Settled crc s w content tail es) (hfull : content.length = s.val)
    (hshort : tail.length < HEADER_SIZE) {lsn : ℕ} (hlsn : lsn < 2 ^ 64)
    (hpast : w.activeSegment.baseLsn < s.baseOf lsn)
    (hrun : (Wal.rotate lsn).run w = .ok () w') : Settled crc s w' [] [] es := by
  obtain @⟨front, rear, base, es₀, es₁, cur, active, stale, files, offset, reads, -, -⟩ := h
  have hbase : base < s.baseOf lsn := by
    rw [active.active] at hpast
    exact hpast
  obtain ⟨w₁, hrun₁, hactive₁⟩ := active.rotate_ok hlsn hbase
  rw [hrun] at hrun₁
  cases hrun₁
  have hstale : ∀ f ∈ rear.filter (fun f => f.1 < s.baseOf lsn), s.endSeen f.1 f.2.length = 0 :=
    fun f hf => stale f (List.mem_of_mem_filter hf)
  have hfile : FileReads crc cur content es₁ tail :=
    ⟨reads, scanRecord_short hshort, by rw [offset]; exact Nat.zero_le _, Or.inl hshort⟩
  have hlisted : 0 < s.endSeen base content.length :=
    s.endSeen_pos base (s.pos.trans_eq hfull.symm)
  have hall := files.append (hfile.single base)
  rw [← keptAfter_last hlisted hstale, Cursor.after_short _ _ hshort] at hall
  have hsettled : Settled crc s w' [] [] ((es₀ ++ es₁) ++ []) :=
    .intro hactive₁ (fun f hf => stale f (List.mem_of_mem_filter hf)) hall rfl (.done [])
      (by decide) fun _ => rfl
  rwa [List.append_nil] at hsettled

/-- A log in which what was accepted can be found again: one that writes may go on in, or one that is
torn. -/
inductive Intact (crc : Bytes → UInt32) (s : SegmentSize) (w : Wal) (es : List WalEntry) :
    Bool → Prop
  | whole {content tail : Bytes} (settled : Settled crc s w content tail es)
      (room : tail = [] ∨ tail.length + (s.val - content.length) < HEADER_SIZE) :
      Intact crc s w es false
  | torn (h : Torn crc s w es) : Intact crc s w es true

section
variable {e : WalEntry} {kind : ErrorKind} {r : Remains}
  (h : Settled crc s (calm w) content tail es)
  (hroom : tail = [] ∨ tail.length + (s.val - content.length) < HEADER_SIZE)
include h hroom

/-- INTERNAL: bytes that were all to go to the active file. -/
theorem Settled.wrote {buf : Bytes} {k : ℕ} (hleft : calm w' = withTail (calm w) (buf.take k))
    (hk : k < buf.length) (hfit : content.length + buf.length ≤ s.val)
    (hskip : Skipped crc (s.val - content.length) (buf.take k))
    (hr : .ofWrite (some k) = r) : Intact crc s (calm w') es (decide (r = .torn)) := by
  subst hr
  cases k with
  | zero =>
    rw [h.uncut hleft]
    exact .whole h hroom
  | succ k => exact .torn (h.cut hroom hleft hk hfit hskip (Nat.succ_pos k))

variable (he : WellFormed e)
include he

/-- INTERNAL: a record for which there is room.
SOURCE: wal.rs:44-45 -/
theorem Settled.failed_fits (hfit : recordSpan e ≤ s.val - content.length)
    (hle : content.length ≤ s.val)
    (hrun : (Wal.segmentAppend (e.encode crc)).run w = .error (.io kind) w')
    (hr : .ofWrite (writeOutcome (recordSpan e) w.dir.faults).1 = r) :
    Intact crc s (calm w') es (decide (r = .torn)) := by
  have hlen : (e.encode crc).length = recordSpan e := encode_length crc e
  have hlong := header_lt_span he
  obtain ⟨k, hk, hlt, -, hleft⟩ := segmentAppend_error hrun
  rw [hlen] at hk hlt
  rw [hk] at hr
  exact h.wrote hroom hleft (by omega) (by omega) (skipped_take he (by omega) hlt) hr

/-- INTERNAL: a record whose header has no room.
SOURCE: wal.rs:52-55 -/
theorem Settled.failed_whole (hfree : s.val - content.length < HEADER_SIZE)
    (hseq : e.sequenceNumber = w.activeSegment.baseLsn + content.length)
    (hrun : (do
      Wal.segmentPad
      Wal.rotate (← liftExec (checkedAdd 64 e.sequenceNumber (recordSpan e)))
      Wal.segmentAppend (e.encode crc)).run w = .error (.io kind) w')
    (hr : (let zeros := writeOutcome (s.val - content.length) w.dir.faults
      if zeros.1 ≠ none then Remains.ofWrite zeros.1
      else if zeros.2.headD .ok ≠ .ok then .whole
      else .ofWrite (writeOutcome (recordSpan e) zeros.2.tail).1) = r) :
    Intact crc s (calm w') es (decide (r = .torn)) := by
  have hlen : (e.encode crc).length = recordSpan e := encode_length crc e
  have hlong := header_lt_span he
  obtain ⟨front, rear, base, es₀, es₁, cur, hactive, -⟩ := h.readsUpTo hroom
  have hle := hactive.size_le
  have hsize : w.activeSegment.fileSize = content.length := congrArg Segment.fileSize hactive.active
  have hsound : Sound s w :=
    ⟨hactive.maxSize, hactive.sound.maxSize, hactive.sound.fileSize_le⟩
  dsimp only at hr
  rw [← hsize] at hr
  obtain hpad | ⟨_, w₁, hpad, hrun⟩ := run_bind_eq_error hrun
  · -- a part of the zeros was written
    obtain ⟨k, hk, hlt, hleft⟩ := segmentPad_error hsound hpad
    rw [hk, if_pos (by simp)] at hr
    rw [hsize] at hlt
    have htake : List.replicate k (0 : UInt8) =
        (List.replicate (s.val - content.length) 0).take k := by
      rw [List.take_replicate, Nat.min_eq_left hlt.le]
    rw [htake] at hleft
    refine h.wrote hroom hleft (by simpa using hlt) (by simp; omega) ?_ hr
    rw [← htake]
    exact skipped_zeros hfree hlt.le
  have hcalm := segmentPad_replays _ _ _ hpad
  obtain ⟨hbase, content₁, tail₁, h₁, hfull₁, hshort₁⟩ := h.pad hroom hfree hcalm
  have hroom₁ : tail₁ = [] ∨ tail₁.length + (s.val - content₁.length) < HEADER_SIZE :=
    Or.inr (by omega)
  rw [segmentPad_outcome hsound hpad, if_neg (by simp)] at hr
  dsimp only at hr
  obtain hlsn | ⟨lsn, w₁', hlsn, hrun⟩ := run_bind_eq_error hrun
  · exact absurd (run_liftExec_eq_error hlsn).1 checkedAdd_ne_io
  obtain ⟨hlsn, hmid⟩ := run_liftExec_eq_ok hlsn
  obtain ⟨rfl, hroom_lsn⟩ := checkedAdd_eq_ok hlsn
  rw [hmid] at hrun
  have hmax : w₁.segmentMaxSize = s.val := by
    obtain @⟨_, _, _, _, _, _, active₁⟩ := h₁
    exact active₁.maxSize
  obtain hrotate | ⟨_, w₂, hrotate, hrun⟩ := run_bind_eq_error hrun
  · -- the next file was not created
    obtain ⟨hfails, hsame⟩ := rotate_error hmax hroom_lsn hrotate
    rw [if_pos hfails] at hr
    subst hr
    rw [hsame]
    exact .whole h₁ hroom₁
  obtain ⟨hcreated, hevents⟩ := rotate_outcome hrotate
  rw [if_neg (not_not.mpr hcreated), ← hevents] at hr
  have hpast : (calm w₁).activeSegment.baseLsn <
      s.baseOf (e.sequenceNumber + recordSpan e) := by
    have hlt := s.lt_baseOf_add (e.sequenceNumber + recordSpan e)
    have hsame : (calm w).activeSegment.baseLsn = w.activeSegment.baseLsn := rfl
    omega
  have h₂ := h₁.rotate hfull₁ hshort₁ hroom_lsn hpast (rotate_replays _ _ _ _ hrotate)
  -- a part of the record was written to it
  obtain ⟨k, hk, hlt, hfits, hleft⟩ := segmentAppend_error hrun
  have hshort : recordSpan e < 2 ^ 32 := he.length_lt
  have hempty : w₂.activeSegment.fileSize = 0 ∧ w₂.activeSegment.maxSize = s.val := by
    obtain @⟨_, _, _, _, _, _, active₂⟩ := h₂
    exact ⟨congrArg Segment.fileSize active₂.active, congrArg Segment.maxSize active₂.active⟩
  rw [hempty.1, hempty.2, hlen, Nat.mod_eq_of_lt hshort, Nat.zero_add] at hfits
  rw [hlen] at hk hlt
  rw [hk] at hr
  refine h₂.wrote (Or.inl rfl) hleft (by omega) (by simpa [hlen] using hfits) ?_ hr
  rw [List.length_nil, Nat.sub_zero]
  exact skipped_take he (by omega) hlt

/-- INTERNAL: a record whose header has room, of which a part of the header was written.
SOURCE: wal.rs:46-47 -/
theorem Settled.failed_header (hfree : HEADER_SIZE ≤ s.val - content.length)
    (hrun : (Wal.segmentAppend ((e.encode crc).take HEADER_SIZE)).run w = .error (.io kind) w') :
    ∃ k, (writeOutcome HEADER_SIZE w.dir.faults).1 = some k ∧
      Intact crc s (calm w') es (decide (Remains.ofWrite (some k) = .torn)) := by
  have hheader := header_length crc he
  obtain ⟨k, hk, hlt, -, hleft⟩ := segmentAppend_error hrun
  rw [hheader] at hk hlt
  have hlong := header_lt_span he
  refine ⟨k, hk, h.wrote hroom hleft (by omega) (by omega) ?_ rfl⟩
  rw [List.take_take, Nat.min_eq_left hlt.le]
  exact skipped_take he hfree (by omega)

/-- INTERNAL: a record whose header has room.
SOURCE: wal.rs:46-51 -/
theorem Settled.failed_split (hfree : HEADER_SIZE ≤ s.val - content.length)
    (hseq : e.sequenceNumber = w.activeSegment.baseLsn + content.length)
    (hfull : s.val - content.length < recordSpan e)
    (hrun : (do
      Wal.segmentAppend ((e.encode crc).take HEADER_SIZE)
      Wal.segmentPad
      Wal.rotate (← liftExec (checkedAdd 64 e.sequenceNumber (recordSpan e)))
      Wal.segmentAppend ((e.encode crc).drop HEADER_SIZE)).run w = .error (.io kind) w')
    (hr : (let header := writeOutcome HEADER_SIZE w.dir.faults
      let zeros := writeOutcome (s.val - content.length - HEADER_SIZE) header.2
      let rest := writeOutcome (recordSpan e - HEADER_SIZE) zeros.2.tail
      if header.1 = some 0 then Remains.whole
      else if header.1 ≠ none ∨ zeros.1 ≠ none ∨ zeros.2.headD .ok ≠ .ok then .torn
      else if rest.1 = none then .whole
      else if rest.1 = some 0 ∧ e.sequenceNumber + recordSpan e < 2 ^ 32 then .torn
      else .straddling) = r) (hnot : r ≠ .straddling) :
    Intact crc s (calm w') es (decide (r = .torn)) := by
  have hheader := header_length crc he
  dsimp only at hr
  obtain hfirst | ⟨_, w₁, hfirst, hrun⟩ := run_bind_eq_error hrun
  · obtain ⟨k, hk, hleft⟩ := h.failed_header hroom he hfree hfirst
    rw [hk] at hr
    cases k with
    | zero =>
      rw [if_pos rfl] at hr
      exact hr ▸ hleft
    | succ k =>
      rw [if_neg (by simp), if_pos (Or.inl (by simp))] at hr
      exact hr ▸ hleft
  obtain ⟨front, rear, base, es₀, es₁, cur, hactive, hstale, hreads, -, rfl⟩ := h.readsUpTo hroom
  have hle := hactive.size_le
  have hbase : base = w.activeSegment.baseLsn :=
    (congrArg Segment.baseLsn hactive.active).symm
  obtain ⟨_, hrun₁, hactive₁⟩ :=
    hactive.segmentAppend_ok ((e.encode crc).take HEADER_SIZE) (by rw [hheader]; omega)
  cases (segmentAppend_replays _ _ _ _ hfirst).symm.trans hrun₁
  have houtcome₁ := segmentAppend_outcome hfirst
  rw [hheader] at houtcome₁
  rw [houtcome₁, if_neg (by simp)] at hr
  dsimp only at hr
  rw [(hactive₁.free_behind_header he).1] at hr
  obtain hpad | ⟨_, w₂, hpad, hrun⟩ := run_bind_eq_error hrun
  · -- a part of the zeros was written
    obtain ⟨hfails, htorn⟩ := torn_of_pad he hfree hfull hactive₁ hreads hstale hpad
    rw [if_pos (Or.inr (Or.inl hfails))] at hr
    exact hr ▸ .torn htorn
  obtain ⟨more, hactive₂, hskip, hne, houtcome₂⟩ := padded_behind_header he hfree hfull hactive₁ hpad
  rw [houtcome₂] at hr
  dsimp only at hr
  obtain hlsn | ⟨lsn, w₂', hlsn, hrun⟩ := run_bind_eq_error hrun
  · exact absurd (run_liftExec_eq_error hlsn).1 checkedAdd_ne_io
  obtain ⟨hlsn, hmid⟩ := run_liftExec_eq_ok hlsn
  obtain ⟨rfl, hroom_lsn⟩ := checkedAdd_eq_ok hlsn
  rw [hmid] at hrun
  obtain hrotate | ⟨_, w₃, hrotate, hrun⟩ := run_bind_eq_error hrun
  · -- the next file was not created
    have hmax : w₂.segmentMaxSize = s.val := hactive₂.maxSize
    obtain ⟨hfails, hsame⟩ := rotate_error hmax hroom_lsn hrotate
    rw [if_pos (Or.inr (Or.inr hfails))] at hr
    rw [hsame]
    exact hr ▸ .torn (torn_of_active hreads hactive₂ hstale hskip (listed_of_ne hne))
  -- something of the rest is missing in the next file
  obtain ⟨hcreated, hevents⟩ := rotate_outcome hrotate
  have hpast : base < s.baseOf (e.sequenceNumber + recordSpan e) := by
    have hlt := s.lt_baseOf_add (e.sequenceNumber + recordSpan e)
    omega
  obtain ⟨_, hrun₃, hactive₃⟩ := hactive₂.rotate_ok hroom_lsn hpast
  cases (rotate_replays _ _ _ _ hrotate).symm.trans hrun₃
  obtain ⟨k, hk, hlt, -, hleft⟩ := segmentAppend_error hrun
  have hlen : (e.encode crc).length = recordSpan e := encode_length crc e
  rw [List.length_drop, hlen] at hk
  have hpassed : ¬((none : Option ℕ) ≠ none ∨ (none : Option ℕ) ≠ none ∨
      w₂.dir.faults.headD .ok ≠ .ok) := by
    rintro (hbad | hbad | hbad)
    · exact hbad rfl
    · exact hbad rfl
    · exact hbad hcreated
  rw [if_neg hpassed, ← hevents, hk, if_neg (Option.some_ne_none k)] at hr
  by_cases hnothing : some k = some 0 ∧ e.sequenceNumber + recordSpan e < 2 ^ 32
  · obtain rfl := Option.some.inj hnothing.1
    rw [if_pos hnothing] at hr
    rw [hactive₃.withTail_nil hleft]
    exact hr ▸ .torn (torn_of_unlisted hreads hactive₃ hstale hskip hne hnothing.2)
  · rw [if_neg hnothing] at hr
    exact absurd hr.symm hnot

omit hroom he in
/-- INTERNAL: what a log reads off its active segment. -/
theorem Settled.segment : w.activeSegment.fileSize = content.length ∧ Sound s w := by
  obtain @⟨_, _, _, _, _, _, active⟩ := h
  exact ⟨congrArg Segment.fileSize active.active,
    ⟨active.maxSize, active.sound.maxSize, active.sound.fileSize_le⟩⟩

/-- What an append that fails leaves of a settled log.
SOURCE: wal.rs:40-58 -/
theorem Settled.failed
    (hseq : e.sequenceNumber = w.activeSegment.baseLsn + w.activeSegment.fileSize)
    (hrun : (Wal.append crc e).run w = .error (.io kind) w')
    (hr : remains e.sequenceNumber (w.activeSegment.maxSize - w.activeSegment.fileSize)
      (recordSpan e) w.dir.faults = r) (hnot : r ≠ .straddling) :
    Intact crc s (calm w') es (decide (r = .torn)) := by
  obtain ⟨hsize, hsound⟩ := h.segment
  have hle := hsound.fileSize_le
  rw [append_branches he (hsound.maxSize ▸ hle), hsound.maxSize, hsize] at hrun
  rw [hsound.maxSize, hsize] at hr
  rw [hsize] at hseq hle
  unfold remains at hr
  by_cases hfit : recordSpan e ≤ s.val - content.length
  · rw [if_pos hfit] at hrun hr
    exact h.failed_fits hroom he hfit hle hrun hr
  rw [if_neg hfit] at hrun hr
  by_cases hheader : HEADER_SIZE ≤ s.val - content.length
  · rw [if_pos hheader] at hrun hr
    exact h.failed_split hroom he hheader hseq (Nat.not_le.mp hfit) hrun hr hnot
  · rw [if_neg hheader] at hrun hr
    exact h.failed_whole hroom he (Nat.not_le.mp hheader) hseq hrun hr

end

end

/-! ## Appending to an intact log -/

section
variable {w w' : Wal} {e : WalEntry} {kind : ErrorKind}

/-- INTERNAL: appending no bytes does nothing. -/
theorem segmentAppend_nil (h : Sound s w) : (Wal.segmentAppend []).run w = .ok () w := by
  have hlt := s.lt
  have hle := h.fileSize_le
  have hadd : checkedAdd 32 w.activeSegment.fileSize (([] : Bytes).length % 2 ^ 32) =
      .ok w.activeSegment.fileSize := checkedAdd_ok (by simp; omega)
  have hwrite : (Dir.writeAll w.activeSegment.filePath []).run w.dir = .ok () w.dir := rfl
  unfold Wal.segmentAppend
  rw [run_bind_ok (EStateM.run_get w)]
  dsimp only
  rw [hadd, run_bind_ok (run_liftExec_ok ..), assert_true (h.maxSize ▸ hle),
    run_bind_ok (run_liftExec_ok ..), run_bind_ok (run_onPart_ok Wal.dirPart hwrite)]
  rfl

/-- The computation does not return, and an I/O error leaves the log as it was. -/
def ChangesNothing (x : EStateM Fault Wal Unit) (w : Wal) : Prop :=
  (∀ w', x.run w ≠ .ok () w') ∧ ∀ kind w', x.run w = .error (.io kind) w' → calm w' = calm w

/-- INTERNAL: no step follows a failure. -/
theorem ChangesNothing.bind {x : EStateM Fault Wal Unit} {f : Unit → EStateM Fault Wal Unit}
    (h : ChangesNothing x w) : ChangesNothing (x >>= f) w := by
  constructor
  · intro w' hrun
    obtain ⟨_, mid, hfirst, -⟩ := run_bind_eq_ok hrun
    exact h.1 mid hfirst
  · intro kind w' hrun
    obtain hfirst | ⟨_, mid, hfirst, -⟩ := run_bind_eq_error hrun
    · exact h.2 kind w' hfirst
    · exact absurd hfirst (h.1 mid)

/-- INTERNAL: bytes none of which were written. -/
theorem segmentAppend_nothing {buf : Bytes} (hthere : w.activeSegment.filePath ∈ w.dir.names)
    (hnothing : (writeOutcome buf.length w.dir.faults).1 = some 0) :
    ChangesNothing (Wal.segmentAppend buf) w := by
  constructor
  · intro w' hrun
    rw [segmentAppend_outcome hrun] at hnothing
    cases hnothing
  · intro kind w' hrun
    obtain ⟨k, hk, -, -, hleft⟩ := segmentAppend_error hrun
    rw [hnothing] at hk
    cases hk
    rw [hleft]
    exact withTail_nil hthere

/-- INTERNAL: zeros none of which were written. -/
theorem segmentPad_nothing (h : Sound s w) (hthere : w.activeSegment.filePath ∈ w.dir.names)
    (hnothing : (writeOutcome (s.val - w.activeSegment.fileSize) w.dir.faults).1 = some 0) :
    ChangesNothing Wal.segmentPad w := by
  have hzeros : ChangesNothing
      (Wal.segmentAppend (List.replicate (s.val - w.activeSegment.fileSize) 0)) w :=
    segmentAppend_nothing hthere (by rwa [List.length_replicate])
  unfold ChangesNothing at hzeros ⊢
  rwa [segmentPad_run h]

/-- INTERNAL: a file that was not created. -/
theorem rotate_nothing (h : Sound s w) {lsn : ℕ} (hlsn : lsn < 2 ^ 64)
    (hfails : w.dir.faults.headD .ok ≠ .ok) : ChangesNothing (Wal.rotate lsn) w :=
  ⟨fun _ hrun => hfails (rotate_outcome hrun).1,
    fun _ _ hrun => (rotate_error h.segmentMaxSize hlsn hrun).2⟩

/-- An append that writes nothing fails and leaves the log as it was.
SOURCE: wal.rs:40-58 -/
theorem append_nothing (h : Sound s w) (hthere : w.activeSegment.filePath ∈ w.dir.names)
    (he : WellFormed e) (hnothing : WritesNothing
      (w.activeSegment.maxSize - w.activeSegment.fileSize) (recordSpan e) w.dir.faults) :
    ChangesNothing (Wal.append crc e) w := by
  have hlen : (e.encode crc).length = recordSpan e := encode_length crc e
  have hlong := header_lt_span he
  unfold WritesNothing at hnothing
  unfold ChangesNothing
  rw [append_branches he (h.maxSize ▸ h.fileSize_le)]
  by_cases hfit : recordSpan e ≤ w.activeSegment.maxSize - w.activeSegment.fileSize
  · rw [if_pos hfit] at hnothing ⊢
    exact segmentAppend_nothing hthere (hlen ▸ hnothing)
  rw [if_neg hfit] at hnothing ⊢
  by_cases hheader : HEADER_SIZE ≤ w.activeSegment.maxSize - w.activeSegment.fileSize
  · rw [if_pos hheader] at hnothing ⊢
    refine (segmentAppend_nothing hthere ?_).bind
    rwa [List.length_take, hlen, Nat.min_eq_left hlong.le]
  rw [if_neg hheader, h.maxSize] at hnothing
  rw [if_neg hheader]
  obtain hzeros | ⟨hfull, hfails⟩ := hnothing
  · exact (segmentPad_nothing h hthere hzeros).bind
  · -- the segment is full, so its zeros are none
    have hpad : Wal.segmentPad.run w = .ok () w := by
      rw [segmentPad_run h, hfull]
      exact segmentAppend_nil h
    rw [run_bind_ok hpad]
    by_cases hlsn : e.sequenceNumber + recordSpan e < 2 ^ 64
    · rw [checkedAdd_ok hlsn, run_bind_ok (run_liftExec_ok ..)]
      exact (rotate_nothing h hlsn hfails).bind
    · have hover : checkedAdd 64 e.sequenceNumber (recordSpan e) = .error .panic := if_neg hlsn
      rw [hover, run_bind_error (run_liftExec_error ..)]
      constructor
      · intro w' hrun
        cases hrun
      · intro kind w' hrun
        cases hrun

/-- INTERNAL: the same for a torn log. -/
theorem Torn.append_nothing {es : List WalEntry} (h : Torn crc s (calm w) es) (he : WellFormed e)
    (hnothing : WritesNothing (w.activeSegment.maxSize - w.activeSegment.fileSize) (recordSpan e)
      w.dir.faults) : ChangesNothing (Wal.append crc e) w := by
  have hsound : Sound s w := ⟨h.sound.segmentMaxSize, h.sound.maxSize, h.sound.fileSize_le⟩
  have hthere : w.activeSegment.filePath ∈ w.dir.names := h.there
  exact Analysis.append_nothing hsound hthere he hnothing

end

section
variable {w w' : Wal} {e : WalEntry} {es : List WalEntry} {damaged : Bool}
  (h : Intact crc s (calm w) es damaged)
include h

/-- INTERNAL: a log that may go on can be read. -/
theorem Intact.weaken (hwhole : damaged = false) (b : Bool) : Intact crc s (calm w) es b := by
  subst hwhole
  obtain @⟨_, _, settled, room⟩ := h
  cases b with
  | false => exact .whole settled room
  | true => exact .torn (settled.torn room)

/-- INTERNAL: the sizes of an intact log. -/
theorem Intact.sound : Sound s w := by
  cases h with
  | whole settled _ => exact settled.segment.2
  | torn h => exact ⟨h.sound.segmentMaxSize, h.sound.maxSize, h.sound.fileSize_le⟩

variable (he : WellFormed e) (hnext : w.nextSequenceNumber = .ok e.sequenceNumber)
  (hgood : if damaged then
      WritesNothing (w.activeSegment.maxSize - w.activeSegment.fileSize) (recordSpan e) w.dir.faults
    else remains e.sequenceNumber (w.activeSegment.maxSize - w.activeSegment.fileSize)
      (recordSpan e) w.dir.faults ≠ .straddling)
include he hnext hgood

/-- An append that returns adds its entry to an intact log, which was not torn.
SOURCE: wal.rs:40-58 -/
theorem Intact.appended (hrun : (Wal.append crc e).run w = .ok () w') (b : Bool) :
    damaged = false ∧ Intact crc s (calm w') (es ++ [e]) b := by
  cases h with
  | whole settled room =>
    obtain ⟨content', hsettled⟩ :=
      settled.append room he hnext (append_replays _ _ _ _ _ hrun)
    exact ⟨rfl, Intact.weaken (.whole hsettled (Or.inl rfl)) rfl b⟩
  | torn htorn => exact absurd hrun ((htorn.append_nothing he hgood).1 w')

/-- An append that fails leaves an intact log with the same entries.
SOURCE: wal.rs:40-58 -/
theorem Intact.failed {kind : ErrorKind}
    (hrun : (Wal.append crc e).run w = .error (.io kind) w') :
    Intact crc s (calm w') es (damaged || decide (remains e.sequenceNumber
      (w.activeSegment.maxSize - w.activeSegment.fileSize) (recordSpan e) w.dir.faults =
        .torn)) := by
  cases h with
  | whole settled room =>
    exact settled.failed room he (checkedAdd_eq_ok hnext).1.symm hrun rfl hgood
  | torn htorn =>
    rw [(htorn.append_nothing he hgood).2 kind w' hrun]
    exact .torn htorn

end

end

end Rkvs.Analysis
