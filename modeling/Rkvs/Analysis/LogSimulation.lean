import Rkvs.Analysis.WalAppend

/-!
# Every log has an image

A history on a fresh log leaves the files and the records of a log image: each operation adds
a record to the active segment or starts a new segment with the record that crosses over, and
reopening changes nothing.
-/

set_option autoImplicit false

namespace Rkvs.Analysis

open Rkvs.Library Rkvs.Model Rkvs.Interface

/-! ## Lists of segments -/

/-- Entries are written with as many bytes as their records have. -/
def KeepsSpan (enc : WalEntry → Bytes) : Prop := ∀ e, (enc e).length = recordSpan e

/-- INTERNAL: an encoded entry has the length of its record. -/
theorem keepsSpan_encode (crc : Bytes → UInt32) : KeepsSpan (WalEntry.encode crc) :=
  encode_length crc

/-- INTERNAL: whole records take as many bytes as they are long. -/
theorem flatMap_length {enc : WalEntry → Bytes} (h : KeepsSpan enc) (es : List WalEntry) :
    (es.flatMap enc).length = spanOf es := by
  induction es with
  | nil => rfl
  | cons e es ih =>
    rw [List.flatMap_cons, List.length_append, h e, ih]
    simp [spanOf]

/-- INTERNAL: the length of two lists of entries. -/
theorem spanOf_append (es es' : List WalEntry) : spanOf (es ++ es') = spanOf es + spanOf es' := by
  simp [spanOf]

/-- INTERNAL: the length of what crosses over. -/
theorem lead_length {enc : WalEntry → Bytes} (h : KeepsSpan enc) (img : SegmentImage) :
    (img.lead enc).length = img.leadSpan := by
  unfold SegmentImage.lead SegmentImage.leadSpan
  cases img.crossing with
  | none => rfl
  | some c =>
    show ((enc c.entry).drop c.cut).length = _
    rw [List.length_drop, h c.entry]

/-- INTERNAL: the length of what a segment was written. -/
theorem written_length {enc : WalEntry → Bytes} (h : KeepsSpan enc) (img : SegmentImage) :
    (img.written enc).length = img.size := by
  unfold SegmentImage.written SegmentImage.size
  rw [List.length_append, lead_length h, flatMap_length h]

/-- INTERNAL: records are numbered on after the last one. -/
theorem numbered_append {lsn : ℕ} {es es' : List WalEntry} :
    Numbered lsn (es ++ es') ↔ Numbered lsn es ∧ Numbered (lsn + spanOf es) es' := by
  induction es generalizing lsn with
  | nil => simp [Numbered, spanOf]
  | cons e es ih =>
    rw [List.cons_append, Numbered, Numbered, ih, and_assoc]
    simp [spanOf, Nat.add_assoc]

/-- INTERNAL: only the first of the segments that follow decides how one is filled up. -/
theorem closing_append (enc : WalEntry → Bytes) (rear : Bytes) (a b : List SegmentImage) :
    closing enc rear (a ++ b) = closing enc (closing enc rear b) a := by
  cases a <;> rfl

/-- INTERNAL: the files of the segments up to one, and from there on. -/
theorem filesOf_append (enc : WalEntry → Bytes) (rear : Bytes) (a b : List SegmentImage) :
    filesOf enc rear (a ++ b) = filesOf enc (closing enc rear b) a ++ filesOf enc rear b := by
  induction a with
  | nil => rfl
  | cons img a ih =>
    rw [List.cons_append, filesOf, filesOf, ih, closing_append, List.cons_append]

/-- INTERNAL: the places of two lists of records in a file. -/
theorem placeWhole_append (file : String) (offset : ℕ) (es es' : List WalEntry) :
    placeWhole file offset (es ++ es') =
      placeWhole file offset es ++ placeWhole file (offset + spanOf es) es' := by
  induction es generalizing offset with
  | nil => simp [placeWhole, spanOf]
  | cons e es ih =>
    rw [List.cons_append, placeWhole, placeWhole, ih, List.cons_append]
    simp [spanOf, Nat.add_assoc]

/-- INTERNAL: the places of the records of two lists of segments. -/
theorem placed_append (s : SegmentSize) (previous : Option SegmentImage)
    (a b : List SegmentImage) :
    placed s previous (a ++ b) = placed s previous a ++ placed s (a.getLast?.or previous) b := by
  induction a generalizing previous with
  | nil => simp [placed]
  | cons img a ih =>
    have hlast : (img :: a).getLast?.or previous = a.getLast?.or (some img) := by
      cases a with
      | nil => rfl
      | cons img' a => simp [List.getLast?_cons]
    rw [List.cons_append, placed, placed, ih, hlast, List.append_assoc, List.append_assoc,
      List.append_assoc]

/-! ## The image of a log -/

section
variable {s : SegmentSize} {crc : Bytes → UInt32}

/-- The log has these files and these records. -/
structure Represents (crc : Bytes → UInt32) (log : Log) (img : LogImage s) : Prop where
  wal : ActiveAt s log.wal
    (filesOf (WalEntry.encode crc) (closing (WalEntry.encode crc) [] [img.active]) img.closed)
    img.active.base (img.active.written (WalEntry.encode crc)) []
  records : log.records = placed s none img.segments

/-- INTERNAL: all files of a log that has an image. -/
theorem Represents.files {log : Log} {img : LogImage s} (h : Represents crc log img) :
    SegmentFiles s log.wal.dir (filesOf (WalEntry.encode crc) [] img.segments) := by
  have hfiles := h.wal.files
  unfold LogImage.segments
  rw [filesOf_append]
  simpa [filesOf, closing] using hfiles

/-- INTERNAL: the sequence number that the next entry gets. -/
theorem Represents.next {log : Log} {img : LogImage s} (h : Represents crc log img) :
    log.wal.nextSequenceNumber = checkedAdd 64 img.active.base img.active.size := by
  unfold Wal.nextSequenceNumber Segment.nextLsn
  rw [h.wal.active, openedSegment_baseLsn, openedSegment_fileSize,
    written_length (keepsSpan_encode crc)]

/-- INTERNAL: the active segment of an image. -/
theorem active_valid (img : LogImage s) : img.active.Valid s := img.valid _ (by simp)

/-- The image of a fresh log. -/
def freshImage (s : SegmentSize) : LogImage s where
  closed := []
  active := ⟨0, none, []⟩
  valid := by
    intro img himg
    rw [List.nil_append, List.mem_singleton] at himg
    subst himg
    exact ⟨Nat.dvd_zero _, by norm_num, Nat.zero_le _, by simp [SegmentImage.entries],
      by simp [SegmentImage.entries], trivial⟩
  chain := List.IsChain.singleton _
  first := by
    intro img himg
    simp only [List.nil_append, List.head?_cons, Option.some.injEq] at himg
    subst himg
    exact ⟨rfl, rfl⟩

/-- A fresh log has the empty image. -/
theorem createNew_represents (s : SegmentSize) (crc : Bytes → UInt32) :
    ∃ w, Wal.createNew Dir.empty s.val = .ok w ∧
      Represents crc ⟨w, []⟩ (freshImage s) := by
  have hempty : SegmentFiles s Dir.empty [] :=
    ⟨List.Perm.refl _, List.Pairwise.nil, by simp, by simp, by simp⟩
  obtain ⟨w, hcreate, hactive⟩ := hempty.createNew_ok rfl
  exact ⟨w, hcreate, hactive, rfl⟩

/-- INTERNAL: the image with one more record in the active segment. -/
def pushRecord (img : LogImage s) (e : WalEntry) (he : WellFormed e)
    (hseq : e.sequenceNumber = img.active.endLsn)
    (hfit : img.active.size + recordSpan e ≤ s.val) : LogImage s where
  closed := img.closed
  active := { img.active with records := img.active.records ++ [e] }
  valid := by
    have hactive := active_valid img
    intro img' himg'
    rcases List.mem_append.mp himg' with himg' | himg'
    · exact img.valid img' (List.mem_append_left _ himg')
    · rw [List.mem_singleton] at himg'
      subst himg'
      have hentries : ∀ e' ∈ SegmentImage.entries
          { img.active with records := img.active.records ++ [e] },
          e' ∈ img.active.entries ∨ e' = e := by
        intro e' he'
        unfold SegmentImage.entries at he' ⊢
        rw [← List.append_assoc] at he'
        rcases List.mem_append.mp he' with h | h
        · exact Or.inl h
        · exact Or.inr (List.mem_singleton.mp h)
      refine ⟨hactive.dvd, hactive.base_lt, ?_, ?_, ?_, ?_⟩
      · unfold SegmentImage.size SegmentImage.leadSpan at hfit ⊢
        rw [spanOf_append]
        simp only [spanOf, List.map_cons, List.map_nil, List.sum_cons, List.sum_nil] at hfit ⊢
        omega
      · intro e' he'
        rcases hentries e' he' with h | rfl
        · exact hactive.wellFormed e' h
        · exact he
      · intro e' he'
        rcases hentries e' he' with h | rfl
        · exact hactive.span_le e' h
        · omega
      · refine numbered_append.mpr ⟨hactive.numbered, ?_, trivial⟩
        rw [hseq]
        unfold SegmentImage.endLsn SegmentImage.size SegmentImage.leadSpan
        simp only [Nat.add_assoc]
  chain := by
    -- the active segment is linked to the one before by its base and its crossing alone
    have hchain := img.chain
    rw [List.isChain_append] at hchain ⊢
    refine ⟨hchain.1, List.IsChain.singleton _, ?_⟩
    intro x hx y hy
    simp only [List.head?_cons, Option.mem_def, Option.some.injEq] at hy
    subst hy
    exact ⟨(hchain.2.2 x hx img.active (by simp)).crosses⟩
  first := by
    intro img' himg'
    have hfirst := img.first
    cases hclosed : img.closed with
    | nil =>
      rw [hclosed] at himg' hfirst
      simp only [List.nil_append, List.head?_cons, Option.some.injEq] at himg' hfirst
      subst himg'
      exact hfirst img.active rfl
    | cons a closed =>
      rw [hclosed] at himg' hfirst
      exact hfirst img' (by simpa using himg')

/-- INTERNAL: the header and the zeros take what is left. -/
theorem crossingAt_fills (e : WalEntry) (free : ℕ) :
    (crossingAt e free).cut + (crossingAt e free).zeros = free := by
  unfold crossingAt
  split <;> simp [Crossing.cut]
  omega

/-- INTERNAL: the entry that crosses over. -/
theorem crossingAt_entry (e : WalEntry) (free : ℕ) : (crossingAt e free).entry = e := by
  unfold crossingAt
  split <;> rfl

/-- INTERNAL: without room for a header there are few zeros. -/
theorem crossingAt_zeros (e : WalEntry) (free : ℕ) (h : (crossingAt e free).split = false) :
    (crossingAt e free).zeros < HEADER_SIZE := by
  unfold crossingAt at h ⊢
  split at h
  · cases h
  · rename_i hroom
    rw [if_neg hroom]
    exact Nat.not_le.mp hroom

/-- INTERNAL: the image with one more segment, in which the record that did not fit ends. -/
def pushCrossing (img : LogImage s) (e : WalEntry) (he : WellFormed e)
    (hseq : e.sequenceNumber = img.active.endLsn) (hspan : recordSpan e ≤ s.val)
    (hfull : s.val < img.active.size + recordSpan e)
    (hlsn : e.sequenceNumber + recordSpan e < 2 ^ 64) : LogImage s where
  closed := img.closed ++ [img.active]
  active := ⟨s.baseOf (e.sequenceNumber + recordSpan e),
    some (crossingAt e (s.val - img.active.size)), []⟩
  valid := by
    intro img' himg'
    rcases List.mem_append.mp himg' with himg' | himg'
    · exact img.valid img' himg'
    · rw [List.mem_singleton] at himg'
      subst himg'
      have hle := s.baseOf_le (e.sequenceNumber + recordSpan e)
      refine ⟨s.dvd_baseOf _, by simp only; omega, ?_, ?_, ?_, trivial⟩
      · unfold SegmentImage.size SegmentImage.leadSpan
        simp only [crossingAt_entry, spanOf, List.map_nil, List.sum_nil]
        omega
      all_goals
        intro e' he'
        simp only [SegmentImage.entries, Option.map_some, Option.toList_some, List.append_nil,
          List.mem_singleton, crossingAt_entry] at he'
        subst he'
      · exact he
      · exact hspan
  chain := by
    have hchain := img.chain
    have hsize := (active_valid img).size_le
    have hfills := crossingAt_fills e (s.val - img.active.size)
    rw [List.isChain_append]
    refine ⟨hchain, List.IsChain.singleton _, ?_⟩
    intro x hx y hy
    simp only [List.getLast?_append, List.getLast?_singleton, Option.some_or, Option.mem_def,
      Option.some.injEq, List.head?_cons] at hx hy
    subst hx hy
    refine ⟨_, rfl, ?_, by omega, ?_, crossingAt_zeros _ _, ?_⟩
    · rw [crossingAt_entry, hseq]
    · rw [crossingAt_entry]
      omega
    · rw [crossingAt_entry, ← hseq]
  first := by
    intro img' himg'
    apply img.first img'
    rw [List.head?_append] at himg'
    simpa using himg'

/-! ## One operation -/

/-- INTERNAL: an entry of an operation that fits is well-formed. -/
theorem entry_wellFormed {op : LogOp} (hop : op.Fits crc s.val) {lsn : ℕ} (hlsn : lsn < 2 ^ 64)
    {e : WalEntry} (he : op.entry lsn = some e) :
    WellFormed e ∧ recordSpan e ≤ s.val ∧ e.sequenceNumber = lsn := by
  have hlt := s.lt
  obtain ⟨hkey, hsize⟩ := hop lsn e he
  rw [encode_length] at hsize
  have hentry : e.valueFits = true ∧ e.sequenceNumber = lsn := by
    cases op with
    | put key value =>
      simp only [LogOp.entry, Option.some.injEq] at he
      subst he
      exact ⟨rfl, rfl⟩
    | delete key =>
      simp only [LogOp.entry, Option.some.injEq] at he
      subst he
      exact ⟨rfl, rfl⟩
    | reopen => cases he
  exact ⟨⟨hkey, hentry.1, by omega, by omega⟩, hsize, hentry.2⟩

/-- INTERNAL: appending to a log that has an image leaves a log that has one. -/
theorem append_represents {log : Log} {img : LogImage s} (h : Represents crc log img)
    {e : WalEntry} (he : WellFormed e) (hspan : recordSpan e ≤ s.val)
    (hseq : e.sequenceNumber = img.active.endLsn) {wal : Wal}
    (hrun : (Wal.append crc e).run log.wal = .ok () wal) :
    ∃ img' : LogImage s, Represents crc ⟨wal, log.records ++ [⟨e,
      Log.extentsBetween log.wal.activeSegment wal.activeSegment (e.encode crc).length⟩]⟩ img' := by
  have henc := keepsSpan_encode crc
  have hlen : (img.active.written (WalEntry.encode crc)).length = img.active.size :=
    written_length henc _
  have hspan_eq : (e.encode crc).length = recordSpan e := henc e
  by_cases hfit : img.active.size + recordSpan e ≤ s.val
  · obtain ⟨w', hrun', hactive⟩ := h.wal.append_fits crc he (by omega)
    rw [hrun] at hrun'
    cases hrun'
    refine ⟨pushRecord img e he hseq hfit, ?_, ?_⟩
    · have hwritten : (pushRecord img e he hseq hfit).active.written (WalEntry.encode crc) =
          img.active.written (WalEntry.encode crc) ++ e.encode crc := by
        simp [pushRecord, SegmentImage.written, SegmentImage.lead]
      rw [hwritten]
      exact hactive
    · have hextents : Log.extentsBetween log.wal.activeSegment wal.activeSegment
          (e.encode crc).length = [⟨s.fileName img.active.base, img.active.size, recordSpan e⟩] := by
        unfold Log.extentsBetween
        rw [hactive.active, h.wal.active]
        simp only [openedSegment_filePath, openedSegment_fileSize, if_true, hlen, hspan_eq]
      rw [hextents, h.records]
      unfold LogImage.segments pushRecord
      rw [placed_append, placed_append]
      simp only [placed, placeWhole_append, placeWhole, List.append_nil, List.append_assoc]
      rfl
  · have hfull : s.val < img.active.size + recordSpan e := Nat.not_le.mp hfit
    have hsize := (active_valid img).size_le
    by_cases hlsn : e.sequenceNumber + recordSpan e < 2 ^ 64
    · have hpast : img.active.base < s.baseOf (e.sequenceNumber + recordSpan e) := by
        have hlt := s.lt_baseOf_add (e.sequenceNumber + recordSpan e)
        unfold SegmentImage.endLsn at hseq
        omega
      obtain ⟨w', hrun', hactive⟩ :=
        h.wal.append_crosses crc he ((Nat.sub_le ..).trans hspan) (by omega) hlsn hpast
      rw [hrun] at hrun'
      cases hrun'
      rw [hlen] at hactive
      refine ⟨pushCrossing img e he hseq hspan hfull hlsn, ?_, ?_⟩
      · show ActiveAt s wal (filesOf _ _ (img.closed ++ [img.active])) _ _ []
        rw [filesOf_append]
        simpa [SegmentImage.written, SegmentImage.lead, filesOf, closing, pushCrossing] using
          hactive
      · have hname : s.fileName (s.baseOf (e.sequenceNumber + recordSpan e)) ≠
            s.fileName img.active.base :=
          (ne_of_lt (s.fileName_lt (active_valid img).dvd (s.dvd_baseOf _) hpast
            (by have hle := s.baseOf_le (e.sequenceNumber + recordSpan e); omega))).symm
        have hafter : ((crossingAt e (s.val - img.active.size)).after
            (WalEntry.encode crc)).length =
            recordSpan e - (crossingAt e (s.val - img.active.size)).cut := by
          unfold Crossing.after
          rw [List.length_drop, crossingAt_entry, hspan_eq]
        have hextents : (⟨e, Log.extentsBetween log.wal.activeSegment wal.activeSegment
            (e.encode crc).length⟩ : Record) =
            placeCrossing s img.active
              ⟨s.baseOf (e.sequenceNumber + recordSpan e),
                some (crossingAt e (s.val - img.active.size)), []⟩
              (crossingAt e (s.val - img.active.size)) := by
          have hheader := body_length_ge he.key_ne
          have hrecord : recordSpan e = e.body.length + 8 := rfl
          unfold Log.extentsBetween placeCrossing
          rw [hactive.active, h.wal.active]
          simp only [openedSegment_filePath, openedSegment_fileSize, if_neg hname, hlen, hspan_eq,
            hafter, crossingAt_entry]
          cases hsplit : (crossingAt e (s.val - img.active.size)).split with
          | false =>
            have hcut : (crossingAt e (s.val - img.active.size)).cut = 0 := by
              simp [Crossing.cut, hsplit]
            simp [hcut]
          | true =>
            have hcut : (crossingAt e (s.val - img.active.size)).cut = 13 := by
              simp [Crossing.cut, hsplit, HEADER_SIZE]
            have hdiff : recordSpan e - 13 ≠ recordSpan e := by omega
            have hrest : recordSpan e - (recordSpan e - 13) = 13 := by omega
            simp [hcut, hdiff, hrest, HEADER_SIZE]
        rw [hextents, h.records]
        unfold LogImage.segments pushCrossing
        rw [placed_append s none (img.closed ++ [img.active])]
        simp [placed, placeLead, placeWhole]
    · obtain ⟨w', hrun'⟩ := h.wal.append_overflow crc he (by omega) hlsn
      rw [hrun] at hrun'
      cases hrun'

/-- INTERNAL: a segment that another one follows into is not empty. -/
theorem follows_size_pos {before next : SegmentImage} (h : Follows s before next) :
    0 < next.size := by
  obtain ⟨c, hc, -, -, hspan, -, -⟩ := h.crosses
  unfold SegmentImage.size SegmentImage.leadSpan
  rw [hc]
  dsimp only
  omega

/-- INTERNAL: only a fresh log has an empty active segment. -/
theorem closed_eq_nil {img : LogImage s} (h : img.active.size = 0) : img.closed = [] := by
  rcases List.eq_nil_or_concat img.closed with hnil | ⟨init, last, hclosed⟩
  · exact hnil
  · have hchain := img.chain
    rw [hclosed, List.concat_eq_append, List.isChain_append] at hchain
    have hpos := follows_size_pos (hchain.2.2 last (by simp) img.active (by simp))
    omega

/-- INTERNAL: reopening goes on with the active segment.
SOURCE: memtable.rs:178-197 -/
theorem reopen_represents {log : Log} {img : LogImage s} (h : Represents crc log img)
    {segment : Segment} (hopen : MemTable.openLastSegment log.wal.dir s.val = .ok segment) :
    segment = log.wal.activeSegment := by
  have hlen : (img.active.written (WalEntry.encode crc)).length = img.active.size :=
    written_length (keepsSpan_encode crc) _
  by_cases hend : ∀ f ∈ filesOf (WalEntry.encode crc) (closing (WalEntry.encode crc) []
      [img.active]) img.closed ++ [(img.active.base, img.active.written (WalEntry.encode crc))],
      s.endSeen f.1 f.2.length < 2 ^ 64
  · rw [h.wal.files.openLastSegment_eq hend] at hopen
    unfold keptAfter at hopen
    rw [List.filter_append] at hopen
    by_cases hsize : img.active.size = 0
    · rw [closed_eq_nil hsize] at hopen
      have hfirst := img.first img.active (by rw [closed_eq_nil hsize]; rfl)
      have hseen : s.endSeen img.active.base
          (img.active.written (WalEntry.encode crc)).length = 0 := by
        rw [hfirst.1, hlen, hsize]
        unfold SegmentSize.endSeen
        rw [Nat.zero_div, Nat.zero_mul, Nat.zero_mul]
      rw [filesOf, List.filter_nil, List.nil_append,
        List.filter_cons_of_neg (by simp [hseen]), List.filter_nil] at hopen
      cases hopen
    · have hseen := s.endSeen_pos img.active.base (Nat.pos_of_ne_zero hsize)
      rw [List.filter_cons_of_pos (by simpa [hlen] using hseen), List.filter_nil,
        List.getLast?_append, List.getLast?_singleton, Option.some_or] at hopen
      cases hopen
      exact h.wal.active.symm
  · simp only [not_forall] at hend
    obtain ⟨f, hf, hover⟩ := hend
    unfold MemTable.openLastSegment at hopen
    rw [h.wal.files.listSegmentFiles_panic hf hover] at hopen
    cases hopen

/-- One operation leaves a log that has an image. -/
theorem step_represents {log log' : Log} {img : LogImage s} (h : Represents crc log img)
    {op : LogOp} (hop : op.Fits crc s.val) (hrun : log.step crc op = .ok log') :
    ∃ img' : LogImage s, Represents crc log' img' := by
  unfold Log.step at hrun
  rw [h.next] at hrun
  obtain ⟨lsn, hlsn, hrun⟩ := exec_bind_eq_ok.mp hrun
  have hlsn_eq : lsn = img.active.endLsn ∧ lsn < 2 ^ 64 := by
    unfold checkedAdd at hlsn
    split at hlsn
    · cases hlsn
      exact ⟨rfl, by assumption⟩
    · cases hlsn
  cases hentry : op.entry lsn with
  | none =>
    rw [hentry] at hrun
    dsimp only at hrun
    rw [h.wal.maxSize] at hrun
    obtain ⟨segment, hopen, hrun⟩ := exec_bind_eq_ok.mp hrun
    cases hrun
    refine ⟨img, ?_, h.records⟩
    rw [reopen_represents h hopen]
    exact ⟨h.wal.files, h.wal.faults, h.wal.active, rfl⟩
  | some e =>
    rw [hentry] at hrun
    dsimp only at hrun
    obtain ⟨he, hspan, hseq⟩ := entry_wellFormed hop hlsn_eq.2 hentry
    cases happend : (Wal.append crc e).run log.wal with
    | error f w =>
      rw [happend] at hrun
      cases hrun
    | ok u w =>
      rw [happend] at hrun
      cases hrun
      exact append_represents h he hspan (hseq.trans hlsn_eq.1) happend

/-- Every log that a history leaves has an image. -/
theorem run_represents {ops : List LogOp} (hops : ∀ op ∈ ops, op.Fits crc s.val) {log : Log}
    (hrun : Log.run crc s.val ops = .ok log) : ∃ img : LogImage s, Represents crc log img := by
  obtain ⟨w, hcreate, hfresh⟩ := createNew_represents s crc
  unfold Log.run at hrun
  rw [hcreate, exec_ok_bind] at hrun
  generalize hstart : (⟨w, []⟩ : Log) = start at hrun hfresh
  clear hstart hcreate
  generalize freshImage s = img at hfresh
  induction ops generalizing start img with
  | nil =>
    cases hrun
    exact ⟨img, hfresh⟩
  | cons op ops ih =>
    rw [List.foldlM_cons] at hrun
    obtain ⟨next, hstep, hrest⟩ := exec_bind_eq_ok.mp hrun
    obtain ⟨img', hnext⟩ := step_represents hfresh (hops op (List.mem_cons_self ..)) hstep
    exact ih (fun op' hop' => hops op' (List.mem_cons_of_mem _ hop')) next hrest img' hnext

end

end Rkvs.Analysis
