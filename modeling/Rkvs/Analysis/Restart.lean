import Rkvs.Analysis.TornWrite

/-!
# Restarting from a checkpoint

With a sequence number other than 0, `start` reads the files that seem to end after it. Full
files end where their names say, but the last file seems to end too early unless it is full or
the first of its logical log.
-/

set_option autoImplicit false

namespace Rkvs.Analysis

open Rkvs.Library Rkvs.Model Rkvs.Interface

/-! ## The last write to a key -/

/-- INTERNAL: later writes hide the earlier ones. -/
theorem lastWrite_append_of_written {es es' : List WalEntry} {key : String}
    (h : ∃ e ∈ es', e.key = key) : lastWrite (es ++ es') key = lastWrite es' key := by
  have hsome : lastTo WalEntry.key es' key ≠ none := by
    intro hnone
    obtain ⟨e, he, hkey⟩ := h
    exact lastTo_eq_none.mp hnone e he hkey
  obtain ⟨e, he⟩ := Option.ne_none_iff_exists'.mp hsome
  rw [lastWrite_append, show lastWrite es' key = (lastTo WalEntry.key es' key).map _ from rfl, he]
  rfl

/-- INTERNAL: the last write to a key is one of the writes. -/
theorem lastWrite_mem {es : List WalEntry} {key : String} {v : MemTableValue}
    (h : lastWrite es key = some v) : ∃ e ∈ es, e.sequenceNumber = v.sequenceNumber := by
  obtain ⟨e, he, rfl⟩ := Option.map_eq_some_iff.mp
    (show (lastTo WalEntry.key es key).map _ = some v from h)
  exact ⟨e, (lastTo_some he).1, rfl⟩

/-- INTERNAL: a key that is written has a last write. -/
theorem lastWrite_written {es : List WalEntry} {e : WalEntry} (h : e ∈ es) :
    ∃ v, lastWrite es e.key = some v := by
  cases hlast : lastTo WalEntry.key es e.key with
  | none => exact absurd rfl (lastTo_eq_none.mp hlast e h)
  | some e' =>
    refine ⟨⟨e'.value, e'.sequenceNumber⟩, ?_⟩
    show (lastTo WalEntry.key es e.key).map _ = _
    rw [hlast]
    rfl

/-! ## The files that are listed -/

section
variable {crc : Bytes → UInt32} {s : SegmentSize} {log : Log} {img : LogImage s} {n : ℕ}

/-- INTERNAL: all files of a log. -/
theorem filesOf_active (crc : Bytes → UInt32) (img : LogImage s) :
    filesOf (WalEntry.encode crc) [] img.segments = closedFiles crc img ++
      [(img.active.base, img.active.written (WalEntry.encode crc))] := by
  unfold LogImage.segments closedFiles
  rw [filesOf_append, filesOf, closing, List.append_nil]
  rfl

/-- INTERNAL: a full file ends where its name says, and only the last one is not full. -/
theorem restart_kept (crc : Bytes → UInt32) (img : LogImage s) (n : ℕ) :
    keptAfter s n (filesOf (WalEntry.encode crc) [] img.segments) =
      (closedFiles crc img).filter (fun f => n < f.1 + s.val) ++
        if n < s.endSeen img.active.base img.active.size then
          [(img.active.base, img.active.written (WalEntry.encode crc))] else [] := by
  have hclosed : (closedFiles crc img).filter (fun f => n < s.endSeen f.1 f.2.length) =
      (closedFiles crc img).filter fun f => n < f.1 + s.val := by
    apply List.filter_congr
    intro f hf
    have hfull := filesOf_full (keepsSpan_encode crc) [] img.chain f hf
    obtain ⟨x, hx, hbase⟩ := mem_filesOf hf
    have hdvd := (img.valid x (List.mem_append_left _ hx)).dvd
    rw [← hbase] at hdvd
    rw [hfull, s.endSeen_full hdvd]
  unfold keptAfter
  rw [filesOf_active, List.filter_append, hclosed, List.filter_cons, List.filter_nil,
    written_length (keepsSpan_encode crc)]
  simp only [decide_eq_true_eq]

/-- INTERNAL: every record lies before the end of its segment. -/
theorem entries_lt_end {earlier later : List SegmentImage} {seg : SegmentImage}
    (hsegments : img.segments = earlier ++ seg :: later) :
    ∀ e ∈ seg.entries, e.sequenceNumber < seg.endLsn := by
  have hvalid := img.valid
  rw [show img.closed ++ [img.active] = img.segments from rfl, hsegments] at hvalid
  obtain ⟨rfl, -, hc⟩ | ⟨earlier', before, rfl, hlink⟩ := crossing_before hsegments
  · intro e he
    have hentries : seg.entries = seg.records := by simp [SegmentImage.entries, hc]
    rw [hentries] at he
    have hbounds := numbered_mem (hvalid seg (by simp)).numbered e he
    have hpos := recordSpan_pos e
    unfold SegmentImage.endLsn SegmentImage.size
    omega
  · intro e he
    exact ((follows_bounds hlink (hvalid before (by simp)) (hvalid seg (by simp))).1 e he).2

/-- Every sequence number of a log is below the next one. -/
theorem entries_lt_next (img : LogImage s) :
    ∀ e ∈ img.entries, e.sequenceNumber < img.active.endLsn := by
  intro e he
  obtain ⟨seg, hseg, he⟩ := List.mem_flatMap.mp he
  obtain ⟨earlier, later, hsegments⟩ := List.append_of_mem hseg
  have hlt := entries_lt_end hsegments e he
  obtain hclosed | hactive := List.mem_append.mp (show seg ∈ img.closed ++ [img.active] from hseg)
  · have hle := (List.pairwise_append.mp (chain_bases img.chain img.valid)).2.2 seg hclosed
      img.active (by simp)
    have hsize := (img.valid seg (List.mem_append_left _ hclosed)).size_le
    unfold SegmentImage.endLsn at *
    omega
  · rw [← List.mem_singleton.mp hactive]
    exact hlt

/-! ## Restarting -/

/-- A restart from `n` returns a memtable that knows the newest version of every key that was
written after `n`, and it goes on with a sequence number that the log has not used. -/
def RestartsFrom (crc : Bytes → UInt32) (s : SegmentSize) (log : Log) (n maxSize : ℕ) : Prop :=
  ∃ w next, MemTable.start crc log.wal.dir s.val n maxSize = .ok w ∧
    (∀ e ∈ log.entries, n < e.sequenceNumber →
      w.table.lookup e.key = lastWrite log.entries e.key) ∧
    w.wal.nextSequenceNumber = .ok next ∧ ∀ e ∈ log.entries, e.sequenceNumber < next

/-- INTERNAL: a start that returns is the only thing to look at. -/
theorem restartsFrom_of_start {maxSize : ℕ} {table : Table} {w : Wal} {size : ℕ}
    (hstart : MemTable.start crc log.wal.dir s.val n maxSize = .ok ⟨table, w, size, maxSize⟩)
    {front rear : List (ℕ × Bytes)} {base : ℕ} {content : Bytes}
    (hactive : ActiveAt s w front base content rear) (hnext : base + content.length < 2 ^ 64) :
    RestartsFrom crc s log n maxSize ↔
      (∀ e ∈ log.entries, n < e.sequenceNumber →
        table.lookup e.key = lastWrite log.entries e.key) ∧
      ∀ e ∈ log.entries, e.sequenceNumber < base + content.length := by
  have hlsn : w.nextSequenceNumber = .ok (base + content.length) :=
    hactive.next.trans (checkedAdd_ok hnext)
  unfold RestartsFrom
  rw [hstart]
  constructor
  · rintro ⟨w', next, hw, htable, hnext', hlt⟩
    cases hw
    rw [hlsn] at hnext'
    cases hnext'
    exact ⟨htable, hlt⟩
  · rintro ⟨htable, hlt⟩
    exact ⟨_, _, rfl, htable, hlsn, hlt⟩

/-- INTERNAL: only the last file can seem to end behind all LSNs. -/
theorem restart_end (himg : Represents crc log img)
    (hroom : img.active.base + img.active.size < 2 ^ 64) :
    ∀ f ∈ filesOf (WalEntry.encode crc) [] img.segments, s.endSeen f.1 f.2.length < 2 ^ 64 := by
  have hactive := img.valid img.active (by simp)
  have hfiles := himg.files
  rw [filesOf_active] at hfiles ⊢
  rw [hfiles.end_lt_iff, written_length (keepsSpan_encode crc),
    endSeen_lt_iff hactive.dvd hactive.base_lt hactive.size_le]
  exact hroom

/-- A restart that reads the last file reads everything from the checkpoint on.
SOURCE: memtable.rs:50-89 -/
theorem restart_listed (himg : Represents crc log img)
    (hroom : img.active.base + img.active.size < 2 ^ 64) {e : WalEntry} (he : e ∈ img.entries)
    (hlisted : e.sequenceNumber < s.endSeen img.active.base img.active.size) (maxSize : ℕ) :
    RestartsFrom crc s log e.sequenceNumber maxSize := by
  have hentries := represents_entries himg
  have hfiles := himg.files
  have hend := restart_end himg hroom
  obtain ⟨earlier, seg, later, es, hsegments, hbegin, ⟨skipped, rest, hall, hes⟩, hearlier, hlater⟩ :=
    locate crc img he
  have hlast_end : e.sequenceNumber < img.active.base + s.val := by
    have hactive := img.valid img.active (by simp)
    have hle := s.endSeen_le hactive.dvd hactive.size_le
    have hsize := hactive.size_le
    omega
  -- the files that are listed are those that end after the checkpoint
  have hkept : keptAfter s e.sequenceNumber (filesOf (WalEntry.encode crc) [] img.segments) =
      filesOf (WalEntry.encode crc) [] (seg :: later) := by
    rw [restart_kept, if_pos hlisted, ← filter_filesOf hearlier hlater, ← hsegments,
      filesOf_active, List.filter_append, List.filter_singleton, decide_eq_true hlast_end]
    rfl
  obtain ⟨hreads, hcontent⟩ := recover_image hfiles hsegments hbegin
  have hrecover := recover_readsFiles hreads hcontent
  have hkept_ne : keptAfter s e.sequenceNumber
      (filesOf (WalEntry.encode crc) [] img.segments) ≠ [] := by
    rw [hkept, filesOf]
    exact List.cons_ne_nil _ _
  rw [← hkept] at hrecover
  rw [filesOf_active] at hfiles hend hkept_ne hrecover
  have hlast : 0 < s.endSeen img.active.base (img.active.written (WalEntry.encode crc)).length := by
    rw [written_length (keepsSpan_encode crc)]
    omega
  obtain ⟨w, hstart, hactive⟩ :=
    hfiles.start_clean himg.wal.faults hend hkept_ne hrecover hlast (by simp) maxSize
  have hlen := written_length (keepsSpan_encode crc) img.active
  rw [restartsFrom_of_start hstart hactive (by rw [hlen]; exact hroom), hlen, hentries]
  refine ⟨?_, entries_lt_next img⟩
  intro e' he' hafter
  have hsorted := entries_sorted img
  rw [hall, List.pairwise_append] at hsorted
  rw [lookup_tableOf, hes, hall, lastWrite_append_of_written]
  rw [hall] at he'
  obtain he' | he' := List.mem_append.mp he'
  · have hlt := hsorted.2.2 e' he' e (List.mem_cons_self ..)
    omega
  · exact ⟨e', he', rfl⟩

/-- When the checkpoint lies in the last file, and this file is not listed, the log is started
anew.
SOURCE: memtable.rs:84-88 -/
theorem restart_anew (himg : Represents crc log img)
    (hroom : img.active.base + img.active.size < 2 ^ 64) {e : WalEntry} (he : e ∈ img.entries)
    (hlisted : ¬e.sequenceNumber < s.endSeen img.active.base img.active.size)
    (hclosed : ∀ x ∈ img.closed, x.base + s.val ≤ e.sequenceNumber) (maxSize : ℕ) :
    ¬RestartsFrom crc s log e.sequenceNumber maxSize := by
  have hkept : keptAfter s e.sequenceNumber
      (filesOf (WalEntry.encode crc) [] img.segments) = [] := by
    rw [restart_kept, if_neg hlisted, List.append_nil]
    apply List.filter_eq_nil_iff.mpr
    intro f hf
    obtain ⟨x, hx, hbase⟩ := mem_filesOf hf
    have hle := hclosed x hx
    simp only [hbase, decide_eq_true_eq]
    omega
  obtain ⟨w, hstart, hactive⟩ :=
    himg.files.start_fresh himg.wal.faults (restart_end himg hroom) hkept maxSize
  rw [restartsFrom_of_start hstart hactive (by norm_num)]
  rintro ⟨-, hlt⟩
  have hzero := hlt e (represents_entries himg ▸ he)
  simp at hzero

/-- INTERNAL: what is read when the last file is not listed: the entries between the checkpoint
and the last file. -/
theorem restart_reads (crc : Bytes → UInt32) {e : WalEntry} {earlier later : List SegmentImage}
    {seg : SegmentImage} {es : List WalEntry} (hclosed : img.closed = earlier ++ seg :: later)
    (hbegin : Begins crc (WalEntry.encode crc) (.start (e.sequenceNumber % s.val)) seg es)
    (hearlier : ∀ x ∈ earlier, x.base + s.val ≤ e.sequenceNumber)
    (hlater : ∀ x ∈ seg :: later, e.sequenceNumber < x.base + s.val)
    (hlisted : ¬e.sequenceNumber < s.endSeen img.active.base img.active.size) :
    keptAfter s e.sequenceNumber (filesOf (WalEntry.encode crc) [] img.segments) ≠ [] ∧
      ReadsFiles crc s (.start (e.sequenceNumber % s.val))
        (keptAfter s e.sequenceNumber (filesOf (WalEntry.encode crc) [] img.segments))
        (es ++ later.flatMap SegmentImage.entries) (tornCursor crc img) := by
  have hkept : keptAfter s e.sequenceNumber (filesOf (WalEntry.encode crc) [] img.segments) =
      filesOf (WalEntry.encode crc) (closing (WalEntry.encode crc) [] [img.active])
        (seg :: later) := by
    rw [restart_kept, if_neg hlisted, List.append_nil]
    unfold closedFiles
    rw [hclosed, filter_filesOf hearlier hlater]
  obtain ⟨init, before, hbefore⟩ : ∃ init before, seg :: later = init ++ [before] :=
    ⟨_, _, (List.dropLast_append_getLast (List.cons_ne_nil seg later)).symm⟩
  have hlast : (seg :: later).getLast? = some before := by
    rw [hbefore]
    simp
  have hclosed_last : img.closed.getLast? = some before := by
    rw [hclosed, hbefore]
    simp
  have hclosed' : img.closed = (earlier ++ init) ++ [before] := by
    rw [hclosed, hbefore, List.append_assoc]
  have hchain := img.chain
  have hvalid := img.valid
  obtain ⟨hnil, -⟩ | ⟨earlier', before', hclosed'', hlink⟩ :=
    crossing_before (show img.segments = img.closed ++ img.active :: [] from rfl)
  · rw [hnil] at hclosed'
    simp at hclosed'
  rw [hclosed'] at hclosed''
  obtain ⟨-, hsame⟩ := List.append_inj' hclosed'' rfl
  obtain rfl := (List.cons.inj hsame).1
  obtain ⟨c, hc, -, -, hspan, hzeros, -⟩ := hlink.crosses
  have hwell : WellFormed c.entry :=
    (hvalid img.active (by simp)).wellFormed c.entry (by simp [SegmentImage.entries, hc])
  have hstop : scanRecord crc (closing (WalEntry.encode crc) [] [img.active]) = .stop := by
    rw [closing, hc]
    exact before_stop (keepsSpan_encode crc) hwell rfl hspan hzeros
  rw [hclosed, List.append_assoc] at hchain
  have hreads := readsFiles_chain (keepsSpan_encode crc)
    (List.isChain_append.mp (List.isChain_append.mp hchain).2.1).1 hlast hbegin
    (fun x hx => (hvalid x (by rw [hclosed]; simp [hx])).wellFormed) (fun _ _ _ _ => rfl) hstop
  refine ⟨by rw [hkept, filesOf]; exact List.cons_ne_nil _ _, ?_⟩
  rw [hkept]
  refine hreads.congr rfl rfl ?_
  unfold tornCursor cursorAfter
  rw [hclosed_last]

/-- When the last file is not listed, and the record that crosses over into it is split, the log
is cut off before this record, so that its sequence number is used again.
SOURCE: memtable.rs:67-81 -/
theorem restart_cut (himg : Represents crc log img)
    (hroom : img.active.base + img.active.size < 2 ^ 64) {earlier : List SegmentImage}
    {before : SegmentImage} (hclosed : img.closed = earlier ++ [before])
    (hkept : keptAfter s n (filesOf (WalEntry.encode crc) [] img.segments) ≠ [])
    {es : List WalEntry} {p : PartialWalEntry}
    (hreads : ReadsFiles crc s (.start (n % s.val))
      (keptAfter s n (filesOf (WalEntry.encode crc) [] img.segments)) es (.carried p))
    (hpath : p.segmentFilePath = s.fileName before.base) (hoffset : p.offset = before.size)
    (maxSize : ℕ) : ¬RestartsFrom crc s log n maxSize := by
  have hfiles := himg.files
  have hend := restart_end himg hroom
  have hkept_mem : ∀ f ∈ keptAfter s n (filesOf (WalEntry.encode crc) [] img.segments),
      log.wal.dir.content (s.fileName f.1) = f.2 :=
    fun f hf => hfiles.content (List.mem_of_mem_filter hf)
  have hrecover := recover_leftOver hreads hkept_mem
  obtain ⟨front, content, hfront, hsize, hlisted, hnext⟩ := closedFiles_last crc hclosed
  rw [hpath, hoffset] at hrecover
  rw [filesOf_active, hfront, List.append_assoc, List.singleton_append] at hfiles hend hkept hrecover
  obtain ⟨w, hstart, hactive⟩ :=
    hfiles.start_repair himg.wal.faults hend hkept hlisted hrecover hsize hnext maxSize
  have hlen : (content.take before.size).length = before.size := by
    rw [List.length_take, Nat.min_eq_left hsize]
  rw [restartsFrom_of_start hstart hactive (by rw [hlen]; exact hnext), hlen]
  rintro ⟨-, hlt⟩
  obtain ⟨hnil, -⟩ | ⟨earlier', before', hclosed', hlink⟩ :=
    crossing_before (show img.segments = img.closed ++ img.active :: [] from rfl)
  · rw [hnil] at hclosed
    simp at hclosed
  rw [hclosed] at hclosed'
  obtain ⟨-, hsame⟩ := List.append_inj' hclosed' rfl
  obtain rfl := (List.cons.inj hsame).1
  obtain ⟨c, hc, hseq, -⟩ := hlink.crosses
  have hentry : c.entry ∈ log.entries := by
    rw [represents_entries himg]
    exact List.mem_flatMap.mpr ⟨img.active, by simp [LogImage.segments],
      by simp [SegmentImage.entries, hc]⟩
  have hused := hlt c.entry hentry
  unfold SegmentImage.endLsn at hseq
  omega

/-- INTERNAL: when the last file is not listed and nothing is left over, the log goes on behind
its end, and only what was written to the last file is missing.
SOURCE: memtable.rs:60-66 -/
theorem restart_unlisted (himg : Represents crc log img)
    (hroom : img.active.base + img.active.size < 2 ^ 64)
    (hlast : 0 < s.endSeen img.active.base img.active.size)
    (hkept : keptAfter s n (filesOf (WalEntry.encode crc) [] img.segments) ≠ [])
    {es : List WalEntry} {offset : ℕ}
    (hreads : ReadsFiles crc s (.start (n % s.val))
      (keptAfter s n (filesOf (WalEntry.encode crc) [] img.segments)) es (.start offset))
    (hes : ∀ e ∈ es, ∀ e' ∈ img.active.entries, e.sequenceNumber < e'.sequenceNumber)
    (hne : img.active.entries ≠ []) (maxSize : ℕ) : RestartsFrom crc s log n maxSize ↔
      ∀ e ∈ img.active.entries, e.sequenceNumber ≤ n := by
  have hfiles := himg.files
  have hend := restart_end himg hroom
  have hlen := written_length (keepsSpan_encode crc) img.active
  have hentries : log.entries = img.closed.flatMap SegmentImage.entries ++ img.active.entries := by
    rw [represents_entries himg]
    unfold LogImage.entries LogImage.segments
    rw [List.flatMap_append, List.flatMap_singleton]
  have hrecover := recover_readsFiles hreads
    fun f hf => hfiles.content (List.mem_of_mem_filter hf)
  rw [filesOf_active] at hfiles hend hkept hrecover
  obtain ⟨w, hstart, hactive⟩ := hfiles.start_clean himg.wal.faults hend hkept hrecover
    (by rw [hlen]; exact hlast) (by simp) maxSize
  rw [restartsFrom_of_start hstart hactive (by rw [hlen]; exact hroom), hlen]
  constructor
  · rintro ⟨htable, -⟩ e he
    by_contra hafter
    -- the newest version lies in the last file, and the table has an older one
    have hnewest := htable e (by rw [hentries]; exact List.mem_append_right _ he) (by omega)
    rw [lookup_tableOf, hentries, lastWrite_append_of_written ⟨e, he, rfl⟩] at hnewest
    obtain ⟨v, hv⟩ := lastWrite_written he
    obtain ⟨e₁, he₁, hseq₁⟩ := lastWrite_mem hv
    rw [hv] at hnewest
    obtain ⟨e₂, he₂, hseq₂⟩ := lastWrite_mem hnewest
    have hlt := hes e₂ he₂ e₁ he₁
    omega
  · intro hbefore
    have hlsn : ∀ e ∈ log.entries, e.sequenceNumber < img.active.base + img.active.size := by
      rw [represents_entries himg]
      exact entries_lt_next img
    refine ⟨?_, hlsn⟩
    intro e he hafter
    -- nothing was written after the checkpoint
    have hsorted := entries_sorted img
    rw [← represents_entries himg, hentries, List.pairwise_append] at hsorted
    obtain ⟨e', rest, hfirst⟩ := List.exists_cons_of_ne_nil hne
    have hmem : e' ∈ img.active.entries := by rw [hfirst]; exact List.mem_cons_self ..
    have hle := hbefore e' hmem
    rw [hentries] at he
    obtain he | he := List.mem_append.mp he
    · have hlt := hsorted.2.2 e he e' hmem
      omega
    · have hle' := hbefore e he
      omega

/-- INTERNAL: the last record of a log, when it lies before the last file and was written as one
piece. -/
theorem alone_iff (himg : Represents crc log img) :
    (∃ r, log.records.getLast? = some r ∧ r.entry.sequenceNumber = n ∧ n < img.active.base ∧
      r.extents.length = 1) ↔
    img.active.records = [] ∧ ∃ c, img.active.crossing = some c ∧ c.split = false ∧
      c.entry.sequenceNumber = n ∧ n < img.active.base := by
  have hnumbered := (img.valid img.active (by simp)).numbered
  have hrecords : log.records = placed s none img.closed ++
      (placeLead s img.closed.getLast? img.active ++ placeWhole (s.fileName img.active.base)
        img.active.leadSpan img.active.records) := by
    rw [himg.records]
    unfold LogImage.segments
    rw [placed_append, placed, placed, List.append_nil, Option.or_none]
  obtain hnone | ⟨init, e, hlast⟩ := List.eq_nil_or_concat img.active.records
  · -- the last record crosses over, if there is one
    rw [hnone, placeWhole, List.append_nil] at hrecords
    simp only [hnone, true_and]
    obtain ⟨hclosed, hbase, hc⟩ | ⟨earlier, before, hclosed, hlink⟩ :=
      crossing_before (show img.segments = img.closed ++ img.active :: [] from rfl)
    · simp [hbase]
    obtain ⟨c, hc, -⟩ := hlink.crosses
    have hplace : placeLead s img.closed.getLast? img.active =
        [placeCrossing s before img.active c] := by
      rw [hclosed, List.getLast?_concat]
      simp only [placeLead, hc]
    have hpieces : (placeCrossing s before img.active c).extents.length = 1 ↔ c.split = false := by
      unfold placeCrossing
      cases c.split <;> simp
    rw [hrecords, hplace, List.getLast?_concat, hc]
    constructor
    · rintro ⟨r, hr, hseq, hbefore, hone⟩
      cases hr
      rw [placeCrossing_entry] at hseq
      exact ⟨c, rfl, hpieces.mp hone, hseq, hbefore⟩
    · rintro ⟨c', hc', hsplit, hseq, hbefore⟩
      cases hc'
      exact ⟨_, rfl, by rw [placeCrossing_entry]; exact hseq, hbefore, hpieces.mpr hsplit⟩
  · -- the last record lies in the last file
    rw [List.concat_eq_append] at hlast
    constructor
    · rintro ⟨r, hr, hseq, hbefore, -⟩
      have hentry : (log.records.map Record.entry).getLast? = some e := by
        rw [hrecords, List.map_append, List.map_append, placeWhole_entries, hlast,
          ← List.append_assoc, ← List.append_assoc, List.getLast?_concat]
      rw [List.getLast?_map, hr] at hentry
      have hge := (numbered_mem hnumbered e (by rw [hlast]; simp)).1
      cases hentry
      omega
    · rintro ⟨hnil, -⟩
      rw [hnil] at hlast
      simp at hlast

/-- INTERNAL: a checkpoint between the files before the last one and the last file means that
the last file is full, and full files are listed. -/
theorem alone_listed {e : WalEntry} (hclosed : ∀ x ∈ img.closed, x.base + s.val ≤ e.sequenceNumber)
    (hrecords : img.active.records = []) {c : Crossing} (hc : img.active.crossing = some c)
    (hsplit : c.split = false) (hseq : c.entry.sequenceNumber = e.sequenceNumber)
    (hbefore : e.sequenceNumber < img.active.base) :
    e.sequenceNumber < s.endSeen img.active.base img.active.size := by
  have hvalid := img.valid
  have hactive := hvalid img.active (by simp)
  obtain ⟨-, -, hnone⟩ | ⟨earlier, before, hsegments, hlink⟩ :=
    crossing_before (show img.segments = img.closed ++ img.active :: [] from rfl)
  · rw [hc] at hnone
    cases hnone
  obtain ⟨c', hc', hend, -, -, -, hbase⟩ := hlink.crosses
  rw [hc] at hc'
  cases hc'
  have hbefore_valid := hvalid before (by rw [hsegments]; simp)
  have hle := hclosed before (by rw [hsegments]; simp)
  have hsize := hbefore_valid.size_le
  have hspan := hactive.span_le c.entry (by simp [SegmentImage.entries, hc])
  rw [← hend, hseq] at hbase
  unfold SegmentImage.endLsn at hend
  have hlsn : e.sequenceNumber = before.base + s.val := by omega
  have hdvd : s.val ∣ e.sequenceNumber := hlsn ▸ Nat.dvd_add hbefore_valid.dvd (Nat.dvd_refl _)
  have hfull : recordSpan c.entry = s.val := by
    by_contra hshort
    have hsame := s.baseOf_eq hdvd (Nat.le_add_right _ (recordSpan c.entry)) (by omega)
    omega
  have hactive_size : img.active.size = s.val := by
    simp [SegmentImage.size, SegmentImage.leadSpan, hc, Crossing.cut, hsplit, hrecords, spanOf,
      hfull]
  rw [hactive_size, s.endSeen_full hactive.dvd]
  omega

/-- INTERNAL: nothing in the last file was written after the checkpoint just when its one record
is the checkpoint. -/
theorem all_before_iff {e : WalEntry} (he : e ∈ img.entries) {earlier : List SegmentImage}
    {before : SegmentImage} (hclosed : img.closed = earlier ++ [before])
    (hlt : e.sequenceNumber < before.base + s.val) (hnothing : leadCut img.active = 0) :
    (∀ e' ∈ img.active.entries, e'.sequenceNumber ≤ e.sequenceNumber) ↔
      img.active.records = [] ∧ ∃ c, img.active.crossing = some c ∧ c.split = false ∧
        c.entry.sequenceNumber = e.sequenceNumber ∧ e.sequenceNumber < img.active.base := by
  have hvalid := img.valid
  have hbases := (List.pairwise_append.mp (chain_bases img.chain hvalid)).2.2 before
    (by rw [hclosed]; simp) img.active (by simp)
  obtain ⟨hnil, -⟩ | ⟨earlier', before', hclosed', hlink⟩ :=
    crossing_before (show img.segments = img.closed ++ img.active :: [] from rfl)
  · rw [hnil] at hclosed
    simp at hclosed
  obtain ⟨c, hc, -⟩ := hlink.crosses
  have hentries : img.active.entries = c.entry :: img.active.records := by
    simp [SegmentImage.entries, hc]
  have hsplit : c.split = false := by
    unfold leadCut at hnothing
    rw [hc] at hnothing
    by_contra hsplit
    simp [Crossing.cut, hsplit, HEADER_SIZE] at hnothing
  constructor
  · intro hall
    have hnone : img.active.records = [] := by
      apply List.eq_nil_iff_forall_not_mem.mpr
      intro e' he'
      have hge := (numbered_mem (hvalid img.active (by simp)).numbered e' he').1
      have hle := hall e' (by rw [hentries]; exact List.mem_cons_of_mem _ he')
      omega
    refine ⟨hnone, c, hc, hsplit, ?_, by omega⟩
    have hle := hall c.entry (by rw [hentries]; exact List.mem_cons_self ..)
    have hsorted := entries_sorted img
    unfold LogImage.entries LogImage.segments at he hsorted
    rw [List.flatMap_append, List.flatMap_singleton, hentries, hnone] at he hsorted
    obtain he | he := List.mem_append.mp he
    · have hless := (List.pairwise_append.mp hsorted).2.2 e he c.entry (by simp)
      omega
    · rw [List.mem_singleton.mp he]
  · rintro ⟨hnone, c', hc', -, hseq, -⟩ e' he'
    rw [hc] at hc'
    cases hc'
    rw [hentries, hnone] at he'
    rw [List.mem_singleton.mp he', hseq]

/-- A restart from the sequence number `n` of an entry knows the newest version of every key
written after `n`, and goes on with a sequence number not yet used, exactly when
`final_entry_after` finds that the last file ends after `n`, or when it does not and `n` is the
last sequence number, before the last file, of a record that was written as one piece.
SOURCE: memtable.rs:50-89, wal/segment.rs:93-99 -/
theorem restart_iff {ops : List LogOp} (hops : ∀ op ∈ ops, op.Fits crc s.val)
    (hrun : Log.run crc s.val ops = .ok log) (hn : ∃ e ∈ log.entries, e.sequenceNumber = n)
    (maxSize : ℕ) : RestartsFrom crc s log n maxSize ↔
      finalEntryAfter log.wal.activeSegment.filePath log.wal.activeSegment.fileSize n = .ok true ∨
      finalEntryAfter log.wal.activeSegment.filePath log.wal.activeSegment.fileSize n = .ok false ∧
        ∃ r, log.records.getLast? = some r ∧ r.entry.sequenceNumber = n ∧
          n < log.wal.activeSegment.baseLsn ∧ r.extents.length = 1 := by
  obtain ⟨img, himg⟩ := run_represents hops hrun
  obtain ⟨e, he, rfl⟩ := hn
  rw [represents_entries himg] at he
  have hvalid := img.valid
  have hactive := hvalid img.active (by simp)
  have hroom_iff := endSeen_lt_iff hactive.dvd hactive.base_lt hactive.size_le
  rw [himg.wal.active, openedSegment_filePath, openedSegment_fileSize, openedSegment_baseLsn,
    written_length (keepsSpan_encode crc), alone_iff himg,
    s.finalEntryAfter_fileName hactive.base_lt hactive.size_le]
  by_cases hroom : img.active.base + img.active.size < 2 ^ 64
  · rw [if_pos (hroom_iff.mpr hroom)]
    by_cases hlisted : e.sequenceNumber < s.endSeen img.active.base img.active.size
    · rw [decide_eq_true hlisted]
      exact iff_of_true (restart_listed himg hroom he hlisted maxSize) (Or.inl rfl)
    rw [decide_eq_false hlisted]
    have hfalse : ((.ok false : Exec Bool) = .ok true) ↔ False := by simp
    rw [hfalse, false_or, eq_self_iff_true, true_and]
    obtain ⟨earlier, seg, later, es, hsegments, hbegin, ⟨skipped, rest, hall, hes⟩, hearlier,
      hlater⟩ := locate crc img he
    obtain rfl | ⟨later', last, rfl⟩ := List.eq_nil_or_concat later
    · -- the checkpoint lies in the last file
      obtain ⟨hclosed, -⟩ :=
        List.append_inj' (show img.closed ++ [img.active] = _ from hsegments) rfl
      rw [← hclosed] at hearlier
      refine iff_of_false (restart_anew himg hroom he hlisted hearlier maxSize) ?_
      rintro ⟨hrecords, c, hc, hsplit, hseq, hbefore⟩
      exact hlisted (alone_listed hearlier hrecords hc hsplit hseq hbefore)
    · -- it lies in a file before
      rw [List.concat_eq_append] at hsegments hes hlater
      obtain ⟨hclosed, hsame⟩ := List.append_inj' (show img.closed ++ [img.active] =
        (earlier ++ seg :: later') ++ [last] by rw [List.append_assoc]; exact hsegments) rfl
      obtain rfl := (List.cons.inj hsame).1
      obtain ⟨hkept, hreads⟩ := restart_reads crc hclosed hbegin hearlier
        (fun x hx => hlater x (by
          obtain rfl | hx := List.mem_cons.mp hx
          · exact List.mem_cons_self ..
          · simp [hx])) hlisted
      have hover := handedOver crc img
      generalize tornCursor crc img = cur at hover hreads
      cases hover with
      | header hlast hheader hpath hoffset _ =>
        refine iff_of_false (restart_cut himg hroom hlast hkept hreads hpath hoffset maxSize) ?_
        rintro ⟨-, c, hc, hsplit, -⟩
        simp [leadCut, hc, Crossing.cut, hsplit, HEADER_SIZE] at hheader
      | nothing hnothing =>
        obtain ⟨init, before, hbefore⟩ : ∃ init before, seg :: later' = init ++ [before] :=
          ⟨_, _, (List.dropLast_append_getLast (List.cons_ne_nil seg later')).symm⟩
        have hclosed' : img.closed = (earlier ++ init) ++ [before] := by
          rw [hclosed, hbefore, List.append_assoc]
        have hlt : e.sequenceNumber < before.base + s.val := by
          apply hlater
          rw [← List.cons_append, hbefore]
          simp
        obtain ⟨hnil, -⟩ | ⟨earlier', before', -, hlink⟩ :=
          crossing_before (show img.segments = img.closed ++ img.active :: [] from rfl)
        · rw [hnil] at hclosed'
          simp at hclosed'
        have hsize := follows_size_pos hlink
        obtain ⟨c, hc, -⟩ := hlink.crosses
        have horder : ∀ e₁ ∈ es ++ later'.flatMap SegmentImage.entries,
            ∀ e₂ ∈ img.active.entries, e₁.sequenceNumber < e₂.sequenceNumber := by
          have hsorted := entries_sorted img
          rw [hall, ← hes, List.flatMap_append, List.flatMap_singleton, ← List.append_assoc es]
            at hsorted
          exact (List.pairwise_append.mp (List.pairwise_append.mp hsorted).2.1).2.2
        rw [restart_unlisted himg hroom (s.endSeen_pos _ hsize) hkept hreads horder
          (by simp [SegmentImage.entries, hc]) maxSize, all_before_iff he hclosed' hlt hnothing]
  · have hend : ¬s.endSeen img.active.base img.active.size < 2 ^ 64 := mt hroom_iff.mp hroom
    rw [if_neg hend]
    have hmem : (img.active.base, img.active.written (WalEntry.encode crc)) ∈
        filesOf (WalEntry.encode crc) [] img.segments := by
      rw [filesOf_active]
      simp
    have hpanic : MemTable.start crc log.wal.dir s.val e.sequenceNumber maxSize = .error .panic :=
      himg.files.start_panic hmem (by rw [written_length (keepsSpan_encode crc)]; exact hend) _ _
    refine iff_of_false ?_ (by simp)
    rintro ⟨w, next, hstart, -⟩
    rw [hpanic] at hstart
    cases hstart

end

/-- The short history, restarted from its last sequence number. -/
theorem restart_iff_short : ∃ log,
    Log.run (fun _ => 0) smallSegments.val shortHistory = .ok log ∧
      (RestartsFrom (fun _ => 0) smallSegments log 115 1000 ↔
        finalEntryAfter log.wal.activeSegment.filePath log.wal.activeSegment.fileSize 115 =
          .ok true ∨
        finalEntryAfter log.wal.activeSegment.filePath log.wal.activeSegment.fileSize 115 =
          .ok false ∧
          ∃ r, log.records.getLast? = some r ∧ r.entry.sequenceNumber = 115 ∧
            115 < log.wal.activeSegment.baseLsn ∧ r.extents.length = 1) := by
  have hleft : (Log.run (fun _ => 0) smallSegments.val shortHistory).map
      (fun log => log.entries.getLast?.map WalEntry.sequenceNumber) = .ok (some 115) := by decide
  obtain ⟨log, hrun, hlast⟩ := run_of_map _ hleft
  obtain ⟨e, he, hseq⟩ := Option.map_eq_some_iff.mp hlast
  exact ⟨log, hrun,
    restart_iff (shortHistory_fits _) hrun ⟨e, List.mem_of_getLast? he, hseq⟩ 1000⟩

/-- This hands out the sequence number 115 again. -/
theorem restart_reuses_sequence_number :
    (∀ op ∈ shortHistory, op.Fits (fun _ => 0) smallSegments.val) ∧
    ∃ log, Log.run (fun _ => 0) smallSegments.val shortHistory = .ok log ∧
      (∃ e ∈ log.entries, e.sequenceNumber = 115) ∧
      ¬RestartsFrom (fun _ => 0) smallSegments log 115 1000 := by
  have hleft : (Log.run (fun _ => 0) smallSegments.val shortHistory).map
      (fun log => (log.entries.getLast?.map WalEntry.sequenceNumber,
        (MemTable.start (fun _ => 0) log.wal.dir smallSegments.val 115 1000).bind
          fun w => w.wal.nextSequenceNumber)) = .ok (some 115, .ok 115) := by decide
  obtain ⟨log, hrun, hseen⟩ := run_of_map _ hleft
  obtain ⟨hlast, hnext⟩ := Prod.mk.inj hseen
  obtain ⟨e, he, hseq⟩ := Option.map_eq_some_iff.mp hlast
  have hmem := List.mem_of_getLast? he
  refine ⟨shortHistory_fits _, log, hrun, ⟨e, hmem, hseq⟩, ?_⟩
  rintro ⟨w, next, hstart, -, hnext', hlt⟩
  rw [hstart] at hnext
  cases hnext'.symm.trans hnext
  exact absurd (hlt e hmem) (by omega)

end Rkvs.Analysis
