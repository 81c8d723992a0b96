import Rkvs.Analysis.Replay
import Rkvs.Analysis.Start
import Rkvs.Interface.Damage

/-!
# Recovery after a torn write

The last file of a log is cut to some length. What is left of it are the records that fit, and
the beginning of the next one. Recovery returns the table of these records, unless the cut
falls into the rest of a record whose header is in the file before.
-/

set_option autoImplicit false

namespace Rkvs.Analysis

open Rkvs.Library Rkvs.Model Rkvs.Interface

/-! ## The records that fit -/

/-- The first records, as far as they fit into `n` bytes. -/
def fitting : ℕ → List WalEntry → List WalEntry
  | _, [] => []
  | n, e :: es => if recordSpan e ≤ n then e :: fitting (n - recordSpan e) es else []

/-- INTERNAL: no record fits if all are longer. -/
theorem fitting_of_lt {n : ℕ} {es : List WalEntry} (h : ∀ e ∈ es, n < recordSpan e) :
    fitting n es = [] := by
  cases es with
  | nil => rfl
  | cons e es => exact if_neg (Nat.not_le.mpr (h e (List.mem_cons_self ..)))

/-- INTERNAL: no record fits in nothing. -/
theorem fitting_zero (es : List WalEntry) : fitting 0 es = [] :=
  fitting_of_lt fun e _ => recordSpan_pos e

/-- INTERNAL: the records that fit come first. -/
theorem fitting_prefix (n : ℕ) (es : List WalEntry) : ∃ rest, es = fitting n es ++ rest := by
  induction es generalizing n with
  | nil => exact ⟨[], rfl⟩
  | cons e es ih =>
    rw [fitting]
    split
    · obtain ⟨rest, hrest⟩ := ih (n - recordSpan e)
      exact ⟨rest, by rw [List.cons_append, ← hrest]⟩
    · exact ⟨e :: es, rfl⟩

/-- A cut leaves the records that fit and an incomplete one. -/
theorem take_encode (crc : Bytes → UInt32) {es : List WalEntry} (h : ∀ e ∈ es, WellFormed e)
    (n : ℕ) : ∃ tail, scanRecord crc tail = .stop ∧
      (es.flatMap (WalEntry.encode crc)).take n =
        (fitting n es).flatMap (WalEntry.encode crc) ++ tail := by
  induction es generalizing n with
  | nil => exact ⟨[], scanRecord_short (by decide), by simp [fitting]⟩
  | cons e es ih =>
    have hspan : (e.encode crc).length = recordSpan e := encode_length crc e
    rw [fitting, List.flatMap_cons, List.take_append]
    split
    · rename_i hfit
      obtain ⟨tail, hstop, htake⟩ := ih (fun e' he' => h e' (List.mem_cons_of_mem _ he'))
        (n - recordSpan e)
      refine ⟨tail, hstop, ?_⟩
      rw [List.take_of_length_le (by omega), hspan, htake, List.flatMap_cons, List.append_assoc]
    · rename_i hfit
      refine ⟨(e.encode crc).take n, ?_, ?_⟩
      · by_cases hshort : n < HEADER_SIZE
        · exact scanRecord_short (lt_of_le_of_lt (List.length_take_le ..) hshort)
        · have hheader : HEADER_SIZE = 13 := rfl
          apply scanRecord_incomplete (h e (List.mem_cons_self ..))
          · rw [List.take_take, Nat.min_eq_left (by omega)]
          · rw [List.length_take]
            omega
      · rw [Nat.sub_eq_zero_of_le (by omega)]
        simp

/-- INTERNAL: whole records are there as far as they fit. -/
theorem present_whole (dir : Dir) (file : String) (offset : ℕ) (es : List WalEntry) :
    ((placeWhole file offset es).filter (Record.isPresent dir)).map Record.entry =
      fitting ((dir.content file).length - offset) es := by
  induction es generalizing offset with
  | nil => rfl
  | cons e es ih =>
    have hpos := recordSpan_pos e
    have hpresent : Record.isPresent dir ⟨e, [⟨file, offset, recordSpan e⟩]⟩ =
        decide (offset + recordSpan e ≤ (dir.content file).length) := by
      simp [Record.isPresent]
    rw [placeWhole, List.filter_cons, hpresent, fitting]
    by_cases hfit : offset + recordSpan e ≤ (dir.content file).length
    · rw [if_pos (decide_eq_true hfit), if_pos (by omega), List.map_cons, ih, Nat.sub_sub]
    · rw [if_neg (by simpa using hfit), if_neg (by omega), ih, Nat.sub_eq_zero_of_le (by omega),
        fitting_zero]

/-! ## The files of a torn log -/

/-- The bytes of the record that crosses over into a segment that are in the segment before. -/
def leadCut (img : SegmentImage) : ℕ :=
  match img.crossing with
  | none => 0
  | some c => c.cut

section
variable {crc : Bytes → UInt32} {s : SegmentSize} {log : Log} {img : LogImage s} {cut : ℕ}

/-- The files before the last one. -/
def closedFiles (crc : Bytes → UInt32) (img : LogImage s) : List (ℕ × Bytes) :=
  filesOf (WalEntry.encode crc) (closing (WalEntry.encode crc) [] [img.active]) img.closed

/-- What is left of the last file. -/
def tornContent (crc : Bytes → UInt32) (img : LogImage s) (cut : ℕ) : Bytes :=
  (img.active.written (WalEntry.encode crc)).take cut

/-- The files of a torn log. -/
theorem torn_files (himg : Represents crc log img) (cut : ℕ) :
    SegmentFiles s (tornDir log cut)
      (closedFiles crc img ++ [(img.active.base, tornContent crc img cut)]) := by
  have hsize := himg.wal.size_le
  unfold tornDir cutFile
  rw [himg.wal.active, openedSegment_filePath, himg.wal.content_eq]
  apply himg.wal.files.put rfl
  rw [List.length_take]
  omega

/-- INTERNAL: the length of a file that was cut. -/
theorem tornContent_length (crc : Bytes → UInt32) (hcut : cut ≤ img.active.size) :
    (tornContent crc img cut).length = cut := by
  unfold tornContent
  rw [List.length_take, written_length (keepsSpan_encode crc), Nat.min_eq_left hcut]

/-- INTERNAL: the same for the file in the directory. -/
theorem torn_content (himg : Represents crc log img) (hcut : cut ≤ img.active.size) :
    ((tornDir log cut).content (s.fileName img.active.base)).length = cut := by
  have hmem : (img.active.base, tornContent crc img cut) ∈
      closedFiles crc img ++ [(img.active.base, tornContent crc img cut)] := by simp
  have hcontent := (torn_files himg cut).content hmem
  dsimp only at hcontent
  rw [hcontent, tornContent_length crc hcut]

/-- INTERNAL: the files before the last one are as long as ever. -/
theorem torn_closed (himg : Represents crc log img) (cut : ℕ) {x : SegmentImage}
    (hx : x ∈ img.closed) :
    ((tornDir log cut).content (s.fileName x.base)).length = s.val := by
  have henc := keepsSpan_encode crc
  obtain ⟨earlier, later, hclosed⟩ := List.append_of_mem hx
  obtain ⟨content, hmem⟩ : ∃ content, (x.base, content) ∈ closedFiles crc img := by
    unfold closedFiles
    rw [hclosed, filesOf_append, filesOf]
    exact ⟨_, List.mem_append_right _ (List.mem_cons_self ..)⟩
  have hfull := filesOf_full henc [] img.chain _ hmem
  have hcontent := (torn_files himg cut).content (List.mem_append_left _ hmem)
  dsimp only at hcontent hfull
  rw [hcontent, hfull]

/-- INTERNAL: the records that end before the last file are all present. -/
theorem present_closed (himg : Represents crc log img) (cut : ℕ) :
    ∀ r ∈ placed s none img.closed, r.isPresent (tornDir log cut) = true := by
  have hvalid := img.valid
  intro r hr
  obtain ⟨earlier, seg, later, hclosed, hplaced⟩ :=
    mem_placed (show r ∈ placed s ([] : List SegmentImage).getLast? img.closed from hr)
  have hseg : seg ∈ img.closed := by rw [hclosed]; simp
  have hseg_len := torn_closed himg cut hseg
  have hseg_size := (hvalid seg (List.mem_append_left _ hseg)).size_le
  unfold SegmentImage.size at hseg_size
  unfold Record.isPresent
  cases hplaced with
  | @whole skipped rest e hrecords =>
    have hspan : spanOf (e :: rest) = recordSpan e + spanOf rest := by simp [spanOf]
    rw [hrecords, spanOf_append, hspan] at hseg_size
    simp only [List.all_cons, List.all_nil, Bool.and_true, decide_eq_true_eq, hseg_len]
    omega
  | @crossing earlier' before c hearlier hc =>
    rw [List.nil_append] at hearlier
    have hsegments : img.segments = (earlier' ++ [before]) ++ seg :: (later ++ [img.active]) := by
      unfold LogImage.segments
      rw [hclosed, hearlier]
      simp
    have hbefore : before ∈ img.closed := by rw [hclosed, hearlier]; simp
    have hbefore_len := torn_closed himg cut hbefore
    obtain ⟨hnil, -⟩ | ⟨earlier'', before', hlast, hlink⟩ := crossing_before hsegments
    · simp at hnil
    obtain ⟨-, hbefore'⟩ := List.append_inj' hlast rfl
    rw [← (List.cons.inj hbefore').1] at hlink
    obtain ⟨c', hc', -, hfull, -, -, -⟩ := hlink.crosses
    rw [hc] at hc'
    cases hc'
    have hlead : seg.leadSpan = recordSpan c.entry - c.cut := by
      unfold SegmentImage.leadSpan
      rw [hc]
    unfold Crossing.cut at hlead hfull
    unfold placeCrossing
    cases hsplit : c.split with
    | false =>
      rw [hsplit, if_neg (by simp)] at hlead
      simp only [Bool.false_eq_true, if_false, List.all_cons, List.all_nil, Bool.and_true,
        decide_eq_true_eq, hseg_len]
      omega
    | true =>
      rw [hsplit, if_pos rfl] at hlead hfull
      simp only [if_true, List.all_cons, List.all_nil, Bool.and_true, Bool.and_eq_true,
        decide_eq_true_eq, hseg_len, hbefore_len]
      omega

/-- INTERNAL: the records that end in the last file are present as far as they fit behind the
bytes of the first of them that are in the file before. -/
theorem present_active (himg : Represents crc log img) (hcut : cut ≤ img.active.size) :
    ((placeLead s img.closed.getLast? img.active ++ placeWhole (s.fileName img.active.base)
        img.active.leadSpan img.active.records).filter
          (Record.isPresent (tornDir log cut))).map Record.entry =
      fitting (leadCut img.active + cut) img.active.entries := by
  have hlen := torn_content himg hcut
  rw [List.filter_append, List.map_append, present_whole, hlen]
  obtain ⟨hclosed, -, hc⟩ | ⟨earlier, before, hclosed, hlink⟩ :=
    crossing_before (show img.segments = img.closed ++ img.active :: [] from rfl)
  · have hlead : placeLead s img.closed.getLast? img.active = [] := by
      rw [hclosed]
      rfl
    rw [hlead]
    simp [SegmentImage.entries, SegmentImage.leadSpan, leadCut, hc]
  obtain ⟨c, hc, -, hfull, hspan, -, -⟩ := hlink.crosses
  have hbefore_len := torn_closed himg cut (show before ∈ img.closed by rw [hclosed]; simp)
  have hplace : placeLead s img.closed.getLast? img.active =
      [placeCrossing s before img.active c] := by
    rw [hclosed, List.getLast?_concat]
    simp only [placeLead, hc]
  have hpresent : (placeCrossing s before img.active c).isPresent (tornDir log cut) =
      decide (recordSpan c.entry ≤ c.cut + cut) := by
    unfold Crossing.cut at hfull ⊢
    unfold placeCrossing Record.isPresent
    cases hsplit : c.split with
    | false => simp [hlen]
    | true =>
      rw [hsplit, if_pos rfl] at hfull
      have hroom : before.size + HEADER_SIZE ≤ s.val := by omega
      have hiff : recordSpan c.entry - HEADER_SIZE ≤ cut ↔
          recordSpan c.entry ≤ HEADER_SIZE + cut := by omega
      simp [hlen, hbefore_len, hroom, hiff]
  have hlead : img.active.leadSpan = recordSpan c.entry - c.cut := by
    unfold SegmentImage.leadSpan
    rw [hc]
  have hentries : img.active.entries = c.entry :: img.active.records := by
    simp [SegmentImage.entries, hc]
  have hleadCut : leadCut img.active = c.cut := by
    unfold leadCut
    rw [hc]
  rw [hplace, List.filter_cons, hpresent, List.filter_nil, hentries, hleadCut, hlead, fitting]
  by_cases hfit : recordSpan c.entry ≤ c.cut + cut
  · rw [if_pos (decide_eq_true hfit), if_pos hfit, List.map_cons, List.map_nil,
      placeCrossing_entry, List.singleton_append]
    congr 2
    omega
  · rw [if_neg (by simpa using hfit), if_neg hfit, Nat.sub_eq_zero_of_le (by omega), fitting_zero]
    rfl

/-- The entries all of whose bytes are still present. -/
theorem present_torn (himg : Represents crc log img) (hcut : cut ≤ img.active.size) :
    (log.records.filter (Record.isPresent (tornDir log cut))).map Record.entry =
      img.closed.flatMap SegmentImage.entries ++
        fitting (leadCut img.active + cut) img.active.entries := by
  have hclosed : (placed s none img.closed).filter (Record.isPresent (tornDir log cut)) =
      placed s none img.closed := List.filter_eq_self.mpr (present_closed himg cut)
  have hrecords : log.records = placed s none img.closed ++
      (placeLead s img.closed.getLast? img.active ++ placeWhole (s.fileName img.active.base)
        img.active.leadSpan img.active.records) := by
    rw [himg.records]
    unfold LogImage.segments
    rw [placed_append, placed, placed, List.append_nil, Option.or_none]
  have hentries : (placed s none img.closed).map Record.entry =
      img.closed.flatMap SegmentImage.entries := by
    cases hsegments : img.closed with
    | nil => rfl
    | cons first imgs =>
      have hfirst := (img.first first (by rw [hsegments]; rfl)).2
      have hlead : placeLead s none first = [] := rfl
      rw [placed, hlead, List.nil_append, List.map_append, placeWhole_entries,
        placed_some_entries, List.flatMap_cons]
      simp [SegmentImage.entries, hfirst]
  rw [hrecords, List.filter_append, List.map_append, hclosed, hentries,
    present_active himg hcut]

/-! ## Reading a torn log -/

/-- Where reading stands before the last file. -/
def tornCursor (crc : Bytes → UInt32) (img : LogImage s) : Cursor :=
  cursorAfter s img.closed (closing (WalEntry.encode crc) [] [img.active])

/-- What is handed over to the last file: nothing, or the header of a record that begins at
the end of the file before. -/
inductive HandedOver (img : LogImage s) : Cursor → Prop
  | nothing (h : leadCut img.active = 0) : HandedOver img (.start 0)
  | header {earlier : List SegmentImage} {before : SegmentImage} {p : PartialWalEntry}
      (hclosed : img.closed = earlier ++ [before]) (h : leadCut img.active = HEADER_SIZE)
      (hpath : p.segmentFilePath = s.fileName before.base) (hoffset : p.offset = before.size)
      (hbytes : p.bytes.length = HEADER_SIZE) : HandedOver img (.carried p)

/-- INTERNAL: what is handed over to the file that was cut. -/
theorem handedOver (crc : Bytes → UInt32) (img : LogImage s) :
    HandedOver img (tornCursor crc img) := by
  unfold tornCursor
  obtain ⟨hclosed, -, hc⟩ | ⟨earlier, before, hclosed, hlink⟩ :=
    crossing_before (show img.segments = img.closed ++ img.active :: [] from rfl)
  · rw [hclosed]
    exact .nothing (by simp [leadCut, hc])
  obtain ⟨c, hc, -, -, hspan, hzeros, -⟩ := hlink.crosses
  have hleadCut : leadCut img.active = c.cut := by
    unfold leadCut
    rw [hc]
  have hcur : cursorAfter s img.closed (closing (WalEntry.encode crc) [] [img.active]) =
      Cursor.after (s.fileName before.base) before.size (c.before (WalEntry.encode crc)) := by
    unfold cursorAfter
    rw [hclosed, List.getLast?_concat, closing, hc]
  have hlen := before_length (keepsSpan_encode crc) hspan
  rw [hcur]
  cases hsplit : c.split with
  | false =>
    have hcut : c.cut = 0 := by simp [Crossing.cut, hsplit]
    rw [Cursor.after_short]
    · exact .nothing (by omega)
    · have hshort := hzeros hsplit
      omega
  | true =>
    have hcut : c.cut = HEADER_SIZE := by simp [Crossing.cut, hsplit]
    rw [Cursor.after_header]
    · refine .header hclosed (by omega) rfl rfl ?_
      rw [List.length_take]
      omega
    · omega

/-- INTERNAL: a cursor at the beginning of a file puts bytes in front of its contents. -/
theorem HandedOver.buffer {cur : Cursor} (h : HandedOver img cur) :
    cur.offset = 0 ∧ ∃ front, front.length = leadCut img.active ∧
      ∀ content, cur.buffer content = front ++ content := by
  cases h with
  | nothing h => exact ⟨rfl, [], h.symm, fun _ => rfl⟩
  | @header _ _ p _ h _ _ hbytes => exact ⟨rfl, p.bytes, hbytes.trans h.symm, fun _ => rfl⟩

/-- What the parser gets for the last file is a part of the records that end there. -/
theorem torn_buffer (crc : Bytes → UInt32) (img : LogImage s) (cut : ℕ) :
    (tornCursor crc img).buffer (tornContent crc img cut) =
      (img.active.entries.flatMap (WalEntry.encode crc)).take (leadCut img.active + cut) := by
  have hjoin := (reads_up_to (show img.segments = img.closed ++ img.active :: [] from rfl)
    (keepsSpan_encode crc) (fun _ _ _ _ => rfl) (fun _ _ => rfl)).2
  obtain ⟨-, front, hfront, hbuffer⟩ := (handedOver crc img).buffer
  have hwhole := hjoin.buffer (img.active.records.flatMap (WalEntry.encode crc))
  have hall : front ++ img.active.written (WalEntry.encode crc) =
      img.active.entries.flatMap (WalEntry.encode crc) := by
    rw [← hbuffer]
    unfold SegmentImage.written
    refine hwhole.trans ?_
    rw [← List.flatMap_append]
    rfl
  unfold tornContent
  have hfront_le : front.length ≤ leadCut img.active + cut := by omega
  rw [hbuffer, ← hall, List.take_append, List.take_of_length_le hfront_le, hfront,
    Nat.add_sub_cancel_left]

/-- INTERNAL: not even one record comes of the last file when a header was handed over and the
rest of its record is not all there. -/
theorem fitting_eq_nil (hvalid : img.active.Valid s) (h : leadCut img.active = HEADER_SIZE) :
    fitting (leadCut img.active + cut) img.active.entries = [] ↔ cut < img.active.leadSpan := by
  unfold leadCut SegmentImage.leadSpan at *
  cases hc : img.active.crossing with
  | none =>
    rw [hc] at h
    cases h
  | some c =>
    rw [hc] at h
    have hentries : img.active.entries = c.entry :: img.active.records := by
      simp [SegmentImage.entries, hc]
    have hlong := header_lt_span (hvalid.wellFormed c.entry (by simp [hentries]))
    dsimp only at h ⊢
    rw [hentries, fitting, h]
    by_cases hfit : recordSpan c.entry ≤ HEADER_SIZE + cut
    · rw [if_pos hfit]
      simp only [List.cons_ne_nil, false_iff]
      omega
    · rw [if_neg hfit]
      simp only [true_iff]
      omega

/-- INTERNAL: the last file is read up to the record that was cut off. -/
theorem torn_fileReads (crc : Bytes → UInt32) (hcut : cut ≤ img.active.size)
    (h : leadCut img.active = HEADER_SIZE → ¬cut < img.active.leadSpan) :
    ∃ tail, FileReads crc (tornCursor crc img) (tornContent crc img cut)
      (fitting (leadCut img.active + cut) img.active.entries) tail ∧ tail.length ≤ cut := by
  have hvalid := img.valid img.active (by simp)
  obtain ⟨tail, hstop, htake⟩ :=
    take_encode crc hvalid.wellFormed (leadCut img.active + cut)
  obtain ⟨rest, hrest⟩ := fitting_prefix (leadCut img.active + cut) img.active.entries
  have hwell : ∀ e ∈ fitting (leadCut img.active + cut) img.active.entries, WellFormed e := by
    intro e he
    apply hvalid.wellFormed
    rw [hrest]
    exact List.mem_append_left _ he
  have hlen : spanOf (fitting (leadCut img.active + cut) img.active.entries) + tail.length ≤
      leadCut img.active + cut := by
    rw [← flatMap_length (keepsSpan_encode crc), ← List.length_append, ← htake, List.length_take]
    exact Nat.min_le_left ..
  have htail : tail.length ≤ cut := by
    have hover := handedOver crc img
    generalize tornCursor crc img = cur at hover
    cases hover with
    | nothing hnone => omega
    | header _ hheader =>
      obtain ⟨e, es, hes⟩ := List.exists_cons_of_ne_nil
        (mt (fitting_eq_nil hvalid hheader).mp (h hheader))
      have hlong := header_lt_span (hwell e (by simp [hes]))
      have hspan : spanOf (e :: es) = recordSpan e + spanOf es := by simp [spanOf]
      rw [hes, hspan] at hlen
      omega
  refine ⟨tail, ⟨?_, hstop, ?_, Or.inr ?_⟩, htail⟩
  · rw [torn_buffer, htake]
    exact reads_encode hwell tail
  · rw [(handedOver crc img).buffer.1]
    exact Nat.zero_le _
  · rw [tornContent_length crc hcut]
    exact htail

/-- INTERNAL: reading gets as far as the last file. -/
theorem closed_reads (crc : Bytes → UInt32) (img : LogImage s) :
    ReadsFiles crc s (.start 0) (closedFiles crc img) (img.closed.flatMap SegmentImage.entries)
      (tornCursor crc img) :=
  (reads_up_to (show img.segments = img.closed ++ img.active :: [] from rfl)
    (keepsSpan_encode crc) (fun _ _ _ _ => rfl) (fun _ _ => rfl)).1

/-! ## Starting from a torn log -/

/-- INTERNAL: the files before the last one are listed. -/
theorem torn_kept (crc : Bytes → UInt32) (hcut : cut ≤ img.active.size) :
    keptAfter s 0 (closedFiles crc img ++ [(img.active.base, tornContent crc img cut)]) =
      closedFiles crc img ++ if 0 < s.endSeen img.active.base cut then
        [(img.active.base, tornContent crc img cut)] else [] := by
  have hpos := s.pos
  have hall : (closedFiles crc img).filter (fun f => 0 < s.endSeen f.1 f.2.length) =
      closedFiles crc img := by
    apply List.filter_eq_self.mpr
    intro f hf
    have hfull := filesOf_full (keepsSpan_encode crc) [] img.chain f hf
    exact decide_eq_true (s.endSeen_pos f.1 (by omega))
  unfold keptAfter
  rw [List.filter_append, hall, List.filter_cons, List.filter_nil, tornContent_length crc hcut]
  simp only [decide_eq_true_eq]

/-- INTERNAL: nothing but the end of the last file can overflow. -/
theorem torn_end (himg : Represents crc log img) (hcut : cut ≤ img.active.size) :
    (∀ f ∈ closedFiles crc img ++ [(img.active.base, tornContent crc img cut)],
      s.endSeen f.1 f.2.length < 2 ^ 64) ↔ img.active.base + cut < 2 ^ 64 := by
  have hactive := img.valid img.active (by simp)
  rw [(torn_files himg cut).end_lt_iff, tornContent_length crc hcut,
    endSeen_lt_iff hactive.dvd hactive.base_lt (hcut.trans hactive.size_le)]

/-- The last file ends in the rest of a record whose header is in the file before, and
recovery reads it. -/
structure Swallowed (img : LogImage s) (cut : ℕ) : Prop where
  header : leadCut img.active = HEADER_SIZE
  short : cut < img.active.leadSpan
  listed : 0 < s.endSeen img.active.base cut

/-- Recovery panics on the rest of a record that is not all there.
SOURCE: wal/segment.rs:187 -/
theorem start_swallowed (himg : Represents crc log img) (hcut : cut ≤ img.active.size)
    (hroom : img.active.base + cut < 2 ^ 64) (h : Swallowed img cut) (maxSize : ℕ) :
    MemTable.start crc (tornDir log cut) s.val 0 maxSize = .error .panic := by
  have hfiles := torn_files himg cut
  have hvalid := img.valid img.active (by simp)
  have hkept := @torn_kept s img cut crc hcut
  rw [if_pos h.listed] at hkept
  apply hfiles.start_recover_panic ((torn_end himg hcut).mpr hroom) (by rw [hkept]; simp)
  rw [hkept, Nat.zero_mod, List.map_append, List.map_singleton]
  have hloop := recoverLoop_readsFiles (closed_reads crc img)
    (fun f hf => hfiles.content (List.mem_append_left _ hf))
    [openedSegment s (img.active.base, tornContent crc img cut)] 0 ∅
  refine hloop.trans ?_
  obtain ⟨tail, hstop, htake⟩ :=
    take_encode crc hvalid.wellFormed (leadCut img.active + cut)
  rw [(fitting_eq_nil hvalid h.header).mpr h.short, List.flatMap_nil, List.nil_append] at htake
  have hbuffer := torn_buffer crc img cut
  rw [htake] at hbuffer
  have hcontent := hfiles.content
    (show (img.active.base, tornContent crc img cut) ∈ _ by simp)
  have hover := handedOver crc img
  generalize tornCursor crc img = cur at hover hbuffer
  cases hover with
  | nothing hnone =>
    have hheader := h.header
    rw [hnone] at hheader
    cases hheader
  | @header _ _ p _ _ _ _ hbytes =>
    have hreads : (walFraming crc).Reads (Cursor.buffer (tornContent crc img cut) (.carried p)) []
        tail := by
      rw [hbuffer]
      exact .done _
    have hlen := congrArg List.length hbuffer
    rw [Cursor.buffer, List.length_append, hbytes] at hlen
    refine recoverLoop_underflow (by rw [openedSegment_filePath, hcontent]; exact hreads) hstop
      (by omega) ?_
    have hpos : HEADER_SIZE = 13 := rfl
    rw [openedSegment_filePath, hcontent]
    dsimp only
    omega

/-- INTERNAL: a torn log whose last file is read.
SOURCE: memtable.rs:50-89 -/
theorem start_listed (himg : Represents crc log img) (hcut : cut ≤ img.active.size)
    (hroom : img.active.base + cut < 2 ^ 64) (hlisted : 0 < s.endSeen img.active.base cut)
    (h : leadCut img.active = HEADER_SIZE → ¬cut < img.active.leadSpan) (maxSize : ℕ) :
    ∃ w size, MemTable.start crc (tornDir log cut) s.val 0 maxSize =
      .ok ⟨tableOf (img.closed.flatMap SegmentImage.entries ++
        fitting (leadCut img.active + cut) img.active.entries), w, size, maxSize⟩ := by
  have hfiles := torn_files himg cut
  have hend := (torn_end himg hcut).mpr hroom
  have hlen := @tornContent_length s img cut crc hcut
  have hkept := @torn_kept s img cut crc hcut
  rw [if_pos hlisted] at hkept
  have hkept_ne : keptAfter s 0
      (closedFiles crc img ++ [(img.active.base, tornContent crc img cut)]) ≠ [] := by
    rw [hkept]
    simp
  obtain ⟨tail, hlast, htail⟩ := torn_fileReads crc hcut h
  have hreads := (closed_reads crc img).append (hlast.single img.active.base)
  rw [hlen] at hreads
  by_cases hshort : tail.length < HEADER_SIZE
  · rw [Cursor.after_short _ _ hshort] at hreads
    have hrecover := recover_readsFiles hreads fun f hf => hfiles.content hf
    rw [← Nat.zero_mod s.val, ← hkept] at hrecover
    obtain ⟨w, hstart, -⟩ := hfiles.start_clean himg.wal.faults hend hkept_ne hrecover
      (by rw [hlen]; exact hlisted) (by simp) maxSize
    exact ⟨w, _, hstart⟩
  · rw [Cursor.after_header _ _ (Nat.not_lt.mp hshort)] at hreads
    have hrecover := recover_leftOver hreads fun f hf => hfiles.content hf
    rw [← Nat.zero_mod s.val, ← hkept] at hrecover
    dsimp only at hrecover
    obtain ⟨w, hstart, -⟩ := hfiles.start_repair himg.wal.faults hend hkept_ne
      (by rw [hlen]; exact hlisted) hrecover (by omega) (by omega) maxSize
    exact ⟨w, _, hstart⟩

/-- INTERNAL: the last file but one. -/
theorem closedFiles_last (crc : Bytes → UInt32) {earlier : List SegmentImage}
    {before : SegmentImage} (hclosed : img.closed = earlier ++ [before]) :
    ∃ front content, closedFiles crc img = front ++ [(before.base, content)] ∧
      before.size ≤ content.length ∧ 0 < s.endSeen before.base content.length ∧
      before.base + before.size < 2 ^ 64 := by
  have hvalid := img.valid
  have hsplit : closedFiles crc img = filesOf (WalEntry.encode crc) (closing (WalEntry.encode crc)
      (closing (WalEntry.encode crc) [] [img.active]) [before]) earlier ++
        [(before.base, before.written (WalEntry.encode crc) ++
          closing (WalEntry.encode crc) [] [img.active])] := by
    unfold closedFiles
    rw [hclosed, filesOf_append]
    rfl
  have hfull := filesOf_full (keepsSpan_encode crc) [] img.chain
    (before.base, before.written (WalEntry.encode crc) ++
      closing (WalEntry.encode crc) [] [img.active])
    (show _ ∈ closedFiles crc img by rw [hsplit]; simp)
  have hbases := (List.pairwise_append.mp (chain_bases img.chain hvalid)).2.2 before
    (by rw [hclosed]; simp) img.active (by simp)
  have hsize := (hvalid before (by rw [hclosed]; simp)).size_le
  have hactive := (hvalid img.active (by simp)).base_lt
  have hpos := s.pos
  dsimp only at hfull
  refine ⟨_, _, hsplit, ?_, s.endSeen_pos _ (by omega), by omega⟩
  rw [List.length_append, written_length (keepsSpan_encode crc)]
  omega

/-- INTERNAL: a torn log whose last file is empty and not read.
SOURCE: memtable.rs:50-89 -/
theorem start_unlisted (himg : Represents crc log img) (hcut : cut ≤ img.active.size)
    (hroom : img.active.base + cut < 2 ^ 64) (hlisted : ¬0 < s.endSeen img.active.base cut)
    (maxSize : ℕ) :
    ∃ w size, MemTable.start crc (tornDir log cut) s.val 0 maxSize =
      .ok ⟨tableOf (img.closed.flatMap SegmentImage.entries), w, size, maxSize⟩ := by
  have hfiles := torn_files himg cut
  have hend := (torn_end himg hcut).mpr hroom
  have hlen := @tornContent_length s img cut crc hcut
  have hkept := @torn_kept s img cut crc hcut
  rw [if_neg hlisted, List.append_nil] at hkept
  have hreads := closed_reads crc img
  have hcontent : ∀ f ∈ closedFiles crc img, (tornDir log cut).content (s.fileName f.1) = f.2 :=
    fun f hf => hfiles.content (List.mem_append_left _ hf)
  obtain hclosed | ⟨earlier, before, hclosed⟩ := List.eq_nil_or_concat img.closed
  · have hnone : closedFiles crc img = [] := by
      unfold closedFiles
      rw [hclosed]
      rfl
    obtain ⟨w, hstart, -⟩ :=
      hfiles.start_fresh himg.wal.faults hend (hkept.trans hnone) maxSize
    rw [hclosed]
    exact ⟨w, 0, hstart⟩
  · rw [List.concat_eq_append] at hclosed
    -- the last file that is read is the one before
    obtain ⟨front, content, hfront, hsize, hbefore_listed, hbefore_next⟩ :=
      closedFiles_last crc hclosed
    have hkept_ne : keptAfter s 0
        (closedFiles crc img ++ [(img.active.base, tornContent crc img cut)]) ≠ [] := by
      rw [hkept, hfront]
      simp
    have hover := handedOver crc img
    generalize tornCursor crc img = cur at hover hreads
    cases hover with
    | nothing _ =>
      have hrecover := recover_readsFiles hreads hcontent
      rw [← Nat.zero_mod s.val, ← hkept] at hrecover
      rw [hfront, List.append_assoc, List.singleton_append] at hfiles hend hkept_ne hrecover
      obtain ⟨w, hstart, -⟩ := hfiles.start_clean himg.wal.faults hend hkept_ne hrecover
        hbefore_listed (by
          intro f hf
          rw [List.mem_singleton.mp hf]
          dsimp only
          rw [hlen]
          exact Nat.eq_zero_of_not_pos hlisted) maxSize
      exact ⟨w, _, hstart⟩
    | @header earlier' before' p hclosed' _ hpath hoffset _ =>
      rw [hclosed] at hclosed'
      obtain ⟨-, hlast⟩ := List.append_inj' hclosed' rfl
      obtain rfl := (List.cons.inj hlast).1
      have hrecover := recover_leftOver hreads hcontent
      rw [← Nat.zero_mod s.val, ← hkept, hpath, hoffset] at hrecover
      rw [hfront, List.append_assoc, List.singleton_append] at hfiles hend hkept_ne hrecover
      obtain ⟨w, hstart, -⟩ := hfiles.start_repair himg.wal.faults hend hkept_ne
        hbefore_listed hrecover hsize hbefore_next maxSize
      exact ⟨w, _, hstart⟩

/-! ## When a torn log is recovered -/

/-- INTERNAL: the record whose rest is at the beginning of the last file. -/
theorem rest_iff (himg : Represents crc log img) (length : ℕ) :
    (∃ r ∈ log.records, ∃ x, r.extents = [x, ⟨s.fileName img.active.base, 0, length⟩]) ↔
      leadCut img.active = HEADER_SIZE ∧ length = img.active.leadSpan := by
  have hrecords := himg.records
  constructor
  · rintro ⟨r, hr, x, hx⟩
    rw [hrecords] at hr
    obtain ⟨earlier, seg, later, hsegments, hplaced⟩ :=
      mem_placed (show r ∈ placed s ([] : List SegmentImage).getLast? img.segments from hr)
    cases hplaced with
    | whole _ => simp at hx
    | @crossing earlier' before c hearlier hc =>
      unfold placeCrossing at hx
      cases hsplit : c.split with
      | false => simp [hsplit] at hx
      | true =>
        simp only [hsplit, if_true, List.cons.injEq, Extent.mk.injEq, and_true] at hx
        obtain ⟨-, hname, -, rfl⟩ := hx
        -- the record crosses over into the last segment
        have hlast : seg = img.active := by
          obtain rfl | hlater := List.eq_nil_or_concat later
          · obtain ⟨-, hactive⟩ :=
              List.append_inj' (show img.closed ++ [img.active] = _ from hsegments) rfl
            exact (List.cons.inj hactive).1.symm
          · obtain ⟨init, last, rfl⟩ := hlater
            rw [List.concat_eq_append] at hsegments
            obtain ⟨-, hactive⟩ := List.append_inj' (show img.closed ++ [img.active] =
              (earlier ++ seg :: init) ++ [last] by rw [List.append_assoc]; exact hsegments) rfl
            obtain rfl := (List.cons.inj hactive).1
            have hbases := chain_bases img.chain img.valid
            rw [show img.closed ++ [img.active] = img.segments from rfl, hsegments,
              List.pairwise_append, List.pairwise_cons] at hbases
            have hle := hbases.2.1.1 img.active (by simp)
            have hseg := img.valid seg
              (by rw [show img.closed ++ [img.active] = img.segments from rfl, hsegments]; simp)
            have hactive_valid := img.valid img.active (by simp)
            have hpos := s.pos
            have hlt := s.fileName_lt hseg.dvd hactive_valid.dvd (by omega) hactive_valid.base_lt
            exact absurd hname (ne_of_lt hlt)
        rw [← hlast]
        simp [leadCut, SegmentImage.leadSpan, hc, Crossing.cut, hsplit]
  · rintro ⟨hheader, rfl⟩
    obtain ⟨-, -, hc⟩ | ⟨earlier, before, hclosed, hlink⟩ :=
      crossing_before (show img.segments = img.closed ++ img.active :: [] from rfl)
    · rw [leadCut, hc] at hheader
      cases hheader
    obtain ⟨c, hc, -⟩ := hlink.crosses
    have hsplit : c.split = true := by
      rw [leadCut, hc] at hheader
      by_contra hsplit
      simp [Crossing.cut, hsplit, HEADER_SIZE] at hheader
    refine ⟨placeCrossing s before img.active c, ?_, ?_⟩
    · have hplace : placeLead s img.closed.getLast? img.active =
          [placeCrossing s before img.active c] := by
        rw [hclosed, List.getLast?_concat]
        simp only [placeLead, hc]
      rw [hrecords]
      unfold LogImage.segments
      rw [placed_append, placed, Option.or_none, hplace]
      simp
    · unfold placeCrossing SegmentImage.leadSpan
      rw [if_pos hsplit, hc]
      simp [Crossing.cut, hsplit]

/-- A log whose last file was cut is recovered, with the table of the records that are still
present, exactly when the cut does not leave a part of the rest of a record whose header is in
the file before. The rest may be missing as a whole, unless LSN 2^32 is reached: a file that
has become empty is then read all the same. The end of the last file must be an LSN.
SOURCE: memtable.rs:50-89 -/
theorem torn_write_iff {ops : List LogOp} (hops : ∀ op ∈ ops, op.Fits crc s.val)
    (hrun : Log.run crc s.val ops = .ok log) (hcut : cut ≤ log.wal.activeSegment.fileSize)
    (maxSize : ℕ) :
    (∃ w, MemTable.start crc (tornDir log cut) s.val 0 maxSize = .ok w ∧
      ∀ key, w.table.lookup key = lastWrite
        ((log.records.filter (Record.isPresent (tornDir log cut))).map Record.entry) key) ↔
    log.wal.activeSegment.baseLsn + cut < 2 ^ 64 ∧
      ∀ r ∈ log.records, ∀ x length,
        r.extents = [x, ⟨log.wal.activeSegment.filePath, 0, length⟩] → cut < length →
          cut = 0 ∧ log.wal.activeSegment.baseLsn < 2 ^ 32 := by
  obtain ⟨img, himg⟩ := run_represents hops hrun
  have hactive := himg.wal.active
  rw [hactive, openedSegment_fileSize, written_length (keepsSpan_encode crc)] at hcut
  rw [hactive, openedSegment_baseLsn, openedSegment_filePath]
  have hcondition : (∀ r ∈ log.records, ∀ x length,
      r.extents = [x, ⟨s.fileName img.active.base, 0, length⟩] → cut < length →
        cut = 0 ∧ img.active.base < 2 ^ 32) ↔ ¬Swallowed img cut := by
    constructor
    · rintro h ⟨hheader, hshort, hlisted⟩
      obtain ⟨r, hr, x, hx⟩ := (rest_iff himg _).mpr ⟨hheader, rfl⟩
      obtain ⟨hzero, hbase⟩ := h r hr x _ hx hshort
      have hle := (endSeen_pos_iff img.active.base cut).mp hlisted hzero
      omega
    · intro h r hr x length hx hshort
      obtain ⟨hheader, rfl⟩ := (rest_iff himg length).mp ⟨r, hr, x, hx⟩
      by_contra hnot
      refine h ⟨hheader, hshort, (endSeen_pos_iff img.active.base cut).mpr ?_⟩
      intro hzero
      omega
  rw [hcondition, present_torn himg hcut]
  constructor
  · rintro ⟨w, hstart, -⟩
    have hroom : img.active.base + cut < 2 ^ 64 := by
      rw [← torn_end himg hcut]
      by_contra hover
      push Not at hover
      obtain ⟨f, hf, hend⟩ := hover
      rw [(torn_files himg cut).start_panic hf (Nat.not_lt.mpr hend)] at hstart
      cases hstart
    refine ⟨hroom, ?_⟩
    intro hswallowed
    rw [start_swallowed himg hcut hroom hswallowed] at hstart
    cases hstart
  · rintro ⟨hroom, hnot⟩
    by_cases hlisted : 0 < s.endSeen img.active.base cut
    · have hrest : leadCut img.active = HEADER_SIZE → ¬cut < img.active.leadSpan :=
        fun hheader hshort => hnot ⟨hheader, hshort, hlisted⟩
      obtain ⟨w, size, hstart⟩ := start_listed himg hcut hroom hlisted hrest maxSize
      exact ⟨_, hstart, lookup_tableOf _⟩
    · obtain ⟨w, size, hstart⟩ := start_unlisted himg hcut hroom hlisted maxSize
      refine ⟨_, hstart, ?_⟩
      have hzero : cut = 0 := by
        by_contra hcut
        exact hlisted (s.endSeen_pos _ (Nat.pos_of_ne_zero hcut))
      have hnone : fitting (leadCut img.active + cut) img.active.entries = [] := by
        have hvalid := img.valid img.active (by simp)
        apply fitting_of_lt
        intro e he
        have hlong := header_lt_span (hvalid.wellFormed e he)
        have hle : leadCut img.active ≤ HEADER_SIZE := by
          unfold leadCut Crossing.cut
          split
          · exact Nat.zero_le _
          · split <;> simp
        omega
      rw [hnone, List.append_nil]
      exact lookup_tableOf _

end

/-- The last file of the short history, which is the rest of a record, is cut to 5 bytes. -/
theorem torn_write_iff_short : ∃ log,
    Log.run (fun _ => 0) smallSegments.val shortHistory = .ok log ∧
      ((∃ w, MemTable.start (fun _ => 0) (tornDir log 5) smallSegments.val 0 1000 = .ok w ∧
        ∀ key, w.table.lookup key = lastWrite
          ((log.records.filter (Record.isPresent (tornDir log 5))).map Record.entry) key) ↔
      log.wal.activeSegment.baseLsn + 5 < 2 ^ 64 ∧
        ∀ r ∈ log.records, ∀ x length,
          r.extents = [x, ⟨log.wal.activeSegment.filePath, 0, length⟩] → 5 < length →
            5 = 0 ∧ log.wal.activeSegment.baseLsn < 2 ^ 32) := by
  have hleft : (Log.run (fun _ => 0) smallSegments.val shortHistory).map
      (fun log => log.wal.activeSegment.fileSize) = .ok 21 := by decide
  obtain ⟨log, hrun, hsize⟩ := run_of_map _ hleft
  exact ⟨log, hrun, torn_write_iff (shortHistory_fits _) hrun (by omega) 1000⟩

/-- No memtable is started then. -/
theorem torn_write_panics : (∀ op ∈ shortHistory, op.Fits (fun _ => 0) smallSegments.val) ∧
    ∃ log, Log.run (fun _ => 0) smallSegments.val shortHistory = .ok log ∧
      5 ≤ log.wal.activeSegment.fileSize ∧
      ¬∃ w, MemTable.start (fun _ => 0) (tornDir log 5) smallSegments.val 0 1000 = .ok w := by
  have hleft : (Log.run (fun _ => 0) smallSegments.val shortHistory).map
      (fun log => (log.wal.activeSegment.fileSize,
        (MemTable.start (fun _ => 0) (tornDir log 5) smallSegments.val 0 1000).map
          WriteWorker.currentSize)) = .ok (21, .error .panic) := by decide
  obtain ⟨log, hrun, hseen⟩ := run_of_map _ hleft
  obtain ⟨hsize, hstart⟩ := Prod.mk.inj hseen
  refine ⟨shortHistory_fits _, log, hrun, by omega, ?_⟩
  rintro ⟨w, hw⟩
  rw [hw] at hstart
  cases hstart

end Rkvs.Analysis
