import Rkvs.Analysis.Replay
import Rkvs.Interface.Damage

/-!
# Where a corrupted record is reported

Overwriting the bytes of one record, but for its length, leaves the files of the same image
with other bytes for this record. Reading gets as far as the record, and recovery reports the
file and the offset at which it begins, which for a split record is where its header stands.
-/

set_option autoImplicit false

namespace Rkvs.Analysis

open Rkvs.Library Rkvs.Model Rkvs.Interface

/-- Entries are written as ever, but for one. -/
def damagedEnc (crc : Bytes → UInt32) (e : WalEntry) (bytes : Bytes) (e' : WalEntry) : Bytes :=
  if e' = e then bytes else e'.encode crc

/-- INTERNAL: the entry that was written over. -/
theorem damagedEnc_self (crc : Bytes → UInt32) (e : WalEntry) (bytes : Bytes) :
    damagedEnc crc e bytes e = bytes := if_pos rfl

/-- INTERNAL: the other entries. -/
theorem damagedEnc_of_ne {crc : Bytes → UInt32} {e e' : WalEntry} {bytes : Bytes}
    (h : e' ≠ e) : damagedEnc crc e bytes e' = e'.encode crc := if_neg h

/-- INTERNAL: bytes of the same length keep the lengths of the records. -/
theorem damagedEnc_keepsSpan {crc : Bytes → UInt32} {e : WalEntry} {bytes : Bytes}
    (h : bytes.length = (e.encode crc).length) : KeepsSpan (damagedEnc crc e bytes) := by
  intro e'
  by_cases he : e' = e
  · rw [he, damagedEnc_self, h]
    exact keepsSpan_encode crc e
  · rw [damagedEnc_of_ne he]
    exact keepsSpan_encode crc e'

/-- INTERNAL: writing over a part of some bytes. -/
theorem overwriteAt_middle (front old rear : Bytes) {new : Bytes}
    (h : new.length = old.length) :
    overwriteAt (front ++ (old ++ rear)) front.length new = front ++ (new ++ rear) := by
  unfold overwriteAt
  rw [List.take_left, h, ← List.append_assoc front, ← List.length_append, List.drop_left,
    List.append_assoc]

/-- INTERNAL: the end of a segment depends on the records behind it. -/
theorem closing_congr {enc enc' : WalEntry → Bytes} {rear : Bytes} {imgs : List SegmentImage}
    (h : ∀ x ∈ imgs, ∀ e ∈ x.entries, enc e = enc' e) :
    closing enc rear imgs = closing enc' rear imgs := by
  cases imgs with
  | nil => rfl
  | cons x imgs =>
    rw [closing, closing]
    cases hc : x.crossing with
    | none => rfl
    | some c =>
      have hentry : c.entry ∈ x.entries := by simp [SegmentImage.entries, hc]
      dsimp only
      rw [Crossing.before, Crossing.before, h x (List.mem_cons_self ..) c.entry hentry]

/-- INTERNAL: the beginning of a segment depends on the record there. -/
theorem lead_congr {enc enc' : WalEntry → Bytes} {img : SegmentImage}
    (h : ∀ e ∈ leadEntries img, enc e = enc' e) : img.lead enc = img.lead enc' := by
  unfold SegmentImage.lead
  cases hc : img.crossing with
  | none => rfl
  | some c =>
    dsimp only
    rw [Crossing.after, Crossing.after, h c.entry (by simp [leadEntries, hc])]

/-- INTERNAL: files do not depend on how entries that are not in them are written. -/
theorem filesOf_congr {enc enc' : WalEntry → Bytes} {rear : Bytes} {imgs : List SegmentImage}
    (h : ∀ x ∈ imgs, ∀ e ∈ x.entries, enc e = enc' e) :
    filesOf enc rear imgs = filesOf enc' rear imgs := by
  induction imgs with
  | nil => rfl
  | cons img imgs ih =>
    have himgs : ∀ x ∈ imgs, ∀ e ∈ x.entries, enc e = enc' e :=
      fun x hx => h x (List.mem_cons_of_mem _ hx)
    have himg := h img (List.mem_cons_self ..)
    have hwritten : img.written enc = img.written enc' := by
      unfold SegmentImage.written
      rw [lead_congr fun e he => himg e (List.mem_append_left _ he),
        List.flatMap_congr fun e he => himg e (List.mem_append_right _ he)]
    rw [filesOf, filesOf, hwritten, closing_congr himgs, ih himgs]

/-! ## Writing over a record -/

section
variable {s : SegmentSize} {crc : Bytes → UInt32} {img : LogImage s}
  {earlier later : List SegmentImage} {seg : SegmentImage}

/-- INTERNAL: an entry of a log is not among the others, and those before it are the ones with
smaller sequence numbers. -/
theorem entries_around {before after : List WalEntry} {e : WalEntry}
    (h : img.entries = before ++ e :: after) :
    (∀ e' ∈ before, e' ≠ e) ∧ (∀ e' ∈ after, e' ≠ e) ∧
      before = img.entries.filter fun e' => e'.sequenceNumber < e.sequenceNumber := by
  have hsorted := entries_sorted img
  rw [h, List.pairwise_append, List.pairwise_cons] at hsorted
  obtain ⟨-, ⟨hafter, -⟩, hbefore⟩ := hsorted
  refine ⟨?_, ?_, ?_⟩
  · rintro e' he' rfl
    exact lt_irrefl _ (hbefore e' he' e' (List.mem_cons_self ..))
  · rintro e' he' rfl
    exact lt_irrefl _ (hafter e' he')
  · rw [h, List.filter_append, List.filter_eq_self.mpr, List.filter_eq_nil_iff.mpr,
      List.append_nil]
    · intro e' he'
      obtain rfl | he' := List.mem_cons.mp he'
      · simp
      · have hlt := hafter e' he'
        simp only [decide_eq_true_eq]
        omega
    · intro e' he'
      exact decide_eq_true (hbefore e' he' e (List.mem_cons_self ..))

/-- INTERNAL: the segments of a log around one of them. -/
theorem filesOf_segments (enc : WalEntry → Bytes)
    (hsegments : img.segments = earlier ++ seg :: later) :
    filesOf enc [] img.segments = filesOf enc (closing enc [] (seg :: later)) earlier ++
      (seg.base, seg.written enc ++ closing enc [] later) :: filesOf enc [] later := by
  rw [hsegments, filesOf_append, filesOf]

/-- INTERNAL: writing over a part of one of the files. -/
theorem overwritten_part {dir : Dir} {front rear : List (ℕ × Bytes)} {base : ℕ}
    {pre old post new : Bytes}
    (h : SegmentFiles s dir (front ++ (base, pre ++ (old ++ post)) :: rear))
    (hlen : new.length = old.length) :
    SegmentFiles s (dir.put (s.fileName base)
        (overwriteAt (dir.content (s.fileName base)) pre.length new))
      (front ++ (base, pre ++ (new ++ post)) :: rear) := by
  have hmem : (base, pre ++ (old ++ post)) ∈ front ++ (base, pre ++ (old ++ post)) :: rear := by
    simp
  have hcontent := h.content hmem
  have hsize := h.size_le _ hmem
  dsimp only at hcontent hsize
  rw [hcontent, overwriteAt_middle _ _ _ hlen]
  apply h.put rfl
  simp only [List.length_append] at hsize ⊢
  omega

/-- INTERNAL: writing over the beginning of the file behind another. -/
theorem overwritten_second {dir : Dir} {front rear : List (ℕ × Bytes)} {f : ℕ × Bytes} {base : ℕ}
    {old post new : Bytes} (h : SegmentFiles s dir (front ++ f :: (base, old ++ post) :: rear))
    (hlen : new.length = old.length) :
    SegmentFiles s (dir.put (s.fileName base)
        (overwriteAt (dir.content (s.fileName base)) 0 new))
      (front ++ f :: (base, new ++ post) :: rear) := by
  rw [List.append_cons front f] at h ⊢
  exact @overwritten_part s dir (front ++ [f]) rear base [] old post new h hlen

/-- INTERNAL: writing over a record that lies whole in a segment. -/
theorem overwrite_whole (hsegments : img.segments = earlier ++ seg :: later) {dir : Dir}
    (hfiles : SegmentFiles s dir (filesOf (WalEntry.encode crc) [] img.segments))
    {skipped rest : List WalEntry} {e : WalEntry} (hrecords : seg.records = skipped ++ e :: rest)
    {bytes : Bytes} (hlen : bytes.length = (e.encode crc).length) :
    SegmentFiles s
      (overwrite dir [⟨s.fileName seg.base, seg.leadSpan + spanOf skipped, recordSpan e⟩] bytes)
      (filesOf (damagedEnc crc e bytes) [] img.segments) := by
  have henc := keepsSpan_encode crc
  have hsplit : img.entries =
      (earlier.flatMap SegmentImage.entries ++ (leadEntries seg ++ skipped)) ++
        e :: (rest ++ later.flatMap SegmentImage.entries) := by
    rw [segments_entries hsegments, hrecords]
    simp
  obtain ⟨hbefore, hafter, -⟩ := entries_around hsplit
  have hearlier : ∀ x ∈ earlier, ∀ e' ∈ x.entries, e'.encode crc = damagedEnc crc e bytes e' :=
    fun x hx e' he' => (damagedEnc_of_ne (hbefore e'
      (List.mem_append_left _ (List.mem_flatMap.mpr ⟨x, hx, he'⟩)))).symm
  have hlater : ∀ x ∈ later, ∀ e' ∈ x.entries, e'.encode crc = damagedEnc crc e bytes e' :=
    fun x hx e' he' => (damagedEnc_of_ne (hafter e'
      (List.mem_append_right _ (List.mem_flatMap.mpr ⟨x, hx, he'⟩)))).symm
  have hlead : ∀ e' ∈ leadEntries seg, e'.encode crc = damagedEnc crc e bytes e' :=
    fun e' he' => (damagedEnc_of_ne (hbefore e' (by simp [he']))).symm
  have hskipped : ∀ e' ∈ skipped, e'.encode crc = damagedEnc crc e bytes e' :=
    fun e' he' => (damagedEnc_of_ne (hbefore e' (by simp [he']))).symm
  have hrest : ∀ e' ∈ rest, e'.encode crc = damagedEnc crc e bytes e' :=
    fun e' he' => (damagedEnc_of_ne (hafter e' (by simp [he']))).symm
  have hclosing : closing (WalEntry.encode crc) [] (seg :: later) =
      closing (damagedEnc crc e bytes) [] (seg :: later) := by
    rw [closing, closing]
    cases hc : seg.crossing with
    | none => rfl
    | some c =>
      dsimp only
      rw [Crossing.before, Crossing.before, hlead c.entry (by simp [leadEntries, hc])]
  have hold : seg.written (WalEntry.encode crc) ++ closing (WalEntry.encode crc) [] later =
      (seg.lead (WalEntry.encode crc) ++ skipped.flatMap (WalEntry.encode crc)) ++
        (e.encode crc ++ (rest.flatMap (WalEntry.encode crc) ++
          closing (WalEntry.encode crc) [] later)) := by
    simp [SegmentImage.written, hrecords]
  have hnew : seg.written (damagedEnc crc e bytes) ++ closing (damagedEnc crc e bytes) [] later =
      (seg.lead (WalEntry.encode crc) ++ skipped.flatMap (WalEntry.encode crc)) ++
        (bytes ++ (rest.flatMap (WalEntry.encode crc) ++
          closing (WalEntry.encode crc) [] later)) := by
    rw [closing_congr hlater, lead_congr hlead, List.flatMap_congr hskipped,
      List.flatMap_congr hrest]
    simp [SegmentImage.written, hrecords, damagedEnc_self]
  have hoffset : (seg.lead (WalEntry.encode crc) ++
      skipped.flatMap (WalEntry.encode crc)).length = seg.leadSpan + spanOf skipped := by
    rw [List.length_append, lead_length henc, flatMap_length henc]
  have htake : bytes.take (recordSpan e) = bytes :=
    List.take_of_length_le (by rw [hlen, henc e])
  rw [filesOf_segments _ hsegments, hold] at hfiles
  unfold overwrite overwrite
  dsimp only
  rw [htake, ← hoffset, filesOf_segments _ hsegments, hnew, ← hclosing, ← filesOf_congr hearlier,
    ← filesOf_congr hlater]
  exact overwritten_part hfiles hlen

/-- INTERNAL: the files around a record that crosses over. -/
theorem filesOf_crossing (enc : WalEntry → Bytes) {before : SegmentImage} {c : Crossing}
    (hsegments : img.segments = (earlier ++ [before]) ++ seg :: later)
    (hc : seg.crossing = some c) :
    filesOf enc [] img.segments = filesOf enc (closing enc [] [before]) earlier ++
      (before.base, before.written enc ++ c.before enc) ::
        (seg.base, c.after enc ++ (seg.records.flatMap enc ++ closing enc [] later)) ::
          filesOf enc [] later := by
  have hwritten : seg.written enc = c.after enc ++ seg.records.flatMap enc := by
    simp [SegmentImage.written, SegmentImage.lead, hc]
  have hclosing : closing enc [] (before :: seg :: later) = closing enc [] [before] := rfl
  rw [hsegments, List.append_assoc, filesOf_append, List.singleton_append, filesOf, filesOf,
    hclosing, hwritten, List.append_assoc]
  simp only [closing, hc]

section
variable {before : SegmentImage} {c : Crossing}
  (hsegments : img.segments = (earlier ++ [before]) ++ seg :: later) (hc : seg.crossing = some c)
include hsegments hc

/-- INTERNAL: the files around a record that crosses over and was written over. -/
theorem filesOf_damaged (bytes : Bytes) :
    filesOf (damagedEnc crc c.entry bytes) [] img.segments =
      filesOf (WalEntry.encode crc) (closing (WalEntry.encode crc) [] [before]) earlier ++
        (before.base, before.written (WalEntry.encode crc) ++
          (bytes.take c.cut ++ List.replicate c.zeros 0)) ::
          (seg.base, bytes.drop c.cut ++ (seg.records.flatMap (WalEntry.encode crc) ++
            closing (WalEntry.encode crc) [] later)) ::
            filesOf (WalEntry.encode crc) [] later := by
  have hsplit : img.entries = (earlier ++ [before]).flatMap SegmentImage.entries ++
      c.entry :: (seg.records ++ later.flatMap SegmentImage.entries) := by
    rw [segments_entries hsegments]
    simp [leadEntries, hc]
  obtain ⟨hbefore, hafter, -⟩ := entries_around hsplit
  have hearlier : ∀ x ∈ earlier ++ [before], ∀ e' ∈ x.entries,
      e'.encode crc = damagedEnc crc c.entry bytes e' :=
    fun x hx e' he' => (damagedEnc_of_ne (hbefore e' (List.mem_flatMap.mpr ⟨x, hx, he'⟩))).symm
  have hlater : ∀ x ∈ later, ∀ e' ∈ x.entries,
      e'.encode crc = damagedEnc crc c.entry bytes e' :=
    fun x hx e' he' => (damagedEnc_of_ne (hafter e'
      (List.mem_append_right _ (List.mem_flatMap.mpr ⟨x, hx, he'⟩)))).symm
  have hrecords : ∀ e' ∈ seg.records, e'.encode crc = damagedEnc crc c.entry bytes e' :=
    fun e' he' => (damagedEnc_of_ne (hafter e' (List.mem_append_left _ he'))).symm
  have hbeforeEntries := hearlier before (by simp)
  have hfront : filesOf (damagedEnc crc c.entry bytes)
      (closing (damagedEnc crc c.entry bytes) [] [before]) earlier =
      filesOf (WalEntry.encode crc) (closing (WalEntry.encode crc) [] [before]) earlier := by
    rw [filesOf_congr fun x hx => hearlier x (List.mem_append_left _ hx),
      closing_congr fun x hx => hearlier x (List.mem_append_right _ hx)]
  have hwritten : before.written (damagedEnc crc c.entry bytes) =
      before.written (WalEntry.encode crc) := by
    unfold SegmentImage.written
    rw [lead_congr fun e he => hbeforeEntries e (List.mem_append_left _ he),
      List.flatMap_congr fun e he => hbeforeEntries e (List.mem_append_right _ he)]
  have hrear : seg.records.flatMap (damagedEnc crc c.entry bytes) ++
      closing (damagedEnc crc c.entry bytes) [] later =
      seg.records.flatMap (WalEntry.encode crc) ++ closing (WalEntry.encode crc) [] later := by
    rw [List.flatMap_congr hrecords, closing_congr hlater]
  rw [filesOf_crossing _ hsegments hc, hfront, hwritten, hrear, ← filesOf_congr hlater]
  unfold Crossing.before Crossing.after
  rw [damagedEnc_self]

/-- INTERNAL: writing over a record that crosses over into a segment. -/
theorem overwrite_crossing {dir : Dir}
    (hfiles : SegmentFiles s dir (filesOf (WalEntry.encode crc) [] img.segments))
    {bytes : Bytes} (hlen : bytes.length = (c.entry.encode crc).length) :
    SegmentFiles s (overwrite dir (placeCrossing s before seg c).extents bytes)
      (filesOf (damagedEnc crc c.entry bytes) [] img.segments) := by
  have henc := keepsSpan_encode crc
  have hspan : (c.entry.encode crc).length = recordSpan c.entry := henc c.entry
  rw [filesOf_damaged hsegments hc]
  rw [filesOf_crossing _ hsegments hc] at hfiles
  unfold Crossing.before Crossing.after at hfiles
  unfold placeCrossing
  have hcut : c.cut = if c.split then HEADER_SIZE else 0 := rfl
  rw [hcut] at hfiles ⊢
  cases hsplit : c.split with
  | false =>
    -- the record lies whole in the file behind
    simp only [hsplit, Bool.false_eq_true, if_false, List.take_zero, List.nil_append,
      List.drop_zero] at hfiles ⊢
    have htake : bytes.take (recordSpan c.entry) = bytes :=
      List.take_of_length_le (by omega)
    unfold overwrite overwrite
    dsimp only
    rw [htake]
    exact overwritten_second hfiles hlen
  | true =>
    -- the header lies in one file, the rest in the one behind
    simp only [hsplit, if_true] at hfiles ⊢
    have hheader : (bytes.take HEADER_SIZE).length =
        ((c.entry.encode crc).take HEADER_SIZE).length := by
      rw [List.length_take, List.length_take, hlen]
    have hdrop : (bytes.drop HEADER_SIZE).length =
        ((c.entry.encode crc).drop HEADER_SIZE).length := by
      rw [List.length_drop, List.length_drop, hlen]
    have htake : (bytes.drop HEADER_SIZE).take (recordSpan c.entry - HEADER_SIZE) =
        bytes.drop HEADER_SIZE := List.take_of_length_le (by rw [List.length_drop]; omega)
    unfold overwrite overwrite overwrite
    dsimp only
    rw [htake, ← written_length henc before]
    exact overwritten_second (overwritten_part hfiles hheader) hdrop

end

/-- INTERNAL: writing over a record of a log. -/
theorem overwrite_files (hsegments : img.segments = earlier ++ seg :: later) {dir : Dir}
    (hfiles : SegmentFiles s dir (filesOf (WalEntry.encode crc) [] img.segments)) {r : Record}
    (hplaced : PlacedIn s earlier seg r) {bytes : Bytes}
    (hlen : bytes.length = (r.entry.encode crc).length) :
    SegmentFiles s (overwrite dir r.extents bytes)
      (filesOf (damagedEnc crc r.entry bytes) [] img.segments) := by
  cases hplaced with
  | whole hrecords => exact overwrite_whole hsegments hfiles hrecords hlen
  | crossing hearlier hc =>
    subst hearlier
    rw [placeCrossing_entry] at hlen ⊢
    exact overwrite_crossing hsegments hc hfiles hlen

/-- What reading the segment in which a corrupted record ends comes to. -/
structure CorruptedIn (crc : Bytes → UInt32) (cur : Cursor) (path : String) (content : Bytes)
    (es : List WalEntry) (tail : Bytes) (x : Extent) : Prop where
  reads : (walFraming crc).Reads (cur.buffer content) es tail
  bad : scanRecord crc tail = .fail .corrupted
  offset_le : cur.offset ≤ content.length
  behind : cur.carry ≠ none → es ≠ [] → tail.length < content.length
  report : corruptionReport path (content.length - tail.length) cur es =
    .corrupted x.file x.offset

/-- INTERNAL: a corrupted record that lies whole in a segment. -/
theorem corrupted_whole (hsegments : img.segments = earlier ++ seg :: later)
    {skipped rest : List WalEntry} {e : WalEntry} (hrecords : seg.records = skipped ++ e :: rest)
    {bytes rear : Bytes} (hlen : bytes.length = (e.encode crc).length)
    (hhead : bytes.take 4 = (e.encode crc).take 4)
    (hcrc : leValue ((bytes.drop 4).take 4) ≠ (crc (bytes.drop 8)).toNat)
    (hjoin : Joins (damagedEnc crc e bytes)
      (cursorAfter s earlier (closing (damagedEnc crc e bytes) [] (seg :: later))) seg) :
    ∃ tail, CorruptedIn crc
      (cursorAfter s earlier (closing (damagedEnc crc e bytes) [] (seg :: later)))
      (s.fileName seg.base) (seg.written (damagedEnc crc e bytes) ++ rear)
      (leadEntries seg ++ skipped) tail
      ⟨s.fileName seg.base, seg.leadSpan + spanOf skipped, recordSpan e⟩ := by
  have henc : KeepsSpan (damagedEnc crc e bytes) := damagedEnc_keepsSpan hlen
  have hvalid := img.valid
  rw [show img.closed ++ [img.active] = img.segments from rfl, hsegments] at hvalid
  have hwell := (hvalid seg (by simp)).wellFormed
  have hentries : seg.entries = leadEntries seg ++ (skipped ++ e :: rest) := by
    rw [← hrecords]
    rfl
  rw [hentries] at hwell
  have hsplit : img.entries =
      (earlier.flatMap SegmentImage.entries ++ (leadEntries seg ++ skipped)) ++
        e :: (rest ++ later.flatMap SegmentImage.entries) := by
    rw [segments_entries hsegments, hrecords]
    simp
  have hne := (entries_around hsplit).1
  have hagree : ∀ e' ∈ leadEntries seg ++ skipped, damagedEnc crc e bytes e' = e'.encode crc :=
    fun e' he' => damagedEnc_of_ne (hne e' (List.mem_append_right _ he'))
  -- the segment is what comes before the record, the record, and what follows
  have hcontent : seg.written (damagedEnc crc e bytes) ++ rear =
      seg.lead (damagedEnc crc e bytes) ++ (skipped.flatMap (damagedEnc crc e bytes) ++
        (bytes ++ (rest.flatMap (damagedEnc crc e bytes) ++ rear))) := by
    simp [SegmentImage.written, hrecords, damagedEnc_self]
  have hbuffer : (cursorAfter s earlier (closing (damagedEnc crc e bytes) [] (seg :: later))).buffer
      (seg.written (damagedEnc crc e bytes) ++ rear) =
      (leadEntries seg ++ skipped).flatMap (WalEntry.encode crc) ++
        (bytes ++ (rest.flatMap (damagedEnc crc e bytes) ++ rear)) := by
    rw [hcontent, hjoin.buffer, ← List.append_assoc, ← List.flatMap_append,
      List.flatMap_congr hagree]
  have hposition : (seg.written (damagedEnc crc e bytes) ++ rear).length -
      (bytes ++ (rest.flatMap (damagedEnc crc e bytes) ++ rear)).length =
      seg.leadSpan + spanOf skipped := by
    rw [hcontent, ← List.append_assoc, List.length_append, Nat.add_sub_cancel,
      List.length_append, lead_length henc, flatMap_length henc]
  refine ⟨bytes ++ (rest.flatMap (damagedEnc crc e bytes) ++ rear), ?_,
    scanRecord_corrupted (hwell e (by simp)) hhead hlen hcrc _, ?_, ?_, ?_⟩
  · rw [hbuffer]
    apply reads_encode
    intro e' he'
    apply hwell
    rw [← List.append_assoc]
    exact List.mem_append_left _ he'
  · rw [hjoin.offset]
    exact Nat.zero_le _
  · intro hcarry _
    obtain ⟨rfl, -, -⟩ | ⟨earlier', before, rfl, hlink⟩ := crossing_before hsegments
    · exact absurd rfl hcarry
    · obtain ⟨c, hc, -, -, hspan, -, -⟩ := hlink.crosses
      have hlead : seg.leadSpan = recordSpan c.entry - c.cut := by
        unfold SegmentImage.leadSpan
        rw [hc]
      rw [hcontent]
      simp only [List.length_append, lead_length henc]
      omega
  · rw [hposition]
    obtain ⟨rfl, -, -⟩ | ⟨earlier', before, rfl, hlink⟩ := crossing_before hsegments
    · rfl
    · obtain ⟨c, hc, -⟩ := hlink.crosses
      have hlead : leadEntries seg = [c.entry] := by simp [leadEntries, hc]
      rw [hlead, List.singleton_append]
      cases cursorAfter s (earlier' ++ [before])
        (closing (damagedEnc crc e bytes) [] (seg :: later)) <;> rfl

/-- INTERNAL: a corrupted record that crosses over into a segment. -/
theorem corrupted_crossing {before : SegmentImage} {c : Crossing}
    (hsegments : img.segments = (earlier ++ [before]) ++ seg :: later)
    (hc : seg.crossing = some c) {bytes rear : Bytes}
    (hlen : bytes.length = (c.entry.encode crc).length)
    (hhead : bytes.take 4 = (c.entry.encode crc).take 4)
    (hcrc : leValue ((bytes.drop 4).take 4) ≠ (crc (bytes.drop 8)).toNat)
    (hjoin : Joins (damagedEnc crc c.entry bytes) (cursorAfter s (earlier ++ [before])
      (closing (damagedEnc crc c.entry bytes) [] (seg :: later))) seg) :
    ∃ x tail, (placeCrossing s before seg c).extents.head? = some x ∧
      CorruptedIn crc (cursorAfter s (earlier ++ [before])
          (closing (damagedEnc crc c.entry bytes) [] (seg :: later)))
        (s.fileName seg.base) (seg.written (damagedEnc crc c.entry bytes) ++ rear) [] tail x := by
  have henc : KeepsSpan (damagedEnc crc c.entry bytes) := damagedEnc_keepsSpan hlen
  have hvalid := img.valid
  rw [show img.closed ++ [img.active] = img.segments from rfl, hsegments] at hvalid
  have hwell := (hvalid seg (by simp)).wellFormed c.entry (by simp [SegmentImage.entries, hc])
  have hlong := header_lt_span hwell
  have hzeros : c.split = false → c.zeros < HEADER_SIZE := by
    obtain ⟨h, -⟩ | ⟨earlier', before', hearlier, hlink⟩ := crossing_before hsegments
    · simp at h
    · obtain ⟨c', hc', -, -, -, hzeros, -⟩ := hlink.crosses
      rw [hc] at hc'
      cases hc'
      exact hzeros
  have hclosing : closing (damagedEnc crc c.entry bytes) [] (seg :: later) =
      bytes.take c.cut ++ List.replicate c.zeros 0 := by
    simp only [closing, hc]
    rw [Crossing.before, damagedEnc_self]
  have hcur : cursorAfter s (earlier ++ [before]) (bytes.take c.cut ++
      List.replicate c.zeros 0) = Cursor.after (s.fileName before.base) before.size
        (bytes.take c.cut ++ List.replicate c.zeros 0) := by
    simp [cursorAfter]
  have hlead : seg.lead (damagedEnc crc c.entry bytes) = bytes.drop c.cut := by
    simp [SegmentImage.lead, hc, Crossing.after, damagedEnc_self]
  have hbuffer : ∀ rest, (cursorAfter s (earlier ++ [before])
      (closing (damagedEnc crc c.entry bytes) [] (seg :: later))).buffer
        (seg.lead (damagedEnc crc c.entry bytes) ++ rest) = bytes ++ rest := by
    intro rest
    rw [hjoin.buffer]
    simp [leadEntries, hc, damagedEnc_self]
  have hcontent : seg.written (damagedEnc crc c.entry bytes) ++ rear =
      seg.lead (damagedEnc crc c.entry bytes) ++
        (seg.records.flatMap (damagedEnc crc c.entry bytes) ++ rear) := by
    rw [SegmentImage.written, List.append_assoc]
  have hbad := scanRecord_corrupted hwell hhead hlen hcrc
    (seg.records.flatMap (damagedEnc crc c.entry bytes) ++ rear)
  have hlen_span : bytes.length = recordSpan c.entry := hlen.trans (keepsSpan_encode crc _)
  cases hsplit : c.split with
  | true =>
    have hcut : c.cut = HEADER_SIZE := by simp [Crossing.cut, hsplit]
    have hextents : (placeCrossing s before seg c).extents.head? =
        some ⟨s.fileName before.base, before.size, HEADER_SIZE⟩ := by
      unfold placeCrossing
      rw [if_pos hsplit]
      rfl
    refine ⟨_, bytes ++ (seg.records.flatMap (damagedEnc crc c.entry bytes) ++ rear), hextents, ?_,
      hbad, ?_, ?_, ?_⟩
    · rw [hcontent, hbuffer]
      exact .done _
    · rw [hjoin.offset]
      exact Nat.zero_le _
    · intro _ hes
      exact absurd rfl hes
    · rw [hclosing, hcur, Cursor.after_header]
      · rfl
      · rw [List.length_append, List.length_take, hcut]
        omega
  | false =>
    have hcut : c.cut = 0 := by simp [Crossing.cut, hsplit]
    have hextents : (placeCrossing s before seg c).extents.head? =
        some ⟨s.fileName seg.base, 0, recordSpan c.entry⟩ := by
      unfold placeCrossing
      rw [if_neg (by simp [hsplit])]
      rfl
    refine ⟨_, bytes ++ (seg.records.flatMap (damagedEnc crc c.entry bytes) ++ rear), hextents, ?_,
      hbad, ?_, ?_, ?_⟩
    · rw [hcontent, hbuffer]
      exact .done _
    · rw [hjoin.offset]
      exact Nat.zero_le _
    · intro _ hes
      exact absurd rfl hes
    · rw [hclosing, hcur, Cursor.after_short]
      · rw [hcontent, hlead, hcut, List.drop_zero, Nat.sub_self]
        rfl
      · rw [hcut]
        simpa using hzeros hsplit

/-- INTERNAL: reading gets as far as a corrupted record. -/
theorem corrupted_located (hsegments : img.segments = earlier ++ seg :: later) {r : Record}
    (hplaced : PlacedIn s earlier seg r) {bytes : Bytes}
    (hlen : bytes.length = (r.entry.encode crc).length)
    (hhead : bytes.take 4 = (r.entry.encode crc).take 4)
    (hcrc : leValue ((bytes.drop 4).take 4) ≠ (crc (bytes.drop 8)).toNat) :
    ∃ es tail x, r.extents.head? = some x ∧
      ReadsFiles crc s (.start 0) (filesOf (damagedEnc crc r.entry bytes)
        (closing (damagedEnc crc r.entry bytes) [] (seg :: later)) earlier)
        (earlier.flatMap SegmentImage.entries)
        (cursorAfter s earlier (closing (damagedEnc crc r.entry bytes) [] (seg :: later))) ∧
      CorruptedIn crc
        (cursorAfter s earlier (closing (damagedEnc crc r.entry bytes) [] (seg :: later)))
        (s.fileName seg.base) (seg.written (damagedEnc crc r.entry bytes) ++
          closing (damagedEnc crc r.entry bytes) [] later) es tail x ∧
      earlier.flatMap SegmentImage.entries ++ es =
        img.entries.filter fun e => e.sequenceNumber < r.entry.sequenceNumber := by
  have henc : KeepsSpan (damagedEnc crc r.entry bytes) := damagedEnc_keepsSpan hlen
  have hreads := @reads_up_to crc s _ img _ _ _ hsegments henc
  cases hplaced with
  | @whole skipped rest e hrecords =>
    have hsplit : img.entries =
        (earlier.flatMap SegmentImage.entries ++ (leadEntries seg ++ skipped)) ++
          e :: (rest ++ later.flatMap SegmentImage.entries) := by
      rw [segments_entries hsegments, hrecords]
      simp
    obtain ⟨hne, -, hbefore⟩ := entries_around hsplit
    obtain ⟨hearlier, hjoin⟩ := hreads
      (fun x hx e' he' => damagedEnc_of_ne (hne e'
        (List.mem_append_left _ (List.mem_flatMap.mpr ⟨x, hx, he'⟩))))
      (fun c hc => by rw [damagedEnc_of_ne (hne c.entry (by simp [leadEntries, hc]))])
    obtain ⟨tail, hcorrupted⟩ :=
      corrupted_whole hsegments hrecords hlen hhead hcrc hjoin
    exact ⟨_, tail, _, rfl, hearlier, hcorrupted, hbefore⟩
  | @crossing earlier' before c hlast hc =>
    subst hlast
    rw [placeCrossing_entry] at hlen hhead hreads ⊢
    have hsplit : img.entries = (earlier' ++ [before]).flatMap SegmentImage.entries ++
        c.entry :: (seg.records ++ later.flatMap SegmentImage.entries) := by
      rw [segments_entries hsegments]
      simp [leadEntries, hc]
    obtain ⟨hne, -, hbefore⟩ := entries_around hsplit
    obtain ⟨hearlier, hjoin⟩ := hreads
      (fun x hx e' he' => damagedEnc_of_ne (hne e' (List.mem_flatMap.mpr ⟨x, hx, he'⟩)))
      (fun c' hc' => by
        rw [hc] at hc'
        cases hc'
        rw [damagedEnc_self, hhead])
    obtain ⟨x, tail, hx, hcorrupted⟩ :=
      corrupted_crossing hsegments hc hlen hhead hcrc hjoin
    refine ⟨[], tail, x, hx, hearlier, hcorrupted, ?_⟩
    rw [List.append_nil]
    exact hbefore

/-- Recovery over all files of a log in which one record was overwritten so that its checksum
no longer fits, with its length kept, reports where the record begins. The table it has filled
is that of the records before.
SOURCE: memtable.rs:246-350 -/
theorem corrupted_record_reported {ops : List LogOp} (hops : ∀ op ∈ ops, op.Fits crc s.val)
    {log : Log} (hrun : Log.run crc s.val ops = .ok log) {before after : List Record}
    {r : Record} (hr : log.records = before ++ r :: after) {bytes : Bytes}
    (hlen : bytes.length = (r.entry.encode crc).length)
    (hhead : bytes.take 4 = (r.entry.encode crc).take 4)
    (hcrc : leValue ((bytes.drop 4).take 4) ≠ (crc (bytes.drop 8)).toNat) :
    ∃ segments table size x,
      segmentsEndingAfter (overwrite log.wal.dir r.extents bytes) s.val 0 = .ok segments ∧
      r.extents.head? = some x ∧
      MemTable.recover crc (overwrite log.wal.dir r.extents bytes) segments 0 ∅ =
        .ok (table, .error (size, .corrupted x.file x.offset)) ∧
      ∀ key, table.lookup key = lastWrite (before.map Record.entry) key := by
  obtain ⟨img, himg⟩ := run_represents hops hrun
  have hmem : r ∈ placed s ([] : List SegmentImage).getLast? img.segments := by
    rw [List.getLast?_nil, ← himg.records, hr]
    simp
  obtain ⟨earlier, seg, later, hsegments, hplaced⟩ := mem_placed hmem
  rw [List.nil_append] at hplaced
  obtain ⟨es, tail, x, hx, hearlier, hcorrupted, hes⟩ :=
    corrupted_located hsegments hplaced hlen hhead hcrc
  have hfiles := overwrite_files hsegments himg.files hplaced hlen
  have hentries : img.entries = before.map Record.entry ++ r.entry :: after.map Record.entry := by
    rw [← represents_entries himg]
    unfold Log.entries
    rw [hr, List.map_append, List.map_cons]
  have hbefore := (entries_around hentries).2.2
  have hpos := s.pos
  have hfs := filesOf_segments (damagedEnc crc r.entry bytes) hsegments
  have hall : (filesOf (damagedEnc crc r.entry bytes) [] img.segments).filter
      (fun f => 0 < f.1 + s.val) = filesOf (damagedEnc crc r.entry bytes) [] img.segments := by
    apply List.filter_eq_self.mpr
    intro f _
    exact decide_eq_true (by omega)
  have hcontent : ∀ f ∈ filesOf (damagedEnc crc r.entry bytes) [] img.segments,
      (overwrite log.wal.dir r.extents bytes).content (s.fileName f.1) = f.2 :=
    fun f hf => hfiles.content hf
  have hloop := recoverLoop_readsFiles hearlier
    (fun f hf => hcontent f (by rw [hfs]; exact List.mem_append_left _ hf))
    ((((seg.base, seg.written (damagedEnc crc r.entry bytes) ++
      closing (damagedEnc crc r.entry bytes) [] later)) ::
        filesOf (damagedEnc crc r.entry bytes) [] later).map (openedSegment s)) 0 ∅
  have hseg : (overwrite log.wal.dir r.extents bytes).content (openedSegment s (seg.base,
      seg.written (damagedEnc crc r.entry bytes) ++
        closing (damagedEnc crc r.entry bytes) [] later)).filePath =
      seg.written (damagedEnc crc r.entry bytes) ++
        closing (damagedEnc crc r.entry bytes) [] later := by
    rw [openedSegment_filePath]
    exact hcontent (seg.base, _) (by rw [hfs]; simp)
  rw [List.map_cons, recoverLoop_corrupted hseg hcorrupted.reads hcorrupted.bad
    hcorrupted.offset_le hcorrupted.behind, openedSegment_filePath, hcorrupted.report,
    ← List.foldl_append, hes] at hloop
  refine ⟨_, _, _, x, by rw [segmentsEndingAfter_eq hfiles, hall, hfs, List.map_append,
    List.map_cons], hx, hloop, ?_⟩
  intro key
  rw [hbefore]
  exact lookup_tableOf _ key

end

/-- INTERNAL: the last record of the short history, split over two files. -/
def splitRecord : Record :=
  ⟨⟨.put, "c", some "split up", 115⟩,
    [⟨"000000000000000000000001.wal", 51, 13⟩, ⟨"000000000000000000000002.wal", 0, 21⟩]⟩

/-- INTERNAL: the bytes of that record with another checksum. -/
def otherChecksum : Bytes :=
  [30, 0, 0, 0, 1, 0, 0, 0] ++ (splitRecord.entry.encode fun _ => 0).drop 8

/-- The short history, with another checksum in the record that is split over two files. -/
theorem corrupted_record_reported_short : ∃ log before,
    Log.run (fun _ => 0) smallSegments.val shortHistory = .ok log ∧
      log.records = before ++ [splitRecord] ∧
      ∃ segments table size x,
        segmentsEndingAfter (overwrite log.wal.dir splitRecord.extents otherChecksum)
          smallSegments.val 0 = .ok segments ∧
        splitRecord.extents.head? = some x ∧
        MemTable.recover (fun _ => 0) (overwrite log.wal.dir splitRecord.extents otherChecksum)
          segments 0 ∅ = .ok (table, .error (size, .corrupted x.file x.offset)) ∧
        ∀ key, table.lookup key = lastWrite (before.map Record.entry) key := by
  have hleft : (Log.run (fun _ => 0) smallSegments.val shortHistory).map
      (fun log => log.records.getLast?) = .ok (some splitRecord) := by decide
  obtain ⟨log, hrun, hlast⟩ := run_of_map _ hleft
  have hrecords := (List.dropLast_append_getLast? _ hlast).symm
  exact ⟨log, log.records.dropLast, hrun, hrecords,
    corrupted_record_reported (shortHistory_fits _) hrun hrecords (by decide) (by decide)
      (by decide)⟩

end Rkvs.Analysis
