import Rkvs.Analysis.LogFiles
import Rkvs.Analysis.LogOrder

/-!
# Reading the image of a log

Reading the files of consecutive segments gives the entries of all their records: the end of a
full segment is either forgotten, or it is the header that the rest of the record in the next
segment needs in front of it.
-/

set_option autoImplicit false

namespace Rkvs.Analysis

open Rkvs.Library Rkvs.Model Rkvs.Interface

section
variable {crc : Bytes → UInt32} {s : SegmentSize} {enc : WalEntry → Bytes}

/-- INTERNAL: the record that crosses over into a segment, as one record. -/
def leadEntries (img : SegmentImage) : List WalEntry :=
  (img.crossing.map Crossing.entry).toList

/-- The cursor completes the record at the beginning of the segment. -/
structure Joins (enc : WalEntry → Bytes) (cur : Cursor) (img : SegmentImage) : Prop where
  offset : cur.offset = 0
  buffer : ∀ rest, cur.buffer (img.lead enc ++ rest) = (leadEntries img).flatMap enc ++ rest

/-- INTERNAL: a segment into which nothing crosses over is read from its beginning. -/
theorem joins_first {img : SegmentImage} (h : img.crossing = none) :
    Joins enc (.start 0) img := by
  refine ⟨rfl, ?_⟩
  intro rest
  simp [Cursor.buffer, SegmentImage.lead, leadEntries, h]

/-- INTERNAL: a record that was written whole is read from the beginning of its file. -/
theorem joins_whole {img : SegmentImage} {c : Crossing} (h : img.crossing = some c)
    (hsplit : c.split = false) : Joins enc (.start 0) img := by
  refine ⟨rfl, ?_⟩
  intro rest
  simp [Cursor.buffer, SegmentImage.lead, leadEntries, h, Crossing.after, Crossing.cut, hsplit]

/-- INTERNAL: the rest of a record is read behind its header. -/
theorem joins_rest {img : SegmentImage} {c : Crossing} (h : img.crossing = some c)
    (hsplit : c.split = true) {p : PartialWalEntry}
    (hp : p.bytes = (enc c.entry).take HEADER_SIZE) : Joins enc (.carried p) img := by
  refine ⟨rfl, ?_⟩
  intro rest
  rw [Cursor.buffer, hp]
  simp [SegmentImage.lead, leadEntries, h, Crossing.after, Crossing.cut, hsplit]
  rw [← List.append_assoc, List.take_append_drop]

/-- INTERNAL: a record that crosses over is longer than a header. -/
theorem header_lt_span {e : WalEntry} (h : WellFormed e) : HEADER_SIZE < recordSpan e := by
  have hlen := body_length_ge h.key_ne
  unfold HEADER_SIZE recordSpan
  omega

/-- INTERNAL: what fills a segment up holds no complete record. -/
theorem before_stop (henc : KeepsSpan enc) {c : Crossing} (he : WellFormed c.entry)
    (hhead : (enc c.entry).take 4 = (c.entry.encode crc).take 4)
    (hspan : c.cut + c.zeros < recordSpan c.entry)
    (hzeros : c.split = false → c.zeros < HEADER_SIZE) :
    scanRecord crc (c.before enc) = .stop := by
  have hlong := header_lt_span he
  have hlen := henc c.entry
  have hheader : HEADER_SIZE = 13 := rfl
  unfold Crossing.before Crossing.cut at *
  cases hsplit : c.split with
  | false =>
    simp only [hsplit, Bool.false_eq_true, if_false, List.take_zero, List.nil_append] at hspan ⊢
    exact scanRecord_short (by simpa using hzeros hsplit)
  | true =>
    simp only [hsplit, if_true] at hspan ⊢
    apply scanRecord_incomplete he
    · rw [List.take_append_of_le_length (by rw [List.length_take]; omega), List.take_take,
        Nat.min_eq_left (by omega), hhead]
    · rw [List.length_append, List.length_take, List.length_replicate, encode_length]
      unfold recordSpan at *
      omega

/-- INTERNAL: what is found at the end of a segment completes the next one. -/
theorem joins_follows (henc : KeepsSpan enc) {next : SegmentImage} {c : Crossing}
    (hc : next.crossing = some c) (he : WellFormed c.entry)
    (hzeros : c.split = false → c.zeros < HEADER_SIZE) (path : String) (position : ℕ) :
    Joins enc (Cursor.after path position (c.before enc)) next := by
  have hlong := header_lt_span he
  have hlen := henc c.entry
  cases hsplit : c.split with
  | false =>
    rw [Cursor.after_short]
    · exact joins_whole hc hsplit
    · simpa [Crossing.before, Crossing.cut, hsplit] using hzeros hsplit
  | true =>
    have hcut : ((enc c.entry).take c.cut).length = HEADER_SIZE := by
      simp only [Crossing.cut, hsplit, if_true, List.length_take]
      omega
    rw [Cursor.after_header]
    · apply joins_rest hc hsplit
      unfold Crossing.before
      rw [List.take_left' hcut]
      simp [Crossing.cut, hsplit]
    · unfold Crossing.before
      rw [List.length_append, hcut]
      omega

/-- From the cursor on, the entries `es` are read from the segment, whatever fills it up. -/
structure Begins (crc : Bytes → UInt32) (enc : WalEntry → Bytes) (cur : Cursor)
    (img : SegmentImage) (es : List WalEntry) : Prop where
  offset_le : cur.offset ≤ img.size
  reads : ∀ tail, (walFraming crc).Reads (cur.buffer (img.written enc ++ tail)) es tail

/-- INTERNAL: a segment is read from its beginning. -/
theorem begins_joined {img : SegmentImage} {cur : Cursor} (hjoin : Joins enc cur img)
    (hwell : ∀ e ∈ img.entries, WellFormed e)
    (hagree : ∀ e ∈ img.entries, enc e = e.encode crc) : Begins crc enc cur img img.entries := by
  refine ⟨by rw [hjoin.offset]; exact Nat.zero_le _, ?_⟩
  intro tail
  have hbuffer : cur.buffer (img.written enc ++ tail) =
      img.entries.flatMap (WalEntry.encode crc) ++ tail := by
    unfold SegmentImage.written
    rw [List.append_assoc, hjoin.buffer, ← List.append_assoc, ← List.flatMap_append]
    congr 1
    exact List.flatMap_congr hagree
  rw [hbuffer]
  exact reads_encode hwell tail

/-- INTERNAL: a segment is read from one of its whole records on, or from behind the last. -/
theorem begins_offset (henc : KeepsSpan enc) {img : SegmentImage} {skipped es : List WalEntry}
    (hrecords : img.records = skipped ++ es) (hwell : ∀ e ∈ es, WellFormed e)
    (hagree : ∀ e ∈ es, enc e = e.encode crc) :
    Begins crc enc (.start (img.leadSpan + spanOf skipped)) img es := by
  have hskipped : (img.lead enc ++ skipped.flatMap enc).length =
      img.leadSpan + spanOf skipped := by
    rw [List.length_append, lead_length henc, flatMap_length henc]
  refine ⟨?_, ?_⟩
  · unfold SegmentImage.size
    rw [hrecords, spanOf_append, Cursor.offset]
    omega
  · intro tail
    have hbuffer : Cursor.buffer (img.written enc ++ tail)
        (.start (img.leadSpan + spanOf skipped)) = es.flatMap (WalEntry.encode crc) ++ tail := by
      unfold SegmentImage.written
      rw [Cursor.buffer, hrecords, List.flatMap_append, ← List.append_assoc, List.append_assoc,
        ← hskipped, List.drop_left]
      congr 1
      exact List.flatMap_congr hagree
    rw [hbuffer]
    exact reads_encode hwell tail

/-- INTERNAL: one segment is read up to what fills it up. -/
theorem Begins.fileReads {img : SegmentImage} {cur : Cursor} {es : List WalEntry}
    (h : Begins crc enc cur img es) (henc : KeepsSpan enc) {tail : Bytes}
    (hstop : scanRecord crc tail = .stop) :
    FileReads crc cur (img.written enc ++ tail) es tail := by
  refine ⟨h.reads tail, hstop, ?_, Or.inr (by simp)⟩
  have hle := h.offset_le
  rw [List.length_append, written_length henc]
  omega

/-- Consecutive segments are read to the end of their records, and what stands behind the
last of these is left over.
SOURCE: memtable.rs:246-350 -/
theorem readsFiles_chain (henc : KeepsSpan enc) {img last : SegmentImage}
    {imgs : List SegmentImage} {rear : Bytes} {cur : Cursor} {es : List WalEntry}
    (hchain : (img :: imgs).IsChain (Follows s)) (hlast : (img :: imgs).getLast? = some last)
    (hbegin : Begins crc enc cur img es) (hwell : ∀ x ∈ imgs, ∀ e ∈ x.entries, WellFormed e)
    (hagree : ∀ x ∈ imgs, ∀ e ∈ x.entries, enc e = e.encode crc)
    (hstop : scanRecord crc rear = .stop) :
    ReadsFiles crc s cur (filesOf enc rear (img :: imgs))
      (es ++ imgs.flatMap SegmentImage.entries)
      (Cursor.after (s.fileName last.base) last.size rear) := by
  have hposition : ∀ (x : SegmentImage) (tail : Bytes),
      (x.written enc ++ tail).length - tail.length = x.size := by
    intro x tail
    rw [List.length_append, written_length henc, Nat.add_sub_cancel]
  induction imgs generalizing img cur es with
  | nil =>
    rw [List.getLast?_singleton, Option.some.injEq] at hlast
    subst hlast
    refine ((hbegin.fileReads henc hstop).single _).congr rfl (by simp) ?_
    rw [hposition]
  | cons next imgs ih =>
    obtain ⟨c, hc, -, -, hspan, hzeros, -⟩ := hchain.rel.crosses
    have hentry : c.entry ∈ next.entries := by simp [SegmentImage.entries, hc]
    have hcwell := hwell next (List.mem_cons_self ..) c.entry hentry
    have hcagree := hagree next (List.mem_cons_self ..) c.entry hentry
    have hclosing : closing enc rear (next :: imgs) = c.before enc := by rw [closing, hc]
    have hstop_before : scanRecord crc (c.before enc) = .stop :=
      before_stop henc hcwell (by rw [hcagree]) hspan hzeros
    rw [filesOf, hclosing, List.flatMap_cons]
    refine .cons (hbegin.fileReads henc hstop_before) ?_
    apply ih hchain.of_cons
    · rwa [List.getLast?_cons_cons] at hlast
    · exact begins_joined (joins_follows henc hc hcwell hzeros _ _)
        (hwell next (List.mem_cons_self ..)) (hagree next (List.mem_cons_self ..))
    · exact fun x hx => hwell x (List.mem_cons_of_mem _ hx)
    · exact fun x hx => hagree x (List.mem_cons_of_mem _ hx)

/-- Where reading stands after the segments `earlier`, when `rear` fills up the last one. -/
def cursorAfter (s : SegmentSize) (earlier : List SegmentImage) (rear : Bytes) : Cursor :=
  match earlier.getLast? with
  | none => .start 0
  | some before => Cursor.after (s.fileName before.base) before.size rear

/-- INTERNAL: a segment and the one before it in a log. -/
theorem crossing_before {img : LogImage s} {earlier later : List SegmentImage}
    {seg : SegmentImage} (hsegments : img.segments = earlier ++ seg :: later) :
    (earlier = [] ∧ seg.base = 0 ∧ seg.crossing = none) ∨
      ∃ earlier' before, earlier = earlier' ++ [before] ∧ Follows s before seg := by
  obtain ⟨first, imgs, hfirst, hbase, hcrossing, -, -⟩ := segments_cons img
  have hchain := img.chain
  rw [show img.closed ++ [img.active] = img.segments from rfl, hsegments] at hchain
  obtain rfl | ⟨earlier', before, rfl⟩ := List.eq_nil_or_concat earlier
  · rw [hsegments, List.nil_append] at hfirst
    cases hfirst
    exact Or.inl ⟨rfl, hbase, hcrossing⟩
  · rw [List.concat_eq_append, List.append_assoc, List.isChain_append] at hchain
    exact Or.inr ⟨earlier', before, List.concat_eq_append .., hchain.2.1.rel⟩

/-- The segments before one in a log are read, and the record that crosses over into it is
completed there.
SOURCE: memtable.rs:246-350 -/
theorem reads_up_to {img : LogImage s} {earlier later : List SegmentImage} {seg : SegmentImage}
    (hsegments : img.segments = earlier ++ seg :: later) (henc : KeepsSpan enc)
    (hagree : ∀ x ∈ earlier, ∀ e ∈ x.entries, enc e = e.encode crc)
    (hhead : ∀ c, seg.crossing = some c → (enc c.entry).take 4 = (c.entry.encode crc).take 4) :
    ReadsFiles crc s (.start 0) (filesOf enc (closing enc [] (seg :: later)) earlier)
        (earlier.flatMap SegmentImage.entries)
        (cursorAfter s earlier (closing enc [] (seg :: later))) ∧
      Joins enc (cursorAfter s earlier (closing enc [] (seg :: later))) seg := by
  obtain ⟨rfl, -, hcrossing⟩ | ⟨earlier', before, rfl, hlink⟩ := crossing_before hsegments
  · exact ⟨.nil _, joins_first hcrossing⟩
  · have hchain := img.chain
    have hvalid := img.valid
    rw [show img.closed ++ [img.active] = img.segments from rfl, hsegments] at hchain hvalid
    obtain ⟨c, hc, -, -, hspan, hzeros, -⟩ := hlink.crosses
    have hcwell : WellFormed c.entry :=
      (hvalid seg (by simp)).wellFormed c.entry (by simp [SegmentImage.entries, hc])
    have hclosing : closing enc [] (seg :: later) = c.before enc := by rw [closing, hc]
    have hcur : cursorAfter s (earlier' ++ [before]) (c.before enc) =
        Cursor.after (s.fileName before.base) before.size (c.before enc) := by
      simp [cursorAfter]
    rw [hclosing, hcur]
    refine ⟨?_, joins_follows henc hc hcwell hzeros _ _⟩
    have hstop := before_stop henc hcwell (hhead c hc) hspan hzeros
    obtain ⟨first, imgs, hfirst, -, hcrossing, -, -⟩ := segments_cons img
    obtain ⟨imgs', himgs⟩ : ∃ imgs', earlier' ++ [before] = first :: imgs' := by
      obtain ⟨x, imgs', hx⟩ := List.exists_cons_of_ne_nil
        (show earlier' ++ [before] ≠ [] by simp)
      rw [hsegments, hx, List.cons_append, List.cons.injEq] at hfirst
      exact ⟨imgs', by rw [hx, hfirst.1]⟩
    have hlast : (first :: imgs').getLast? = some before := by
      rw [← himgs]
      simp
    rw [himgs] at hchain hvalid hagree ⊢
    exact readsFiles_chain henc (List.isChain_append.mp hchain).1 hlast
      (begins_joined (joins_first hcrossing) (hvalid first (by simp)).wellFormed
        (hagree first (by simp)))
      (fun x hx => (hvalid x (by simp [hx])).wellFormed) (fun x hx => hagree x (by simp [hx]))
      hstop

end

end Rkvs.Analysis
