import Rkvs.Analysis.LogSimulation

/-!
# The order of LSNs in a log

Segments start one segment size or more after each other, and the sequence numbers of the
records grow along the log. A record's sequence number is the LSN behind the record before it,
which for the first record of a file may lie in the segment before.
-/

set_option autoImplicit false

namespace Rkvs.Analysis

open Rkvs.Library Rkvs.Model Rkvs.Interface

theorem recordSpan_pos (e : WalEntry) : 0 < recordSpan e := Nat.succ_pos _

/-- INTERNAL: the numbers of consecutive records are those of their places. -/
theorem numbered_mem {lsn : ℕ} {es : List WalEntry} (h : Numbered lsn es) :
    ∀ e ∈ es, lsn ≤ e.sequenceNumber ∧ e.sequenceNumber < lsn + spanOf es := by
  induction es generalizing lsn with
  | nil => simp
  | cons e es ih =>
    obtain ⟨hseq, hrest⟩ := h
    have hpos := recordSpan_pos e
    have hspan : spanOf (e :: es) = recordSpan e + spanOf es := by simp [spanOf]
    intro e' he'
    rcases List.mem_cons.mp he' with rfl | he'
    · omega
    · have hbounds := ih hrest e' he'
      omega

/-- INTERNAL: the numbers of consecutive records grow. -/
theorem numbered_sorted {lsn : ℕ} {es : List WalEntry} (h : Numbered lsn es) :
    es.Pairwise fun e e' => e.sequenceNumber < e'.sequenceNumber := by
  induction es generalizing lsn with
  | nil => exact List.Pairwise.nil
  | cons e es ih =>
    obtain ⟨hseq, hrest⟩ := h
    have hpos := recordSpan_pos e
    refine List.pairwise_cons.mpr ⟨?_, ih hrest⟩
    intro e' he'
    have hbounds := numbered_mem hrest e' he'
    omega

/-- INTERNAL: whole records are placed for their entries. -/
theorem placeWhole_entries (file : String) (offset : ℕ) (es : List WalEntry) :
    (placeWhole file offset es).map Record.entry = es := by
  induction es generalizing offset with
  | nil => rfl
  | cons e es ih => rw [placeWhole, List.map_cons, ih]

/-- INTERNAL: a record that crosses over is placed for its entry. -/
theorem placeCrossing_entry (s : SegmentSize) (img next : SegmentImage) (c : Crossing) :
    (placeCrossing s img next c).entry = c.entry := by
  unfold placeCrossing
  split <;> rfl

/-- INTERNAL: segments behind another one are placed for their entries. -/
theorem placed_some_entries (s : SegmentSize) (before : SegmentImage)
    (imgs : List SegmentImage) :
    (placed s (some before) imgs).map Record.entry = imgs.flatMap SegmentImage.entries := by
  induction imgs generalizing before with
  | nil => rfl
  | cons img imgs ih =>
    have hlead : (placeLead s (some before) img).map Record.entry =
        (img.crossing.map Crossing.entry).toList := by
      unfold placeLead
      cases img.crossing with
      | none => rfl
      | some c => exact congrArg (fun e => [e]) (placeCrossing_entry s before img c)
    rw [placed, List.map_append, List.map_append, ih, placeWhole_entries, hlead,
      List.flatMap_cons, SegmentImage.entries]

section
variable {s : SegmentSize}

/-- INTERNAL: the start of a segment at or before an LSN is at or before that LSN's segment. -/
theorem le_baseOf {base lsn : ℕ} (hdvd : s.val ∣ base) (hle : base ≤ lsn) :
    base ≤ s.baseOf lsn := by
  obtain ⟨q, rfl⟩ := hdvd
  unfold SegmentSize.baseOf
  rw [Nat.mul_comm]
  exact Nat.mul_le_mul_right _ ((Nat.le_div_iff_mul_le s.pos).mpr (by rwa [Nat.mul_comm]))

/-- INTERNAL: the next segment starts a segment size later at least. -/
theorem follows_base {img next : SegmentImage} (h : Follows s img next) (hvalid : img.Valid s) :
    img.base + s.val ≤ next.base := by
  obtain ⟨c, -, hseq, hfull, hspan, -, hbase⟩ := h.crosses
  rw [hbase]
  apply le_baseOf (Nat.dvd_add hvalid.dvd (Nat.dvd_refl _))
  unfold SegmentImage.endLsn
  omega

/-- INTERNAL: the sequence numbers of a segment lie between the ends of the records of the
segment before and of its own. -/
theorem follows_bounds {img next : SegmentImage} (h : Follows s img next) (hvalid : img.Valid s)
    (hnext : next.Valid s) :
    (∀ e ∈ next.entries, img.endLsn ≤ e.sequenceNumber ∧ e.sequenceNumber < next.endLsn) ∧
      next.entries.Pairwise fun e e' => e.sequenceNumber < e'.sequenceNumber := by
  have hbase := follows_base h hvalid
  have hsize := hvalid.size_le
  have hmem := numbered_mem hnext.numbered
  obtain ⟨c, hc, hseq, -, hspan, -, -⟩ := h.crosses
  have hlead : next.leadSpan = recordSpan c.entry - c.cut := by
    unfold SegmentImage.leadSpan
    rw [hc]
  have hentries : next.entries = c.entry :: next.records := by
    simp [SegmentImage.entries, hc]
  unfold SegmentImage.endLsn SegmentImage.size at *
  rw [hentries]
  constructor
  · intro e he
    rcases List.mem_cons.mp he with rfl | he
    · omega
    · have hbounds := hmem e he
      omega
  · refine List.pairwise_cons.mpr ⟨?_, numbered_sorted hnext.numbered⟩
    intro e he
    have hbounds := hmem e he
    omega

/-- INTERNAL: behind a segment the sequence numbers go on growing. -/
theorem chain_sorted {img : SegmentImage} {imgs : List SegmentImage}
    (hchain : (img :: imgs).IsChain (Follows s)) (hvalid : ∀ x ∈ img :: imgs, x.Valid s) :
    (∀ e ∈ imgs.flatMap SegmentImage.entries, img.endLsn ≤ e.sequenceNumber) ∧
      (imgs.flatMap SegmentImage.entries).Pairwise
        fun e e' => e.sequenceNumber < e'.sequenceNumber := by
  induction imgs generalizing img with
  | nil => simp
  | cons next imgs ih =>
    obtain ⟨hbounds, hsorted⟩ := follows_bounds hchain.rel (hvalid img (List.mem_cons_self ..))
      (hvalid next (by simp))
    obtain ⟨hrest, hrest_sorted⟩ :=
      ih hchain.of_cons fun x hx => hvalid x (List.mem_cons_of_mem _ hx)
    rw [List.flatMap_cons]
    have hlt : ∀ e ∈ next.entries, ∀ e' ∈ imgs.flatMap SegmentImage.entries,
        e.sequenceNumber < e'.sequenceNumber := by
      intro e he e' he'
      exact lt_of_lt_of_le (hbounds e he).2 (hrest e' he')
    refine ⟨?_, List.pairwise_append.mpr ⟨hsorted, hrest_sorted, hlt⟩⟩
    intro e he
    rcases List.mem_append.mp he with he | he
    · exact (hbounds e he).1
    · have hle : img.endLsn ≤ next.base := by
        have hbase := follows_base hchain.rel (hvalid img (List.mem_cons_self ..))
        have hsize := (hvalid img (List.mem_cons_self ..)).size_le
        unfold SegmentImage.endLsn
        omega
      have hge := hrest e he
      unfold SegmentImage.endLsn at hge
      omega

/-- INTERNAL: the first segment of a log and the ones behind it. -/
theorem segments_cons (img : LogImage s) :
    ∃ first imgs, img.segments = first :: imgs ∧ first.base = 0 ∧ first.crossing = none ∧
      (first :: imgs).IsChain (Follows s) ∧ ∀ x ∈ first :: imgs, x.Valid s := by
  obtain ⟨first, imgs, hsegments⟩ : ∃ first imgs, img.segments = first :: imgs :=
    List.exists_cons_of_ne_nil (by simp [LogImage.segments])
  have hfirst := img.first first (by
    rw [show img.closed ++ [img.active] = img.segments from rfl, hsegments]
    rfl)
  have hchain := img.chain
  have hvalid := img.valid
  rw [show img.closed ++ [img.active] = img.segments from rfl, hsegments] at hchain hvalid
  exact ⟨first, imgs, hsegments, hfirst.1, hfirst.2, hchain, hvalid⟩

/-- The sequence numbers grow along a log. -/
theorem entries_sorted (img : LogImage s) :
    img.entries.Pairwise fun e e' => e.sequenceNumber < e'.sequenceNumber := by
  obtain ⟨first, imgs, hsegments, hbase, hcrossing, hchain, hvalid⟩ := segments_cons img
  have hnumbered := (hvalid first (List.mem_cons_self ..)).numbered
  have hlead : first.leadSpan = 0 := by simp [SegmentImage.leadSpan, hcrossing]
  have hentries : first.entries = first.records := by simp [SegmentImage.entries, hcrossing]
  obtain ⟨hrest, hsorted⟩ := chain_sorted hchain hvalid
  unfold LogImage.entries
  rw [hsegments, List.flatMap_cons, hentries]
  refine List.pairwise_append.mpr ⟨numbered_sorted hnumbered, hsorted, ?_⟩
  intro e he e' he'
  have hbounds := numbered_mem hnumbered e he
  have hge := hrest e' he'
  unfold SegmentImage.endLsn SegmentImage.size at hge
  omega

/-- INTERNAL: the records of a log are those of its image. -/
theorem represents_entries {crc : Bytes → UInt32} {log : Log} {img : LogImage s}
    (h : Represents crc log img) : log.entries = img.entries := by
  obtain ⟨first, imgs, hsegments, -, hcrossing, -, -⟩ := segments_cons img
  have hentries : first.entries = first.records := by simp [SegmentImage.entries, hcrossing]
  have hlead : placeLead s none first = [] := rfl
  unfold Log.entries LogImage.entries
  rw [h.records, hsegments, placed, hlead, List.nil_append, List.map_append,
    placeWhole_entries, placed_some_entries, List.flatMap_cons, hentries]

/-- INTERNAL: all later segments start a segment size later at least. -/
theorem chain_bases {imgs : List SegmentImage} (hchain : imgs.IsChain (Follows s))
    (hvalid : ∀ x ∈ imgs, x.Valid s) :
    imgs.Pairwise fun x y => x.base + s.val ≤ y.base := by
  induction imgs with
  | nil => exact List.Pairwise.nil
  | cons img imgs ih =>
    have hrest := ih hchain.tail fun x hx => hvalid x (List.mem_cons_of_mem _ hx)
    refine List.pairwise_cons.mpr ⟨?_, hrest⟩
    cases imgs with
    | nil => simp
    | cons next imgs =>
      have hnext := follows_base hchain.rel (hvalid img (List.mem_cons_self ..))
      intro x hx
      rcases List.mem_cons.mp hx with rfl | hx
      · exact hnext
      · have hlater := (List.pairwise_cons.mp hrest).1 x hx
        have hpos := s.pos
        omega

/-- INTERNAL: the end of a segment that another one follows fills it up. -/
theorem before_length {enc : WalEntry → Bytes} (henc : KeepsSpan enc) {c : Crossing}
    (hspan : c.cut + c.zeros < recordSpan c.entry) :
    (c.before enc).length = c.cut + c.zeros := by
  unfold Crossing.before
  rw [List.length_append, List.length_take, List.length_replicate, henc, Nat.min_eq_left (by omega)]

/-- All segments that another one follows are full. -/
theorem filesOf_full {enc : WalEntry → Bytes} (henc : KeepsSpan enc) (rear : Bytes)
    {imgs : List SegmentImage} {seg : SegmentImage} (hchain : (imgs ++ [seg]).IsChain (Follows s)) :
    ∀ f ∈ filesOf enc (closing enc rear [seg]) imgs, f.2.length = s.val := by
  induction imgs with
  | nil => simp [filesOf]
  | cons img imgs ih =>
    obtain ⟨next, rest, hrest⟩ := List.exists_cons_of_ne_nil (show imgs ++ [seg] ≠ [] by simp)
    have hlink : Follows s img next := by
      rw [List.cons_append, hrest] at hchain
      exact hchain.rel
    obtain ⟨c, hc, -, hfull, hspan, -, -⟩ := hlink.crosses
    have hclosing : closing enc (closing enc rear [seg]) imgs = c.before enc := by
      rw [← closing_append, hrest, closing, hc]
    rw [filesOf]
    intro f hf
    obtain rfl | hf := List.mem_cons.mp hf
    · rw [hclosing, List.length_append, written_length henc, before_length henc hspan]
      omega
    · exact ih hchain.tail f hf

end

/-! ## The place of a record -/

/-- A record lies whole behind `skipped` records of the segment, or it crosses over into it. -/
inductive PlacedIn (s : SegmentSize) (earlier : List SegmentImage) (seg : SegmentImage) :
    Record → Prop
  | whole {skipped rest : List WalEntry} {e : WalEntry} (h : seg.records = skipped ++ e :: rest) :
      PlacedIn s earlier seg
        ⟨e, [⟨s.fileName seg.base, seg.leadSpan + spanOf skipped, recordSpan e⟩]⟩
  | crossing {earlier' : List SegmentImage} {before : SegmentImage} {c : Crossing}
      (hearlier : earlier = earlier' ++ [before]) (h : seg.crossing = some c) :
      PlacedIn s earlier seg (placeCrossing s before seg c)

theorem mem_placeWhole {file : String} {offset : ℕ} {es : List WalEntry} {r : Record}
    (h : r ∈ placeWhole file offset es) : ∃ skipped e rest, es = skipped ++ e :: rest ∧
      r = ⟨e, [⟨file, offset + spanOf skipped, recordSpan e⟩]⟩ := by
  induction es generalizing offset with
  | nil => cases h
  | cons e es ih =>
    rw [placeWhole] at h
    obtain rfl | h := List.mem_cons.mp h
    · exact ⟨[], e, es, rfl, rfl⟩
    · obtain ⟨skipped, e', rest, hes, hr⟩ := ih h
      refine ⟨e :: skipped, e', rest, by rw [hes, List.cons_append], ?_⟩
      rw [hr, spanOf, spanOf, List.map_cons, List.sum_cons, Nat.add_assoc]

/-- INTERNAL: every record of a log has its place. -/
theorem mem_placed {s : SegmentSize} {front imgs : List SegmentImage} {r : Record}
    (h : r ∈ placed s front.getLast? imgs) : ∃ earlier seg later,
      imgs = earlier ++ seg :: later ∧ PlacedIn s (front ++ earlier) seg r := by
  induction imgs generalizing front with
  | nil => cases h
  | cons img imgs ih =>
    rw [placed, List.mem_append, List.mem_append] at h
    obtain (h | h) | h := h
    · unfold placeLead at h
      cases hbefore : front.getLast? with
      | none =>
        rw [hbefore] at h
        cases h
      | some before =>
        cases hc : img.crossing with
        | none =>
          rw [hbefore, hc] at h
          cases h
        | some c =>
          rw [hbefore, hc] at h
          rw [List.mem_singleton.mp h]
          have hfront : front ++ [] = front.dropLast ++ [before] := by
            rw [List.append_nil]
            exact (List.dropLast_append_getLast? _ hbefore).symm
          exact ⟨[], img, imgs, rfl, .crossing hfront hc⟩
    · obtain ⟨skipped, e, rest, hrecords, rfl⟩ := mem_placeWhole h
      exact ⟨[], img, imgs, rfl, .whole hrecords⟩
    · have hlast : (front ++ [img]).getLast? = some img := by simp
      rw [← hlast] at h
      obtain ⟨earlier, seg, later, himgs, hplaced⟩ := ih h
      refine ⟨img :: earlier, seg, later, by rw [himgs]; rfl, ?_⟩
      rwa [List.append_assoc] at hplaced

end Rkvs.Analysis
