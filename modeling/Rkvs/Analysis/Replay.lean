import Rkvs.Analysis.ImageReads
import Rkvs.Analysis.LogOrder

/-!
# Replay from a checkpoint

Recovery from the sequence number of an entry starts in the file and at the offset that this
number stands for. There the entry's record begins, or there is the padding behind which it
was written to the next file. The entries from there on are read in order.
-/

set_option autoImplicit false

namespace Rkvs.Analysis

open Rkvs.Library Rkvs.Model Rkvs.Interface

section
variable {s : SegmentSize} {crc : Bytes → UInt32}

/-- INTERNAL: the offset in a segment is what is left of the LSN. -/
theorem offset_mod {base lsn : ℕ} (hdvd : s.val ∣ base) (hle : base ≤ lsn)
    (hlt : lsn < base + s.val) : lsn % s.val = lsn - base := by
  obtain ⟨q, rfl⟩ := hdvd
  obtain ⟨offset, rfl⟩ := Nat.exists_eq_add_of_le hle
  rw [Nat.mul_add_mod, Nat.mod_eq_of_lt (by omega), Nat.add_sub_cancel_left]

/-- INTERNAL: the files of segments start where the segments do. -/
theorem mem_filesOf {enc : WalEntry → Bytes} {rear : Bytes} {imgs : List SegmentImage}
    {f : ℕ × Bytes} (h : f ∈ filesOf enc rear imgs) : ∃ img ∈ imgs, f.1 = img.base := by
  induction imgs with
  | nil => cases h
  | cons img imgs ih =>
    rw [filesOf] at h
    rcases List.mem_cons.mp h with rfl | h
    · exact ⟨img, List.mem_cons_self .., rfl⟩
    · obtain ⟨img', himg', hbase⟩ := ih h
      exact ⟨img', List.mem_cons_of_mem _ himg', hbase⟩

/-- INTERNAL: the files of the segments that end after `n`. -/
theorem filter_filesOf {enc : WalEntry → Bytes} {rear : Bytes} {earlier imgs : List SegmentImage}
    {n : ℕ} (hearlier : ∀ x ∈ earlier, x.base + s.val ≤ n) (himgs : ∀ x ∈ imgs, n < x.base + s.val) :
    (filesOf enc rear (earlier ++ imgs)).filter (fun f => n < f.1 + s.val) =
      filesOf enc rear imgs := by
  rw [filesOf_append, List.filter_append, List.filter_eq_nil_iff.mpr, List.filter_eq_self.mpr,
    List.nil_append]
  · intro f hf
    obtain ⟨x, hx, hbase⟩ := mem_filesOf hf
    rw [hbase]
    exact decide_eq_true (himgs x hx)
  · intro f hf
    obtain ⟨x, hx, hbase⟩ := mem_filesOf hf
    have hle := hearlier x hx
    simp only [hbase, decide_eq_true_eq]
    omega

/-- INTERNAL: a segment and a place in it from which the entries from `e` on are read. It is the first
segment that ends after the LSN of `e`. -/
def Located (crc : Bytes → UInt32) (img : LogImage s) (e : WalEntry) : Prop :=
  ∃ earlier seg later es, img.segments = earlier ++ seg :: later ∧
    Begins crc (WalEntry.encode crc) (.start (e.sequenceNumber % s.val)) seg es ∧
    (∃ skipped rest, img.entries = skipped ++ e :: rest ∧
      es ++ later.flatMap SegmentImage.entries = e :: rest) ∧
    (∀ x ∈ earlier, x.base + s.val ≤ e.sequenceNumber) ∧
    ∀ x ∈ seg :: later, e.sequenceNumber < x.base + s.val

section
variable {img : LogImage s} {earlier later : List SegmentImage} {prev seg : SegmentImage}
  {c : Crossing} {e : WalEntry} {n : ℕ}

/-- INTERNAL: the segments of a log are valid. -/
theorem segment_valid (hsegments : img.segments = earlier ++ seg :: later) : seg.Valid s := by
  apply img.valid
  rw [show img.closed ++ [img.active] = img.segments from rfl, hsegments]
  simp

/-- INTERNAL: the segments of a log lie apart. -/
theorem segments_apart (hsegments : img.segments = earlier ++ seg :: later) :
    (∀ x ∈ earlier, x.base + s.val ≤ seg.base) ∧ ∀ x ∈ later, seg.base + s.val ≤ x.base := by
  have hbases := chain_bases img.chain img.valid
  rw [show img.closed ++ [img.active] = img.segments from rfl, hsegments, List.pairwise_append,
    List.pairwise_cons] at hbases
  obtain ⟨-, ⟨hlater, -⟩, hearlier⟩ := hbases
  exact ⟨fun x hx => hearlier x hx seg (List.mem_cons_self ..), hlater⟩

/-- INTERNAL: the entries of a log before, in and after one of its segments. -/
theorem segments_entries (hsegments : img.segments = earlier ++ seg :: later) :
    img.entries = earlier.flatMap SegmentImage.entries ++
      (leadEntries seg ++ seg.records ++ later.flatMap SegmentImage.entries) := by
  unfold LogImage.entries
  rw [hsegments, List.flatMap_append, List.flatMap_cons]
  rfl

/-- INTERNAL: the segments before one that begins by `n` end by `n`. -/
theorem earlier_end (hsegments : img.segments = earlier ++ seg :: later) (hn : seg.base ≤ n) :
    ∀ x ∈ earlier, x.base + s.val ≤ n := by
  intro x hx
  have hle := (segments_apart hsegments).1 x hx
  omega

/-- INTERNAL: a segment that ends after `n` and those behind it end after `n`. -/
theorem later_end (hsegments : img.segments = earlier ++ seg :: later)
    (hn : n < seg.base + s.val) : ∀ x ∈ seg :: later, n < x.base + s.val := by
  intro x hx
  rcases List.mem_cons.mp hx with rfl | hx
  · exact hn
  · have hle := (segments_apart hsegments).2 x hx
    omega

/-- INTERNAL: a record that lies in a segment as a whole. -/
theorem located_record (crc : Bytes → UInt32) (hsegments : img.segments = earlier ++ seg :: later)
    (hrecord : e ∈ seg.records) : Located crc img e := by
  have hsegv := segment_valid hsegments
  obtain ⟨skipped, es, hrecords⟩ := List.append_of_mem hrecord
  have hnumbered := hsegv.numbered
  rw [hrecords, numbered_append] at hnumbered
  have hseq := hnumbered.2.1
  have hsize := hsegv.size_le
  have hpos := recordSpan_pos e
  have hspan : spanOf (e :: es) = recordSpan e + spanOf es := by simp [spanOf]
  unfold SegmentImage.size at hsize
  rw [hrecords, spanOf_append, hspan] at hsize
  refine ⟨earlier, seg, later, e :: es, hsegments, ?_, ?_, earlier_end hsegments (by omega),
    later_end hsegments (by omega)⟩
  · rw [offset_mod hsegv.dvd (by omega) (by omega), hseq, Nat.add_assoc, Nat.add_sub_cancel_left]
    refine begins_offset (keepsSpan_encode crc) hrecords ?_ fun _ _ => rfl
    intro e' he'
    apply hsegv.wellFormed
    unfold SegmentImage.entries
    rw [hrecords]
    exact List.mem_append_right _ (List.mem_append_right _ he')
  · refine ⟨earlier.flatMap SegmentImage.entries ++ (leadEntries seg ++ skipped), _, ?_, rfl⟩
    rw [segments_entries hsegments, hrecords]
    simp

/-- INTERNAL: the first segment has no record that crossed over. -/
theorem segment_before (hsegments : img.segments = earlier ++ seg :: later)
    (hc : seg.crossing = some c) : ∃ front prev, earlier = front ++ [prev] := by
  rcases List.eq_nil_or_concat earlier with rfl | ⟨front, prev, rfl⟩
  · obtain ⟨first, imgs, hfirst, -, hcrossing, -, -⟩ := segments_cons img
    rw [hsegments, List.nil_append] at hfirst
    cases hfirst
    rw [hcrossing] at hc
    cases hc
  · exact ⟨front, prev, List.concat_eq_append⟩

/-- INTERNAL: one segment follows the other. -/
theorem segments_follow (hsegments : img.segments = earlier ++ prev :: seg :: later) :
    Follows s prev seg := by
  have hchain := img.chain
  rw [show img.closed ++ [img.active] = img.segments from rfl, hsegments,
    List.isChain_append] at hchain
  exact hchain.2.1.rel

/-- INTERNAL: the entries from a record on that crossed over into a segment. -/
theorem crossing_entries (hc : seg.crossing = some c) :
    seg.entries = c.entry :: seg.records := by
  simp [SegmentImage.entries, hc]

/-- INTERNAL: a record for which the segment before had room left: its LSN lies behind the records
there. -/
theorem located_behind (crc : Bytes → UInt32)
    (hsegments : img.segments = earlier ++ prev :: seg :: later) (hc : seg.crossing = some c)
    (hroom : prev.size < s.val) : Located crc img c.entry := by
  have hprevv := segment_valid hsegments
  obtain ⟨c', hc', hseq, -, -, -, -⟩ := (segments_follow hsegments).crosses
  rw [hc] at hc'
  cases hc'
  unfold SegmentImage.endLsn at hseq
  refine ⟨earlier, prev, seg :: later, [], hsegments, ?_, ?_, earlier_end hsegments (by omega),
    later_end hsegments (by omega)⟩
  · rw [offset_mod hprevv.dvd (by omega) (by omega), hseq, Nat.add_sub_cancel_left]
    exact begins_offset (keepsSpan_encode crc)
      (show prev.records = prev.records ++ [] by simp) (by simp) (by simp)
  · refine ⟨earlier.flatMap SegmentImage.entries ++ (leadEntries prev ++ prev.records),
      seg.records ++ later.flatMap SegmentImage.entries, ?_, ?_⟩
    · rw [segments_entries hsegments, List.flatMap_cons, crossing_entries hc]
      simp
    · rw [List.nil_append, List.flatMap_cons, crossing_entries hc, List.cons_append]

/-- INTERNAL: a record for which the segment before had no room left was written whole. -/
theorem located_whole (crc : Bytes → UInt32)
    (hsegments : img.segments = earlier ++ prev :: seg :: later) (hc : seg.crossing = some c)
    (hroom : s.val ≤ prev.size) : Located crc img c.entry := by
  have hspos := s.pos
  have hprevv := segment_valid hsegments
  have hsize := hprevv.size_le
  have hlink := segments_follow hsegments
  have hprevbase := follows_base hlink hprevv
  obtain ⟨c', hc', hseq, hfull, -, -, -⟩ := hlink.crosses
  rw [hc] at hc'
  cases hc'
  unfold SegmentImage.endLsn at hseq
  have hafter : img.segments = (earlier ++ [prev]) ++ seg :: later := by
    rw [hsegments, List.append_assoc, List.singleton_append]
  have hsplit : c.split = false := by
    cases hsp : c.split with
    | false => rfl
    | true =>
      have hheader : HEADER_SIZE = 13 := rfl
      simp only [Crossing.cut, hsp, if_true] at hfull
      omega
  have hmod : c.entry.sequenceNumber % s.val = 0 := by
    have hfull_eq : c.entry.sequenceNumber = prev.base + s.val := by omega
    rw [hfull_eq]
    exact Nat.mod_eq_zero_of_dvd (Nat.dvd_add hprevv.dvd (Nat.dvd_refl _))
  refine ⟨earlier ++ [prev], seg, later, seg.entries, hafter, ?_, ?_, ?_,
    later_end hafter (by omega)⟩
  · rw [hmod]
    exact begins_joined (joins_whole hc hsplit) (segment_valid hafter).wellFormed fun _ _ => rfl
  · refine ⟨(earlier ++ [prev]).flatMap SegmentImage.entries,
      seg.records ++ later.flatMap SegmentImage.entries, ?_, ?_⟩
    · rw [segments_entries hafter]
      simp [leadEntries, hc]
    · rw [crossing_entries hc, List.cons_append]
  · intro x hx
    rcases List.mem_append.mp hx with hx | hx
    · exact earlier_end hsegments (by omega) x hx
    · rw [List.mem_singleton.mp hx]
      omega

end

/-- The entries from `e` on are read from the segment in which its LSN lies. -/
theorem locate (crc : Bytes → UInt32) (img : LogImage s) {e : WalEntry} (he : e ∈ img.entries) :
    Located crc img e := by
  obtain ⟨seg, hseg, heseg⟩ := List.mem_flatMap.mp he
  obtain ⟨earlier, later, hsegments⟩ := List.append_of_mem hseg
  unfold SegmentImage.entries at heseg
  rcases List.mem_append.mp heseg with hcross | hrecord
  · obtain ⟨c, hc, rfl⟩ : ∃ c, seg.crossing = some c ∧ c.entry = e := by
      simpa using hcross
    obtain ⟨front, prev, rfl⟩ := segment_before hsegments hc
    rw [List.append_assoc, List.singleton_append] at hsegments
    by_cases hroom : prev.size < s.val
    · exact located_behind crc hsegments hc hroom
    · exact located_whole crc hsegments hc (Nat.not_lt.mp hroom)
  · exact located_record crc hsegments hrecord

/-- INTERNAL: all segment files that end after `n`, opened. -/
theorem segmentsEndingAfter_eq {dir : Dir} {fs : List (ℕ × Bytes)} (h : SegmentFiles s dir fs)
    (n : ℕ) : segmentsEndingAfter dir s.val n =
      .ok ((fs.filter fun f => n < f.1 + s.val).map (openedSegment s)) := by
  have hopen : (fs.map fun f => s.fileName f.1).mapM (MemTable.openSegment dir s.val) =
      .ok (fs.map (openedSegment s)) := by
    rw [List.mapM_map]
    apply mapM_ok
    intro f hf
    exact h.openSegment_eq hf
  unfold segmentsEndingAfter
  rw [h.names_sort, hopen, exec_ok_bind, List.filter_map]
  rfl

/-- Recovery from the files of an image, from the beginning of one of its segments on or from
one of its records on, returns the table of the entries read.
SOURCE: memtable.rs:246-350 -/
theorem recover_image {dir : Dir} {img : LogImage s} {earlier later : List SegmentImage}
    {seg : SegmentImage} {offset : ℕ} {es : List WalEntry}
    (hfiles : SegmentFiles s dir (filesOf (WalEntry.encode crc) [] img.segments))
    (hsegments : img.segments = earlier ++ seg :: later)
    (hbegin : Begins crc (WalEntry.encode crc) (.start offset) seg es) :
    ReadsFiles crc s (.start offset) (filesOf (WalEntry.encode crc) [] (seg :: later))
        (es ++ later.flatMap SegmentImage.entries) (.start 0) ∧
      ∀ f ∈ filesOf (WalEntry.encode crc) [] (seg :: later),
        dir.content (s.fileName f.1) = f.2 := by
  have hchain := img.chain
  have hvalid := img.valid
  rw [show img.closed ++ [img.active] = img.segments from rfl, hsegments] at hchain hvalid
  have hwell : ∀ x ∈ later, ∀ e ∈ x.entries, WellFormed e :=
    fun x hx => (hvalid x (by simp [hx])).wellFormed
  obtain ⟨last, hlast⟩ : ∃ last, (seg :: later).getLast? = some last :=
    ⟨_, List.getLast?_eq_some_getLast (List.cons_ne_nil _ _)⟩
  have hreads := readsFiles_chain (keepsSpan_encode crc) (List.isChain_append.mp hchain).2.1
    hlast hbegin hwell (fun _ _ _ _ => rfl)
    (scanRecord_short (show ([] : Bytes).length < HEADER_SIZE by decide))
  refine ⟨hreads.congr rfl rfl (Cursor.after_short _ _ (by decide)), ?_⟩
  intro f hf
  apply hfiles.content
  rw [hsegments, filesOf_append]
  exact List.mem_append_right _ hf

/-- Recovery from a checkpoint, in name order from exactly the segment files that end after
it, gives the last write to every key among the entries from the checkpoint on.
SOURCE: memtable.rs:246-350 -/
theorem replay_from_checkpoint {ops : List LogOp} (hops : ∀ op ∈ ops, op.Fits crc s.val)
    {log : Log} (hrun : Log.run crc s.val ops = .ok log) {n : ℕ}
    (hn : n = 0 ∨ ∃ e ∈ log.entries, e.sequenceNumber = n) :
    ∃ segments table size, segmentsEndingAfter log.wal.dir s.val n = .ok segments ∧
      MemTable.recover crc log.wal.dir segments (n % s.val) ∅ = .ok (table, .ok size) ∧
      ∀ key, table.lookup key =
        lastWrite (log.entries.filter fun e => n ≤ e.sequenceNumber) key := by
  obtain ⟨img, himg⟩ := run_represents hops hrun
  have hentries := represents_entries himg
  -- it is enough to find the segment and what is read from there on
  suffices hstart : ∃ earlier seg later es, img.segments = earlier ++ seg :: later ∧
      Begins crc (WalEntry.encode crc) (.start (n % s.val)) seg es ∧
      es ++ later.flatMap SegmentImage.entries =
        img.entries.filter (fun e => n ≤ e.sequenceNumber) ∧
      (∀ x ∈ earlier, x.base + s.val ≤ n) ∧ ∀ x ∈ seg :: later, n < x.base + s.val by
    obtain ⟨earlier, seg, later, es, hsegments, hbegin, hes, hearlier, hlater⟩ := hstart
    obtain ⟨hreads, hcontent⟩ := recover_image himg.files hsegments hbegin
    refine ⟨_, _, _, ?_, recover_readsFiles hreads hcontent, ?_⟩
    · rw [segmentsEndingAfter_eq himg.files, hsegments, filter_filesOf hearlier hlater]
    · intro key
      rw [lookup_tableOf, hes, hentries]
  by_cases hmem : ∃ e ∈ img.entries, e.sequenceNumber = n
  · obtain ⟨e, he, rfl⟩ := hmem
    obtain ⟨earlier, seg, later, es, hsegments, hbegin, ⟨skipped, rest, hall, hes⟩, hbases⟩ :=
      locate crc img he
    refine ⟨earlier, seg, later, es, hsegments, hbegin, ?_, hbases⟩
    have hsorted := entries_sorted img
    rw [hall, List.pairwise_append, List.pairwise_cons] at hsorted
    obtain ⟨-, ⟨hrest, -⟩, hskipped⟩ := hsorted
    rw [hes, hall, List.filter_append, List.filter_eq_nil_iff.mpr, List.filter_eq_self.mpr,
      List.nil_append]
    · intro e' he'
      rcases List.mem_cons.mp he' with rfl | he'
      · simp
      · exact decide_eq_true (hrest e' he').le
    · intro e' he'
      have hlt := hskipped e' he' e (List.mem_cons_self ..)
      simp only [decide_eq_true_eq]
      omega
  · -- no entry has the number, so it is 0 and everything is read
    have hzero : n = 0 := by
      rcases hn with rfl | ⟨e, he, hseq⟩
      · rfl
      · exact absurd ⟨e, hentries ▸ he, hseq⟩ hmem
    subst hzero
    obtain ⟨first, imgs, hsegments, hbase, hcrossing, -, hvalid⟩ := segments_cons img
    have hspos := s.pos
    refine ⟨[], first, imgs, first.entries, hsegments, ?_, ?_, by simp, ?_⟩
    · rw [Nat.zero_mod]
      exact begins_joined (joins_first hcrossing)
        (hvalid first (List.mem_cons_self ..)).wellFormed fun _ _ => rfl
    · unfold LogImage.entries
      rw [hsegments, List.flatMap_cons, List.filter_eq_self.mpr (by simp)]
    · intro x _
      omega

end

/-! ## A history in which records fit, cross over whole and cross over split -/

/-- INTERNAL: puts that fit. -/
theorem put_fits {crc : Bytes → UInt32} {segmentSize : ℕ} {key value : String} (hkey : key ≠ "")
    (hlen : 25 + (asBytes key).length + (asBytes value).length ≤ segmentSize) :
    (LogOp.put key value).Fits crc segmentSize := by
  intro lsn e he
  simp only [LogOp.entry, Option.some.injEq] at he
  subst he
  refine ⟨hkey, ?_⟩
  rw [encode_length, body_length]
  dsimp only
  omega

/-- INTERNAL: deletes that fit. -/
theorem delete_fits {crc : Bytes → UInt32} {segmentSize : ℕ} {key : String} (hkey : key ≠ "")
    (hlen : 21 + (asBytes key).length ≤ segmentSize) :
    (LogOp.delete key).Fits crc segmentSize := by
  intro lsn e he
  simp only [LogOp.entry, Option.some.injEq] at he
  subst he
  refine ⟨hkey, ?_⟩
  rw [encode_length, body_length]
  dsimp only
  omega

/-- INTERNAL: reopening writes nothing. -/
theorem reopen_fits {crc : Bytes → UInt32} {segmentSize : ℕ} :
    LogOp.reopen.Fits crc segmentSize := by
  intro lsn e he
  cases he

/-- INTERNAL: segments of 64 bytes. -/
def smallSegments : SegmentSize := ⟨64, by decide, by decide⟩

/-- INTERNAL: puts and a delete, of which the last put crosses over. -/
def shortHistory : List LogOp :=
  [.put "a" "x", .put "b" "y", .reopen, .put "a" "zzz", .delete "b", .put "c" "split up"]

/-- INTERNAL: they fit. -/
theorem shortHistory_fits (crc : Bytes → UInt32) :
    ∀ op ∈ shortHistory, op.Fits crc smallSegments.val := by
  unfold shortHistory
  simp only [List.forall_mem_cons]
  exact ⟨put_fits (by decide) (by decide), put_fits (by decide) (by decide), reopen_fits,
    put_fits (by decide) (by decide), delete_fits (by decide) (by decide),
    put_fits (by decide) (by decide), by simp⟩

/-- INTERNAL: a history that runs, by what can be seen of the log it leaves. -/
theorem run_of_map {β : Type} {crc : Bytes → UInt32} {segmentSize : ℕ} {ops : List LogOp}
    (f : Log → β) {b : β} (h : (Log.run crc segmentSize ops).map f = .ok b) :
    ∃ log, Log.run crc segmentSize ops = .ok log ∧ f log = b := by
  cases hrun : Log.run crc segmentSize ops with
  | error f =>
    rw [hrun] at h
    cases h
  | ok log =>
    rw [hrun] at h
    exact ⟨log, rfl, Except.ok.inj h⟩

/-- Recovery of the short history from the third put on. -/
theorem replay_from_checkpoint_short : ∃ log,
    Log.run (fun _ => 0) smallSegments.val shortHistory = .ok log ∧
      ∃ segments table size,
        segmentsEndingAfter log.wal.dir smallSegments.val 54 = .ok segments ∧
        MemTable.recover (fun _ => 0) log.wal.dir segments (54 % smallSegments.val) ∅ =
          .ok (table, .ok size) ∧
        ∀ key, table.lookup key =
          lastWrite (log.entries.filter fun e => 54 ≤ e.sequenceNumber) key := by
  have hleft : (Log.run (fun _ => 0) smallSegments.val shortHistory).map Log.entries =
      .ok [⟨.put, "a", some "x", 0⟩, ⟨.put, "b", some "y", 27⟩, ⟨.put, "a", some "zzz", 54⟩,
        ⟨.delete, "b", none, 93⟩, ⟨.put, "c", some "split up", 115⟩] := by decide
  obtain ⟨log, hrun, hentries⟩ := run_of_map Log.entries hleft
  refine ⟨log, hrun, replay_from_checkpoint (shortHistory_fits _) hrun (Or.inr ?_)⟩
  exact ⟨⟨.put, "a", some "zzz", 54⟩, by rw [hentries]; simp, rfl⟩

end Rkvs.Analysis
