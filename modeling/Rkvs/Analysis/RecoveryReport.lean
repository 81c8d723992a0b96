import Rkvs.Analysis.LogFiles

/-!
# What recovery reports

Whatever segment files there are, if recovery returns then either it has read all of them, or
it reports a file and an offset up to which it has read. In the second case the table holds the
records before that place, also when the report is about a header that was found at the end of
one file and completed with the next.
-/

set_option autoImplicit false

namespace Rkvs.Analysis

open Rkvs.Library Rkvs.Model Rkvs.Interface

section
variable {crc : Bytes → UInt32} {s : SegmentSize}

/-- The files `front` and then the first `offset` bytes of `content` are the records `es`. -/
structure ReadUpTo (crc : Bytes → UInt32) (s : SegmentSize) (front : List (ℕ × Bytes))
    (content : Bytes) (offset : ℕ) (es : List WalEntry) : Prop where
  offset_le : offset ≤ content.length
  reads : ∃ es₀ cur es₁, ReadsFiles crc s (.start 0) front es₀ cur ∧ cur.offset = 0 ∧
    (walFraming crc).Reads (cur.buffer (content.take offset)) es₁ [] ∧ es = es₀ ++ es₁ ∧
    (offset = 0 → cur.carry = none)

/-- What is handed over to the next file: nothing, or the header of a record that begins at the
end of the last file. -/
inductive Handed (crc : Bytes → UInt32) (s : SegmentSize) (front : List (ℕ × Bytes))
    (es : List WalEntry) : Cursor → Prop
  | nothing : Handed crc s front es (.start 0)
  | header {front' : List (ℕ × Bytes)} {base : ℕ} {content : Bytes} {p : PartialWalEntry}
      (files : front = front' ++ [(base, content)]) (bytes : p.bytes.length = HEADER_SIZE)
      (path : p.segmentFilePath = s.fileName base)
      (upTo : ReadUpTo crc s front' content p.offset es) : Handed crc s front es (.carried p)

/-- INTERNAL: what is handed over goes in front of the next file. -/
theorem Handed.buffer {front : List (ℕ × Bytes)} {es : List WalEntry} {cur : Cursor}
    (h : Handed crc s front es cur) : cur.offset = 0 ∧
      ∃ handed, (cur.carry ≠ none → handed.length = HEADER_SIZE) ∧
        ∀ content, cur.buffer content = handed ++ content := by
  cases h with
  | nothing => exact ⟨rfl, [], fun h => absurd rfl h, fun _ => rfl⟩
  | @header _ _ _ p _ bytes => exact ⟨rfl, p.bytes, fun _ => bytes, fun _ => rfl⟩

/-- INTERNAL: a record that begins in the header handed over ends in the next file. -/
theorem Handed.tail_lt {front : List (ℕ × Bytes)} {es es₁ : List WalEntry} {cur : Cursor}
    {content tail : Bytes} (h : Handed crc s front es cur)
    (hreads : (walFraming crc).Reads (cur.buffer content) es₁ tail) (hcarry : cur.carry ≠ none)
    (hne : es₁ ≠ []) : tail.length < content.length := by
  obtain ⟨-, handed, hlen, hbuffer⟩ := h.buffer
  have hhanded := hlen hcarry
  rw [hbuffer] at hreads
  cases hreads with
  | done => exact absurd rfl hne
  | @next _ e n _ _ head rest =>
    have hitem := header_lt_item (show scanRecord crc (handed ++ content) = .item e n from head)
    have hle := (walFraming crc).item_le head
    have hrest := rest.length_le
    rw [List.length_append] at hle
    rw [List.length_drop, List.length_append] at hrest
    omega

/-- INTERNAL: reading up to a tail is reading what stands before it. -/
theorem Handed.readUpTo {front : List (ℕ × Bytes)} {es es₁ : List WalEntry} {cur : Cursor}
    {content tail : Bytes} (h : Handed crc s front es cur)
    (hfront : ReadsFiles crc s (.start 0) front es cur)
    (hreads : (walFraming crc).Reads (cur.buffer content) es₁ tail)
    (hle : tail.length ≤ content.length)
    (hlt : cur.carry ≠ none → tail.length < content.length) :
    ReadUpTo crc s front content (content.length - tail.length) (es ++ es₁) := by
  obtain ⟨hoffset, handed, -, hbuffer⟩ := h.buffer
  obtain ⟨before, hsplit, hbefore⟩ := hreads.front
  refine ⟨Nat.sub_le .., es, cur, es₁, hfront, hoffset, ?_, rfl, ?_⟩
  · rw [hbuffer] at hsplit ⊢
    have hlen := congrArg List.length hsplit
    rw [List.length_append, List.length_append] at hlen
    have htake := congrArg (List.take before.length) hsplit
    rw [List.take_left, List.take_append, List.take_of_length_le (by omega),
      show before.length - handed.length = content.length - tail.length by omega] at htake
    rw [htake]
    exact hbefore
  · intro hzero
    by_contra hcarry
    have hpast := hlt hcarry
    omega

/-- INTERNAL: what a file hands over when it was read without an error. -/
theorem Handed.next {front : List (ℕ × Bytes)} {es es₁ : List WalEntry} {cur : Cursor}
    {base : ℕ} {content tail : Bytes} (h : Handed crc s front es cur)
    (hfront : ReadsFiles crc s (.start 0) front es cur)
    (hreads : FileReads crc cur content es₁ tail) :
    Handed crc s (front ++ [(base, content)]) (es ++ es₁)
      (Cursor.after (s.fileName base) (content.length - tail.length) tail) := by
  by_cases hshort : tail.length < HEADER_SIZE
  · rw [Cursor.after_short _ _ hshort]
    exact .nothing
  · have hle : tail.length ≤ content.length := hreads.tail_le.resolve_left hshort
    rw [Cursor.after_header _ _ (Nat.not_lt.mp hshort)]
    refine .header rfl ?_ rfl (h.readUpTo hfront hreads.reads hle ?_)
    · rw [List.length_take]
      omega
    · intro hcarry
      apply h.tail_lt hreads.reads hcarry
      rintro rfl
      obtain ⟨-, handed, hlen, hbuffer⟩ := h.buffer
      have hhanded := hlen hcarry
      have htail := congrArg List.length hreads.reads.tail_of_nil
      have hpos : HEADER_SIZE = 13 := rfl
      rw [hbuffer, List.length_append] at htail
      omega

/-- What recovery can come to when it returns: it has read everything, or it reports how far it
has read. -/
inductive Outcome (crc : Bytes → UInt32) (s : SegmentSize) (fs : List (ℕ × Bytes))
    (es : List WalEntry) : Except (ℕ × RecoveryError) ℕ → Prop
  | all {size : ℕ} (reads : ReadsFiles crc s (.start 0) fs es (.start 0)) :
      Outcome crc s fs es (.ok size)
  | upTo {front rear : List (ℕ × Bytes)} {base size offset : ℕ} {content : Bytes}
      (files : fs = front ++ (base, content) :: rear)
      (upTo : ReadUpTo crc s front content offset es) :
      Outcome crc s fs es (.error (size, .corrupted (s.fileName base) offset))

/-- INTERNAL: the loop from any point on.
SOURCE: memtable.rs:257-348 -/
theorem recoverLoop_outcome {dir : Dir} {front rest : List (ℕ × Bytes)} {es : List WalEntry}
    {cur : Cursor} (hfront : ReadsFiles crc s (.start 0) front es cur)
    (hhanded : Handed crc s front es cur)
    (hcontent : ∀ f ∈ rest, dir.content (s.fileName f.1) = f.2) {currSize : ℕ}
    {table table' : Table} {res : Except (ℕ × RecoveryError) ℕ}
    (hrun : MemTable.recoverLoop crc dir (rest.map (openedSegment s)) cur.offset cur.carry
      currSize table = .ok (table', res)) :
    ∃ es', table' = (es'.foldl MemTable.applyEntry (currSize, table)).2 ∧
      Outcome crc s (front ++ rest) (es ++ es') res := by
  induction rest generalizing front es cur currSize table with
  | nil =>
    refine ⟨[], ?_⟩
    rw [List.append_nil, List.append_nil]
    cases hhanded with
    | nothing =>
      cases hrun
      exact ⟨rfl, .all hfront⟩
    | @header front' base content p files _ path upTo =>
      have hres : table' = table ∧
          res = .error (currSize, .corrupted p.segmentFilePath p.offset) := by
        cases hrun
        exact ⟨rfl, rfl⟩
      obtain ⟨rfl, rfl⟩ := hres
      rw [path]
      exact ⟨rfl, .upTo files upTo⟩
  | cons f rest ih =>
    obtain ⟨base, content⟩ := f
    have hopened : dir.content (openedSegment s (base, content)).filePath = content :=
      hcontent (base, content) (List.mem_cons_self ..)
    obtain ⟨hoffset, handed, hlen, hbuffer⟩ := hhanded.buffer
    obtain ⟨es₁, tail, hreads, hends⟩ := (walFraming crc).exists_reads (cur.buffer content)
    rw [List.map_cons] at hrun
    cases hscan : scanRecord crc tail with
    | item e n => exact absurd hscan (hends e n)
    | fail reason =>
      cases reason with
      | fault f =>
        rw [recoverLoop_fault (by rw [hopened]; exact hreads) hscan] at hrun
        cases hrun
      | corrupted =>
        have hpast := hhanded.tail_lt hreads
        rw [recoverLoop_corrupted hopened hreads hscan (by rw [hoffset]; exact Nat.zero_le _)
          hpast] at hrun
        cases hrun
        refine ⟨es₁, rfl, ?_⟩
        rw [openedSegment_filePath]
        cases hhanded with
        | nothing =>
          have hle := hreads.length_le
          rw [Cursor.buffer, List.drop_zero] at hle
          exact .upTo rfl (Handed.nothing.readUpTo hfront hreads (by omega)
            fun hcarry => absurd rfl hcarry)
        | @header front' base' content' p files bytes path upTo =>
          cases es₁ with
          | nil =>
            have hfiles : front ++ (base, content) :: rest =
                front' ++ (base', content') :: (base, content) :: rest := by
              rw [files, List.append_assoc, List.singleton_append]
            rw [corruptionReport, path, List.append_nil]
            exact .upTo hfiles upTo
          | cons e es₁ =>
            have hlt := hpast (by simp [Cursor.carry]) (List.cons_ne_nil e es₁)
            exact .upTo rfl ((Handed.header files bytes path upTo).readUpTo hfront hreads hlt.le
              fun _ => hlt)
    | stop =>
      by_cases hle : tail.length < HEADER_SIZE ∨ tail.length ≤ content.length
      · have hfile : FileReads crc cur content es₁ tail :=
          ⟨hreads, hscan, by rw [hoffset]; exact Nat.zero_le _, hle⟩
        rw [recoverLoop_stop hopened hfile, openedSegment_filePath] at hrun
        obtain ⟨es', htable, houtcome⟩ := ih (hfront.append (hfile.single base))
          (hhanded.next hfront hfile) (fun f hf => hcontent f (List.mem_cons_of_mem _ hf)) hrun
        refine ⟨es₁ ++ es', by rw [List.foldl_append]; exact htable, ?_⟩
        rw [List.append_assoc, List.singleton_append, List.append_assoc] at houtcome
        exact houtcome
      · -- the record whose header was handed over is not complete in this file
        push Not at hle
        cases hhanded with
        | nothing =>
          have hshort := hreads.length_le
          rw [Cursor.buffer, List.drop_zero] at hshort
          omega
        | @header _ _ _ p _ _ _ _ =>
          rw [Cursor.offset, Cursor.carry, recoverLoop_underflow (by rw [hopened]; exact hreads)
            hscan hle.1 (by rw [hopened]; exact hle.2)] at hrun
          cases hrun

/-- Recovery that returns has read everything or says how far it has read, and the table holds
what it has read.
SOURCE: memtable.rs:246-350 -/
theorem recover_outcome {dir : Dir} {fs : List (ℕ × Bytes)}
    (hcontent : ∀ f ∈ fs, dir.content (s.fileName f.1) = f.2) {table : Table}
    {res : Except (ℕ × RecoveryError) ℕ}
    (hrun : MemTable.recover crc dir (fs.map (openedSegment s)) 0 ∅ = .ok (table, res)) :
    ∃ es, table = tableOf es ∧ Outcome crc s fs es res :=
  recoverLoop_outcome (.nil _) .nothing hcontent hrun

end

end Rkvs.Analysis
