import Rkvs.Analysis.ReadBuffers
import Rkvs.Analysis.SstLevels

/-!
# Filling read buffers

A read buffer takes over the entries that fit into it, one after the other from where it has
stopped reading. What it still has to give is what it holds and what it has not read yet.
-/

set_option autoImplicit false

namespace Rkvs.Analysis

open Rkvs.Library Rkvs.Model Rkvs.Interface

/-! ## The entries that fit -/

/-- INTERNAL: an entry with room is read. -/
theorem readable_cons_of_le {n : ℕ} {e : SsTableEntry} (h : e.len + 4 ≤ n)
    (es : List SsTableEntry) :
    readable n (e :: es) = e :: readable (n - (e.len + 4)) es := if_pos h

/-- INTERNAL: an entry without room ends the reading. -/
theorem readable_cons_of_lt {n : ℕ} {e : SsTableEntry} (h : n < e.len + 4)
    (es : List SsTableEntry) : readable n (e :: es) = [] := if_neg (Nat.not_le.mpr h)

/-- INTERNAL: the length of a data block. -/
theorem dataBlock_length (es : List SsTableEntry) : (dataBlock es).length = framedBytes es := by
  induction es with
  | nil => rfl
  | cons e es ih => rw [dataBlock_cons, List.length_append, frame_length, ih, framedBytes_cons]

/-- INTERNAL: the length of two lists of entries. -/
theorem framedBytes_append (es fs : List SsTableEntry) :
    framedBytes (es ++ fs) = framedBytes es + framedBytes fs := by
  rw [← dataBlock_length, dataBlock_append, List.length_append, dataBlock_length, dataBlock_length]

/-- INTERNAL: what is read fits. -/
theorem framedBytes_readable (n : ℕ) (es : List SsTableEntry) :
    framedBytes (readable n es) ≤ n := by
  induction es generalizing n with
  | nil => exact Nat.zero_le n
  | cons e es ih =>
    by_cases hfits : e.len + 4 ≤ n
    · have hrest := ih (n - (e.len + 4))
      rw [readable_cons_of_le hfits, framedBytes_cons]
      omega
    · rw [readable_cons_of_lt (Nat.lt_of_not_le hfits)]
      exact Nat.zero_le n

/-- INTERNAL: what is read comes first. -/
theorem readable_prefix (n : ℕ) (es : List SsTableEntry) : ∃ rest, es = readable n es ++ rest := by
  induction es generalizing n with
  | nil => exact ⟨[], rfl⟩
  | cons e es ih =>
    by_cases hfits : e.len + 4 ≤ n
    · obtain ⟨rest, hrest⟩ := ih (n - (e.len + 4))
      refine ⟨rest, ?_⟩
      rw [readable_cons_of_le hfits, List.cons_append, ← hrest]
    · rw [readable_cons_of_lt (Nat.lt_of_not_le hfits)]
      exact ⟨e :: es, rfl⟩

/-- INTERNAL: what fits in is followed by what fits into the rest. -/
theorem readable_append {n : ℕ} {es : List SsTableEntry} (h : framedBytes es ≤ n)
    (fs : List SsTableEntry) : readable n (es ++ fs) = es ++ readable (n - framedBytes es) fs := by
  induction es generalizing n with
  | nil => rfl
  | cons e es ih =>
    rw [framedBytes_cons] at h ⊢
    rw [List.cons_append, readable_cons_of_le (by omega), ih (by omega), Nat.sub_sub,
      List.cons_append]

/-- INTERNAL: a byte more than all entries have is as good as more. -/
theorem readable_min (n : ℕ) (es : List SsTableEntry) :
    readable (min (framedBytes es + 1) n) es = readable n es := by
  induction es generalizing n with
  | nil => rfl
  | cons e es ih =>
    rw [framedBytes_cons]
    by_cases hfits : e.len + 4 ≤ n
    · have hless : min (e.len + 4 + framedBytes es + 1) n - (e.len + 4) =
          min (framedBytes es + 1) (n - (e.len + 4)) := by omega
      rw [readable_cons_of_le hfits, readable_cons_of_le (by omega), hless, ih]
    · rw [readable_cons_of_lt (by omega), readable_cons_of_lt (by omega)]

/-- INTERNAL: the loop takes over the entries of which all bytes were read, and stops at the first
that was cut off.
SOURCE: sstable.rs:235-254 -/
theorem dequeFromBytesLoop_ok {es : List SsTableEntry} (hfits : ∀ e ∈ es, EntryFits e)
    {more bytes : Bytes} (front : Bytes) {n : ℕ} (hn : n ≤ (dataBlock es).length + 1)
    (h : bytes = front ++ (dataBlock es ++ more).take n) {fuel : ℕ}
    (hfuel : (readable n es).length < fuel) (res : List SsTableEntry) :
    SsTableEntry.dequeFromBytesLoop bytes fuel front.length res = .ok (res ++ readable n es) := by
  induction es generalizing front n fuel res with
  | nil =>
    obtain ⟨left, rfl⟩ : ∃ left, fuel = left + 1 := ⟨fuel - 1, by omega⟩
    have hend : ¬front.length + 4 < bytes.length := by
      rw [h, List.length_append, List.length_take]
      rw [dataBlock_nil, List.length_nil] at hn
      omega
    rw [SsTableEntry.dequeFromBytesLoop, if_neg hend, readable, List.append_nil]
  | cons e es ih =>
    obtain ⟨left, rfl⟩ : ∃ left, fuel = left + 1 := ⟨fuel - 1, by omega⟩
    have hefits := hfits e (List.mem_cons_self ..)
    have hlen := hefits.len_lt
    have hge := len_ge e
    rw [dataBlock_cons, List.append_assoc] at h
    rw [dataBlock_cons, List.length_append, frame_length] at hn
    rw [SsTableEntry.dequeFromBytesLoop]
    by_cases hroom : e.len + 4 ≤ n
    · -- all bytes of the entry were read
      have htake : bytes = front ++ (frame e ++ (dataBlock es ++ more).take (n - (e.len + 4))) := by
        rw [h, List.take_append, frame_length, List.take_of_length_le (by simpa using hroom)]
      have hlength : bytes.length = front.length + (e.len + 4) +
          ((dataBlock es ++ more).take (n - (e.len + 4))).length := by
        rw [htake, List.length_append, List.length_append, frame_length]
        omega
      have hnumber : sliceU32 bytes front.length = .ok e.len :=
        sliceU32_middle front (e.toBytes ++ (dataBlock es ++ more).take (n - (e.len + 4)))
          (by rw [htake]; simp [frame]) rfl hlen
      have hentry : slice bytes (front.length + 4) (front.length + 4 + e.len) = .ok e.toBytes :=
        slice_middle (front ++ leBytes 4 e.len) e.toBytes
          ((dataBlock es ++ more).take (n - (e.len + 4))) (by rw [htake]; simp [frame])
          (by simp) (by simp)
      have hnext := ih (fun f hf => hfits f (List.mem_cons_of_mem _ hf)) (front ++ frame e)
        (n := n - (e.len + 4)) (by omega) (by rw [htake, List.append_assoc])
        (by simpa [readable_cons_of_le hroom] using hfuel) (res ++ [e])
      rw [List.length_append, frame_length, ← Nat.add_assoc, Nat.add_right_comm] at hnext
      rw [if_pos (by omega)]
      simp only [hnumber, hentry, fromBytes_toBytes hefits, exec_ok_bind]
      rw [if_pos (by omega), readable_cons_of_le hroom, hnext, List.append_assoc]
      rfl
    · -- the last bytes are not there
      have hshort : bytes.length ≤ front.length + n := by
        rw [h, List.length_append, List.length_take]
        omega
      rw [readable_cons_of_lt (Nat.lt_of_not_le hroom), List.append_nil]
      by_cases hhead : front.length + 4 < bytes.length
      · have hfour : 4 ≤ n := by omega
        have htake : bytes = front ++ leBytes 4 e.len ++
            (e.toBytes ++ (dataBlock es ++ more)).take (n - 4) := by
          have hframe : frame e ++ (dataBlock es ++ more) =
              leBytes 4 e.len ++ (e.toBytes ++ (dataBlock es ++ more)) := by simp [frame]
          rw [h, hframe, List.take_append, leBytes_length,
            List.take_of_length_le (by rwa [leBytes_length]), List.append_assoc]
        rw [if_pos hhead]
        simp only [sliceU32_middle front _ htake rfl hlen, exec_ok_bind]
        rw [if_neg (by omega)]
      · rw [if_neg hhead]

/-- INTERNAL: the whole entries in some bytes are read.
SOURCE: sstable.rs:236-254 -/
theorem dequeFromBytes_ok {es : List SsTableEntry} (hfits : ∀ e ∈ es, EntryFits e) (more : Bytes)
    (n : ℕ) :
    SsTableEntry.dequeFromBytes ((dataBlock es ++ more).take (min (framedBytes es + 1) n)) =
      .ok (readable n es) := by
  rw [← readable_min n es]
  generalize hm : min (framedBytes es + 1) n = m
  have hle : m ≤ (dataBlock es).length + 1 := by
    rw [dataBlock_length]
    omega
  have hcount : (readable m es).length ≤ ((dataBlock es ++ more).take m).length := by
    obtain ⟨rest, hrest⟩ := readable_prefix m es
    have hall := congrArg framedBytes hrest
    have hnumber := length_le_dataBlock (readable m es)
    have hbytes := framedBytes_readable m es
    rw [framedBytes_append] at hall
    rw [dataBlock_length] at hnumber
    rw [List.length_take, List.length_append, dataBlock_length]
    omega
  exact dequeFromBytesLoop_ok hfits [] hle rfl (Nat.lt_succ_of_le hcount) []

/-! ## What a buffer has to give -/

/-- The entries of the data block that the buffer has not read yet. -/
def unread (b : Sst.SegmentReadBuf) : List SsTableEntry :=
  match Sst.Segment.readTableEntries b.segment.file b.currOffset b.segment.dataBlockEnd with
  | .ok es => es
  | .error _ => []

/-- The entries that the buffer holds, and those that it has not read yet. -/
def pending (b : Sst.SegmentReadBuf) : List SsTableEntry := b.buf ++ unread b

/-- A buffer of a segment, part of which was read. -/
structure Reading (maxSize : ℕ) (b : Sst.SegmentReadBuf) : Prop where
  stored : ∃ read, Stored b.segment (read ++ pending b) ∧
    b.currOffset = (dataBlock (read ++ b.buf)).length
  short : b.segment.dataBlockEnd + 1 < 2 ^ 64
  accounted : Accounted b
  size_le : b.size ≤ maxSize
  maxSize : b.maxSize = maxSize

section
variable {maxSize : ℕ} {b : Sst.SegmentReadBuf}

/-- INTERNAL: what is not read yet is what stands behind the offset. -/
theorem unread_eq {front rest : List SsTableEntry} (h : Stored b.segment (front ++ rest))
    (hoffset : b.currOffset = (dataBlock front).length) : unread b = rest := by
  obtain ⟨more, -, hfile⟩ := h.data
  rw [dataBlock_append] at hfile
  have hread : Sst.Segment.readTableEntries b.segment.file b.currOffset b.segment.dataBlockEnd =
      .ok rest := by
    apply readTableEntries_ok (dataBlock front) more
    · exact fun e he => h.fits e (List.mem_append_right _ he)
    · exact hfile
    · exact hoffset
    · rw [h.dataEnd, dataBlock_append, List.length_append]
  unfold unread
  rw [hread]

/-- INTERNAL: entries are read from where a buffer has stopped, whatever stands behind the data.
SOURCE: level/segment.rs:180-205 -/
theorem readAtMost_ok {seg : Sst.Segment} {front rest : List SsTableEntry} {more : Bytes}
    (hfits : ∀ e ∈ rest, EntryFits e) (hfile : seg.file = dataBlock (front ++ rest) ++ more)
    (hend : seg.dataBlockEnd = (dataBlock (front ++ rest)).length)
    (hshort : seg.dataBlockEnd + 1 < 2 ^ 64) (n : ℕ) :
    seg.readAtMost (dataBlock front).length n = .ok (readable n rest) := by
  rw [dataBlock_append, List.length_append, dataBlock_length rest] at hend
  unfold Sst.Segment.readAtMost
  rw [checkedSub_ok (by omega), exec_ok_bind, checkedAdd_ok (by omega), exec_ok_bind, hfile, hend,
    Nat.add_sub_cancel_left, dataBlock_append, List.append_assoc, List.drop_left]
  exact dequeFromBytes_ok hfits more n

/-- INTERNAL: entries are put into the buffer one by one.
SOURCE: level/segment.rs:622-626 -/
theorem pushEntries_ok (more : List SsTableEntry)
    (hsize : b.size + framedBytes more < 2 ^ 64)
    (hoffset : b.currOffset + framedBytes more < 2 ^ 64) :
    (more.foldlM (fun (b : Sst.SegmentReadBuf) entry => do
      let size ← checkedAdd 64 b.size (entry.len + 4)
      let currOffset ← checkedAdd 64 b.currOffset (entry.len + 4)
      return { b with size := size, currOffset := currOffset, buf := b.buf ++ [entry] }) b) =
      .ok { b with
        size := b.size + framedBytes more
        currOffset := b.currOffset + framedBytes more
        buf := b.buf ++ more } := by
  induction more generalizing b with
  | nil =>
    rw [List.append_nil]
    rfl
  | cons e more ih =>
    rw [framedBytes_cons] at hsize hoffset ⊢
    rw [List.foldlM_cons, checkedAdd_ok (by omega), exec_ok_bind, checkedAdd_ok (by omega),
      exec_ok_bind]
    refine (ih ?_ ?_).trans ?_
    · dsimp only
      omega
    · dsimp only
      omega
    · dsimp only
      rw [List.append_assoc, Nat.add_assoc b.size, Nat.add_assoc b.currOffset]
      rfl

/-- A buffer takes over what fits into it.
SOURCE: level/segment.rs:619-628 -/
theorem fill_ok (h : Reading maxSize b) (hmax : maxSize < 2 ^ 64) :
    ∃ b', b.fill = .ok b' ∧ Reading maxSize b' ∧ b'.segment = b.segment ∧
      pending b' = pending b ∧ b'.buf = b.buf ++ readable (maxSize - b.size) (unread b) := by
  obtain ⟨read, hstored, hoffset⟩ := h.stored
  obtain ⟨rest, hrest⟩ := readable_prefix (maxSize - b.size) (unread b)
  have hroom := framedBytes_readable (maxSize - b.size) (unread b)
  generalize hmore : readable (maxSize - b.size) (unread b) = more at hrest hroom ⊢
  have hall : read ++ pending b = read ++ b.buf ++ unread b := by
    rw [pending, List.append_assoc]
  have hread : b.segment.readAtMost b.currOffset (maxSize - b.size) = .ok more := by
    obtain ⟨rear, -, hfile⟩ := hstored.data
    rw [hoffset, ← hmore]
    rw [hall] at hstored hfile
    exact readAtMost_ok (fun e he => hstored.fits e (List.mem_append_right _ he)) hfile
      hstored.dataEnd h.short _
  have hbound : b.currOffset + framedBytes more ≤ b.segment.dataBlockEnd := by
    rw [hstored.dataEnd, hall, hrest, dataBlock_append, List.length_append, ← hoffset,
      dataBlock_length (more ++ rest), framedBytes_append]
    omega
  have hshort := h.short
  have hle := h.size_le
  have hfill : b.fill = .ok { b with
      size := b.size + framedBytes more
      currOffset := b.currOffset + framedBytes more
      buf := b.buf ++ more } := by
    have hfree : checkedSub b.maxSize b.size = .ok (maxSize - b.size) := by
      rw [h.maxSize, checkedSub_ok hle]
    unfold Sst.SegmentReadBuf.fill
    rw [hfree, exec_ok_bind, hread, exec_ok_bind]
    exact @pushEntries_ok b more (by omega) (by omega)
  have hall' : read ++ pending b = (read ++ (b.buf ++ more)) ++ rest := by
    rw [hall, hrest]
    simp only [List.append_assoc]
  have hoffset' : b.currOffset + framedBytes more = (dataBlock (read ++ (b.buf ++ more))).length := by
    rw [hoffset, ← List.append_assoc, dataBlock_append (read ++ b.buf), List.length_append,
      dataBlock_length more]
  have hunread : unread { b with
      size := b.size + framedBytes more
      currOffset := b.currOffset + framedBytes more
      buf := b.buf ++ more } = rest := by
    apply unread_eq
    · rw [hall'] at hstored
      exact hstored
    · exact hoffset'
  have hpending : pending { b with
      size := b.size + framedBytes more
      currOffset := b.currOffset + framedBytes more
      buf := b.buf ++ more } = pending b := by
    unfold pending
    rw [hunread, hrest, List.append_assoc]
  refine ⟨_, hfill, ⟨⟨read, ?_, hoffset'⟩, h.short, ?_, ?_, h.maxSize⟩, rfl, hpending, rfl⟩
  · rw [hpending]
    exact hstored
  · unfold Accounted
    rw [framedBytes_append, ← h.accounted]
  · dsimp only
    omega

/-- A buffer gives up its first entry.
SOURCE: level/segment.rs:641-649 -/
theorem popFront_ok (h : Reading maxSize b) {e : SsTableEntry} {rest : List SsTableEntry}
    (hbuf : b.buf = e :: rest) :
    ∃ b', b.popFront = .ok (some e, b') ∧ Reading maxSize b' ∧ b'.segment = b.segment ∧
      b'.buf = rest ∧ pending b = e :: pending b' := by
  obtain ⟨read, hstored, hoffset⟩ := h.stored
  have hsame : b = withEntries b (e :: rest) := by
    have haccounted := h.accounted
    rw [Accounted, hbuf] at haccounted
    unfold withEntries
    rw [← hbuf, hbuf, ← haccounted, ← hbuf]
  have hpop : b.popFront = .ok (some e, withEntries b rest) := by
    conv_lhs => rw [hsame]
    exact popFront_cons b e rest
  have hpending : pending b = e :: pending (withEntries b rest) := by
    unfold pending
    rw [hbuf]
    rfl
  have hframed : framedBytes rest ≤ b.size := by
    rw [h.accounted, hbuf, framedBytes_cons]
    exact Nat.le_add_left ..
  refine ⟨_, hpop, ⟨⟨read ++ [e], ?_, ?_⟩, h.short, rfl, hframed.trans h.size_le, h.maxSize⟩, rfl,
    rfl, hpending⟩
  · rw [List.append_assoc, List.singleton_append, ← hpending]
    exact hstored
  · show b.currOffset = (dataBlock (read ++ [e] ++ rest)).length
    rw [hoffset, hbuf, List.append_assoc]
    rfl

/-- INTERNAL: nothing is taken from an empty buffer. -/
theorem popFront_nil (hbuf : b.buf = []) : b.popFront = .ok (none, b) := by
  unfold Sst.SegmentReadBuf.popFront
  rw [hbuf]
  rfl

/-- INTERNAL: a buffer that nothing fits into although nothing is in it is done.
SOURCE: level.rs:540-545 -/
theorem pending_eq_nil (h : Reading maxSize b) (hfits : ∀ e ∈ pending b, e.len + 4 ≤ maxSize)
    (hempty : b.buf ++ readable (maxSize - b.size) (unread b) = []) : pending b = [] := by
  obtain ⟨hbuf, hmore⟩ := List.append_eq_nil_iff.mp hempty
  have hsize : b.size = 0 := by
    have haccounted := h.accounted
    rw [Accounted, hbuf] at haccounted
    exact haccounted
  cases hunread : unread b with
  | nil => rw [pending, hbuf, hunread, List.append_nil]
  | cons e es =>
    have hmem : e ∈ pending b := by
      rw [pending, hunread]
      exact List.mem_append_right _ (List.mem_cons_self ..)
    rw [hsize, hunread, readable_cons_of_le (by simpa using hfits e hmem)] at hmore
    exact absurd hmore (List.cons_ne_nil _ _)

/-- INTERNAL: an entry in a buffer fits it. -/
theorem len_le_of_mem_buf (h : Reading maxSize b) {e : SsTableEntry} (he : e ∈ b.buf) :
    e.len + 4 ≤ maxSize := by
  have hle : e.len + 4 ≤ framedBytes b.buf :=
    List.single_le_sum (fun _ _ => Nat.zero_le _) _ (List.mem_map_of_mem he)
  rw [← h.accounted] at hle
  exact hle.trans h.size_le

/-- INTERNAL: the entries to come ascend. -/
theorem pending_ascending (h : Reading maxSize b) : Ascending (pending b) := by
  obtain ⟨read, hstored, -⟩ := h.stored
  exact (List.pairwise_append.mp hstored.ascending).2.1

/-- INTERNAL: they are entries of the segment. -/
theorem mem_entriesOf_of_pending (h : Reading maxSize b) {e : SsTableEntry} (he : e ∈ pending b) :
    e ∈ entriesOf b.segment := by
  obtain ⟨read, hstored, -⟩ := h.stored
  rw [entriesOf_eq hstored]
  exact List.mem_append_right _ he

/-- INTERNAL: nothing of a segment is read at first.
SOURCE: level/segment.rs:606-614 -/
theorem reading_new {seg : Sst.Segment} (hwhole : Whole seg) (hshort : seg.dataBlockEnd + 1 < 2 ^ 64)
    (maxSize : ℕ) : Reading maxSize (.new seg maxSize) ∧
      pending (.new seg maxSize) = entriesOf seg := by
  have hunread : unread (.new seg maxSize) = entriesOf seg :=
    @unread_eq (.new seg maxSize) [] (entriesOf seg) hwhole rfl
  have hpending : pending (.new seg maxSize) = entriesOf seg := by
    rw [pending, hunread]
    rfl
  refine ⟨⟨⟨[], ?_, rfl⟩, hshort, rfl, Nat.zero_le _, rfl⟩, hpending⟩
  rw [hpending]
  exact hwhole

end

/-! ## All buffers -/

/-- A buffer with entries, that has taken over all that fit into it. -/
structure Full (maxSize : ℕ) (b : Sst.SegmentReadBuf) : Prop where
  reading : Reading maxSize b
  nonempty : b.buf ≠ []
  full : b.buf = readable maxSize (pending b)

section
variable {maxSize : ℕ} {bufs : List Sst.SegmentReadBuf}

/-- INTERNAL: a buffer that was filled has taken over all that fit into it. -/
theorem fill_full {b : Sst.SegmentReadBuf} (h : Reading maxSize b) (hmax : maxSize < 2 ^ 64) :
    ∃ b', b.fill = .ok b' ∧ Reading maxSize b' ∧ pending b' = pending b ∧
      b'.buf = readable maxSize (pending b) := by
  obtain ⟨b', hrun, hreading, -, hpending, hbuf⟩ := fill_ok h hmax
  have hsize := h.accounted ▸ h.size_le
  refine ⟨b', hrun, hreading, hpending, ?_⟩
  rw [hbuf, pending, readable_append hsize, ← h.accounted]

/-- INTERNAL: a buffer that stays empty has nothing more to give.
SOURCE: level.rs:540-545 -/
theorem readable_eq_nil {es : List SsTableEntry} (hfits : ∀ e ∈ es, e.len + 4 ≤ maxSize) :
    readable maxSize es = [] ↔ es = [] := by
  cases es with
  | nil => exact iff_of_true rfl rfl
  | cons e es =>
    rw [readable_cons_of_le (hfits e (List.mem_cons_self ..))]
    exact iff_of_false (List.cons_ne_nil _ _) (List.cons_ne_nil _ _)

/-- INTERNAL: the buffers that stay empty have nothing more to give.
SOURCE: level.rs:504-510, 536-545 -/
theorem fillEach_ok (h : ∀ b ∈ bufs, Reading maxSize b) (hmax : maxSize < 2 ^ 64) :
    ∃ filled, bufs.mapM Sst.SegmentReadBuf.fill = .ok filled ∧
      (∀ b ∈ filled, Reading maxSize b ∧ b.buf = readable maxSize (pending b)) ∧
      filled.map pending = bufs.map pending := by
  induction bufs with
  | nil => exact ⟨[], rfl, fun b hb => absurd hb List.not_mem_nil, rfl⟩
  | cons b bufs ih =>
    obtain ⟨hb, hbufs⟩ := List.forall_mem_cons.mp h
    obtain ⟨b', hrun, hreading, hpending, hbuf⟩ := fill_full hb hmax
    obtain ⟨filled, hrest, hall, hsame⟩ := ih hbufs
    refine ⟨b' :: filled, ?_, List.forall_mem_cons.mpr ⟨⟨hreading, hpending ▸ hbuf⟩, hall⟩, ?_⟩
    · rw [List.mapM_cons, hrun, exec_ok_bind, hrest]
      rfl
    · rw [List.map_cons, List.map_cons, hpending, hsame]

/-- The buffers are filled, and those that stay empty are dropped.
SOURCE: level.rs:504-510, 536-545 -/
theorem fillBufs_ok (h : ∀ b ∈ bufs, Reading maxSize b) (hmax : maxSize < 2 ^ 64)
    (hfits : ∀ es ∈ bufs.map pending, ∀ e ∈ es, e.len + 4 ≤ maxSize) :
    ∃ bufs', Sst.fillBufs bufs = .ok bufs' ∧ (∀ b ∈ bufs', Full maxSize b) ∧
      bufs'.map pending = (bufs.map pending).filter (· ≠ []) := by
  obtain ⟨filled, hrun, hall, hsame⟩ := fillEach_ok h hmax
  have hempty : ∀ b ∈ filled, b.isEmpty = true ↔ pending b = [] := by
    intro b hb
    have hmem : pending b ∈ bufs.map pending := by
      rw [← hsame]
      exact List.mem_map_of_mem hb
    rw [Sst.SegmentReadBuf.isEmpty, List.isEmpty_iff, (hall b hb).2]
    exact readable_eq_nil (hfits _ hmem)
  refine ⟨filled.filter fun b => !b.isEmpty, ?_, fun b hb => ?_, ?_⟩
  · unfold Sst.fillBufs
    rw [hrun, exec_ok_bind]
    rfl
  · obtain ⟨hmem, hne⟩ := List.mem_filter.mp hb
    refine ⟨(hall b hmem).1, fun hnil => ?_, (hall b hmem).2⟩
    rw [Sst.SegmentReadBuf.isEmpty, hnil] at hne
    cases hne
  · rw [← hsame, List.filter_map]
    apply congrArg (List.map pending)
    apply List.filter_congr
    intro b hb
    rw [Function.comp_apply, Bool.eq_iff_iff, decide_eq_true_eq, Ne, ← hempty b hb]
    cases b.isEmpty <;> simp

end

end Rkvs.Analysis
