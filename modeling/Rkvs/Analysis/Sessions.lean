import Rkvs.Analysis.MergeResult
import Rkvs.Analysis.WorkerRuns
import Rkvs.Interface.Sessions

/-!
# Sessions

A log that is read to its last byte is taken over by the next start as it is, so that its records
are those of all sessions together. The directory SSTable stays empty, and whatever the flushes
have left next to it, the start finds the last acknowledged write to every key in the log.
-/

set_option autoImplicit false

namespace Rkvs.Analysis

open Rkvs.Library Rkvs.Model Rkvs.Interface

section
variable {crc : Bytes → UInt32} {s : SegmentSize}

/-! ## Logs without anything left over -/

/-- The log is read as `es` to the end of its active file, which is listed unless nothing is. -/
inductive WholeLog (crc : Bytes → UInt32) (s : SegmentSize) (w : Wal) : List WalEntry → Prop
  | unwritten {front rear : List (ℕ × Bytes)} {base : ℕ}
      (active : ActiveAt s w front base [] rear)
      (unlisted : ∀ f ∈ front ++ (base, []) :: rear, s.endSeen f.1 f.2.length = 0) :
      WholeLog crc s w []
  | written {front rear : List (ℕ × Bytes)} {base : ℕ} {content : Bytes}
      {es₀ es₁ : List WalEntry} {cur : Cursor} (active : ActiveAt s w front base content rear)
      (stale : ∀ f ∈ rear, s.endSeen f.1 f.2.length = 0)
      (files : ReadsFiles crc s (.start 0) (keptAfter s 0 front) es₀ cur)
      (offset : cur.offset = 0) (last : FileReads crc cur content es₁ [])
      (listed : 0 < s.endSeen base content.length) : WholeLog crc s w (es₀ ++ es₁)

/-- INTERNAL: nothing is left over. -/
theorem WholeLog.settled {w : Wal} {es : List WalEntry} (h : WholeLog crc s w es) :
    ∃ content, Settled crc s w content [] es := by
  cases h with
  | @unwritten front rear base active unlisted =>
    have hfront : keptAfter s 0 front = [] :=
      keptAfter_eq_nil.mpr fun f hf => unlisted f (List.mem_append_left _ hf)
    refine ⟨[], @Settled.intro crc s w [] [] front rear base [] [] (.start 0) active ?_ ?_ rfl
      (.done []) (by decide) fun _ => rfl⟩
    · exact fun f hf => unlisted f (List.mem_append_right _ (List.mem_cons_of_mem _ hf))
    · rw [hfront]
      exact .nil _
  | written active stale files offset last listed =>
    exact ⟨_, .intro active stale files offset last.reads (by decide)
      fun hzero => absurd hzero (Nat.pos_iff_ne_zero.mp listed)⟩

/-- INTERNAL: the active file is listed once it has data in it. -/
theorem Settled.whole {w : Wal} {content : Bytes} {es : List WalEntry}
    (h : Settled crc s w content [] es) (hne : content ≠ []) : WholeLog crc s w es := by
  obtain @⟨front, rear, base, es₀, es₁, cur, active, stale, files, offset, reads, short, -⟩ := h
  refine .written active stale files offset ⟨reads, scanRecord_short short, ?_, Or.inl short⟩
    (s.endSeen_pos base (List.length_pos_iff.mpr hne))
  rw [offset]
  exact Nat.zero_le _

/-- INTERNAL: the file that is written to. -/
theorem Settled.active {w : Wal} {content tail : Bytes} {es : List WalEntry}
    (h : Settled crc s w content tail es) :
    ∃ front base rear, ActiveAt s w front base content rear := by
  cases h with
  | intro active _ _ _ _ _ _ => exact ⟨_, _, _, active⟩

/-- INTERNAL: the log has an active file. -/
theorem WholeLog.active {w : Wal} {es : List WalEntry} (h : WholeLog crc s w es) :
    ∃ front base content rear, ActiveAt s w front base content rear := by
  cases h with
  | unwritten active _ => exact ⟨_, _, _, _, active⟩
  | written active _ _ _ _ _ => exact ⟨_, _, _, _, active⟩

/-- INTERNAL: a write leaves data in the active file.
SOURCE: wal.rs:40-58 -/
theorem content_ne_of_append {w w' : Wal} {front rear : List (ℕ × Bytes)} {base : ℕ}
    {content : Bytes} (h : ActiveAt s w front base content rear) {e : WalEntry}
    (he : WellFormed e) (hnext : w.nextSequenceNumber = .ok e.sequenceNumber)
    (hrun : (Wal.append crc e).run w = .ok () w') {front' rear' : List (ℕ × Bytes)} {base' : ℕ}
    {content' : Bytes} (h' : ActiveAt s w' front' base' content' rear') : content' ≠ [] := by
  have hseq : e.sequenceNumber = base + content.length := by
    rw [h.next] at hnext
    exact (checkedAdd_eq_ok hnext).1.symm
  have hspan : (e.encode crc).length = recordSpan e := encode_length crc e
  have hlong := header_lt_span he
  have hsize := h.size_le
  have hsame : ∀ {front₁ rear₁ : List (ℕ × Bytes)} {base₁ : ℕ} {content₁ : Bytes},
      ActiveAt s w' front₁ base₁ content₁ rear₁ → content'.length = content₁.length := by
    intro front₁ rear₁ base₁ content₁ h₁
    rw [← openedSegment_fileSize s (base', content'), ← h'.active, h₁.active,
      openedSegment_fileSize]
  intro hempty
  rw [hempty] at hsame
  obtain ⟨-, hactive⟩ | ⟨hfull, -, hactive⟩ := h.append_inv crc he hseq hrun
  · have hlen := hsame hactive
    rw [List.length_append, List.length_nil] at hlen
    omega
  · have hlen := hsame hactive
    have hcut : (crossingAt e (s.val - content.length)).cut ≤ HEADER_SIZE := by
      unfold Crossing.cut
      split <;> simp
    unfold Crossing.after at hlen
    rw [crossingAt_entry, List.length_drop, List.length_nil] at hlen
    omega

/-! ## What holds of the log in every session -/

/-- The log and its records. -/
structure LogSound (crc : Bytes → UInt32) (s : SegmentSize) (w : Wal) (es : List WalEntry) :
    Prop where
  whole : WholeLog crc s w es
  wellFormed : ∀ e ∈ es, WellFormed e
  increasing : es.Pairwise fun e f => e.sequenceNumber < f.sequenceNumber
  newer : ∀ n, w.nextSequenceNumber = .ok n → ∀ e ∈ es, e.sequenceNumber < n

/-- A write adds its record.
SOURCE: wal.rs:40-58 -/
theorem LogSound.append {w w' : Wal} {es : List WalEntry} {e : WalEntry}
    (h : LogSound crc s w es) (he : WellFormed e)
    (hnext : w.nextSequenceNumber = .ok e.sequenceNumber)
    (hrun : (Wal.append crc e).run w = .ok () w') : LogSound crc s w' (es ++ [e]) := by
  obtain ⟨front, base, content, rear, hactive⟩ := h.whole.active
  obtain ⟨before, hsettled⟩ := h.whole.settled
  obtain ⟨content', hafter⟩ := hsettled.append (Or.inl rfl) he hnext hrun
  obtain ⟨-, hgrows⟩ := next_after_append hactive he hnext hrun
  refine ⟨hafter.whole ?_, ?_, ?_, ?_⟩
  · obtain ⟨front', base', rear', hactive'⟩ := hafter.active
    exact content_ne_of_append hactive he hnext hrun hactive'
  · intro e' hmem
    obtain hmem | hmem := List.mem_append.mp hmem
    · exact h.wellFormed e' hmem
    · rw [List.mem_singleton.mp hmem]
      exact he
  · refine List.pairwise_append.mpr ⟨h.increasing, List.pairwise_singleton _ _, ?_⟩
    intro e' hmem f hf
    rw [List.mem_singleton.mp hf]
    exact h.newer _ hnext e' hmem
  · intro n hn e' hmem
    have hlt := hgrows n hn
    obtain hmem | hmem := List.mem_append.mp hmem
    · exact (h.newer _ hnext e' hmem).trans hlt
    · rw [List.mem_singleton.mp hmem]
      exact hlt

/-- What a start makes of a log with these records. -/
structure Started (crc : Bytes → UInt32) (s : SegmentSize) (maxSize : ℕ) (es : List WalEntry)
    (w : WriteWorker) : Prop where
  log : LogSound crc s w.wal es
  table : w.table = tableOf es
  limit : w.maxSize = maxSize
  counted : w.table = ∅ → w.currentSize = 0

/-- The records of the log are the acknowledged writes. -/
def Recorded (es : List WalEntry) (exchanges : List Exchange) : Prop :=
  es.map (fun e => (e.key, e.value)) = exchanges.filterMap Exchange.write

/-- INTERNAL: the records of two lists of exchanges. -/
theorem Recorded.append {es es' : List WalEntry} {exchanges exchanges' : List Exchange}
    (h : Recorded es exchanges) (h' : Recorded es' exchanges') :
    Recorded (es ++ es') (exchanges ++ exchanges') := by
  unfold Recorded at h h' ⊢
  rw [List.map_append, List.filterMap_append, h, h']

variable {merge : Sst.Merge} {fuel : ℕ}

/-- A get finds the last record of its key as soon as the engine has started. -/
theorem Started.visible {maxSize : ℕ} {es : List WalEntry} {w : WriteWorker}
    (h : Started crc s maxSize es w) {flusher : Flusher} {n : ℕ} (hlevels : flusher.sstable = .new n)
    (key : String) :
    Interface.visible (w, flusher) key = .ok ((lastWrite es key).bind MemTableValue.value) := by
  rw [← lookup_tableOf, ← h.table]
  unfold Interface.visible Worker.get Worker.getFromMemtable MemTable.get Worker.getFromSstable
  rw [hlevels]
  cases w.table.lookup key <;> rfl

/-- The records as the memtable and the segments hold them. -/
def insertsOf (es : List WalEntry) : List SsTableEntry :=
  es.map fun e => SsTableEntry.fromValue e.key ⟨e.value, e.sequenceNumber⟩

/-- INTERNAL: the last insert is the last record. -/
theorem lastTo_insertsOf (es : List WalEntry) (key : String) :
    lastTo SsTableEntry.key (insertsOf es) key =
      (lastWrite es key).map (SsTableEntry.fromValue key) := by
  unfold lastTo insertsOf lastWrite
  rw [← List.map_reverse, List.find?_map, Option.map_map]
  cases hfound : es.reverse.find? fun e => decide (e.key = key) with
  | none =>
    rw [Option.map_none, Option.map_eq_none_iff]
    exact hfound
  | some e =>
    have hkey := List.find?_some hfound
    rw [decide_eq_true_iff] at hkey
    have hsame : es.reverse.find? ((fun w : SsTableEntry => decide (w.key = key)) ∘
        fun e : WalEntry => SsTableEntry.fromValue e.key ⟨e.value, e.sequenceNumber⟩) = some e :=
      hfound
    rw [hsame, Option.map_some, Option.map_some, hkey]
    rfl

/-- Without segments of level zero next to the directories, a session starts with the table, the
levels and the log in agreement. -/
theorem Started.sound {maxSize : ℕ} {es : List WalEntry} {w : WriteWorker}
    (h : Started crc s maxSize es w) {files : Dir}
    (hclean : ∀ n path, 0 < n → Sst.Segment.determineSegmentFilename 0 n = .ok path →
      path ∉ files.names) (n sparsity : ℕ) :
    WorkerSound s (w, ⟨.new n, files, sparsity⟩) (insertsOf es) where
  engine := by
    refine ⟨⟨fun s hs => absurd hs List.not_mem_nil, fun l hl => absurd hl List.not_mem_nil⟩, ?_,
      fun e he => absurd he List.not_mem_nil, ?_, ?_, fun _ _ hpending => ?_,
      fun get hget => absurd hget List.not_mem_nil⟩
    · exact List.pairwise_map.mpr h.log.increasing
    · intro key value hlookup
      have hlast : w.table.lookup key = some value := hlookup
      rw [h.table, lookup_tableOf] at hlast
      exact (lastTo_insertsOf es key).trans (congrArg _ hlast)
    · rintro key (hflushing | hlookup)
      · cases hflushing
      · have hlast : w.table.lookup key = none := hlookup
        rw [h.table, lookup_tableOf] at hlast
        have hnone := (lastTo_insertsOf es key).trans (congrArg _ hlast)
        exact (congrArg Except.ok hnone).symm
    · cases hpending
  log := h.log.whole.active
  newer := by
    intro n hn e he
    obtain ⟨e', he', rfl⟩ := List.mem_map.mp he
    exact h.log.newer n hn e' he'
  fits := by
    intro key value hlookup
    have hlast : w.table.lookup key = some value := hlookup
    rw [h.table, lookup_tableOf] at hlast
    obtain ⟨e, hfound, rfl⟩ := Option.map_eq_some_iff.mp hlast
    have hwell := h.log.wellFormed e (List.mem_reverse.mp (List.mem_of_find?_eq_some hfound))
    have hkey := List.find?_some hfound
    rw [decide_eq_true_iff] at hkey
    refine ⟨lt_of_le_of_lt ?_ hwell.length_lt, hwell.sequenceNumber_lt⟩
    rw [body_length, ← hkey]
    unfold SsTableEntry.len SsTableEntry.fromValue
    cases e.value with
    | none =>
      dsimp only
      omega
    | some v =>
      dsimp only
      omega
  counted := h.counted
  fresh := fun n hn path hpath => hclean n path hn hpath

end

/-! ## Two sessions -/

instance : DecidableEq Exchange :=
  inferInstanceAs (DecidableEq (Command × Except ErrorKind (Option String)))

instance : (command : Command) → Decidable (Command.Short command)
  | .delete key => inferInstanceAs (Decidable (recordLength key none < 2 ^ 32))
  | .get _ => inferInstanceAs (Decidable True)
  | .put key value => inferInstanceAs (Decidable (recordLength key (some value) < 2 ^ 32))

end Rkvs.Analysis
