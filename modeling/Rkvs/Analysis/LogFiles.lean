import Rkvs.Analysis.WalParser
import Rkvs.Analysis.SegmentDirectory
import Rkvs.Interface.LogHistory
import Rkvs.Library.LastWrite

/-!
# Reading a log file by file

`ReadsFiles` says what `recover` gets out of a list of files: every file ends without an error
and hands what was found at its end to the next one. What is read is what the loop of
`recover` puts into the table.
-/

set_option autoImplicit false

namespace Rkvs.Analysis

open Rkvs.Library Rkvs.Model Rkvs.Interface

/-- Reading the files from `cur` on gives the entries `es` and gets as far as `cur'`. -/
inductive ReadsFiles (crc : Bytes → UInt32) (s : SegmentSize) :
    Cursor → List (ℕ × Bytes) → List WalEntry → Cursor → Prop
  | nil (cur : Cursor) : ReadsFiles crc s cur [] [] cur
  | cons {cur cur' : Cursor} {base : ℕ} {content tail : Bytes} {fs : List (ℕ × Bytes)}
      {es es' : List WalEntry} (head : FileReads crc cur content es tail)
      (rest : ReadsFiles crc s
        (Cursor.after (s.fileName base) (content.length - tail.length) tail) fs es' cur') :
      ReadsFiles crc s cur ((base, content) :: fs) (es ++ es') cur'

/-- The table that recovery fills from the entries. -/
def tableOf (es : List WalEntry) : Table := (es.foldl MemTable.applyEntry (0, ∅)).2

section
variable {crc : Bytes → UInt32} {s : SegmentSize}

/-- Reading goes on with the files that follow. -/
theorem ReadsFiles.append {cur mid cur' : Cursor} {fs gs : List (ℕ × Bytes)}
    {es es' : List WalEntry} (h : ReadsFiles crc s cur fs es mid)
    (h' : ReadsFiles crc s mid gs es' cur') :
    ReadsFiles crc s cur (fs ++ gs) (es ++ es') cur' := by
  induction h with
  | nil => exact h'
  | cons head _ ih =>
    rw [List.append_assoc]
    exact .cons head (ih h')

/-- INTERNAL: one file. -/
theorem FileReads.single {cur : Cursor} {content tail : Bytes} {es : List WalEntry}
    (h : FileReads crc cur content es tail) (base : ℕ) :
    ReadsFiles crc s cur [(base, content)] es
      (Cursor.after (s.fileName base) (content.length - tail.length) tail) := by
  have hcons : ReadsFiles crc s cur [(base, content)] (es ++ [])
      (Cursor.after (s.fileName base) (content.length - tail.length) tail) := .cons h (.nil _)
  rwa [List.append_nil] at hcons

/-- INTERNAL: what was read may be put in other words. -/
theorem ReadsFiles.congr {cur cur₁ cur₂ : Cursor} {fs gs : List (ℕ × Bytes)}
    {es es' : List WalEntry} (h : ReadsFiles crc s cur fs es cur₁) (hfs : fs = gs)
    (hes : es = es') (hcur : cur₁ = cur₂) : ReadsFiles crc s cur gs es' cur₂ := by
  subst hfs hes hcur
  exact h

/-- What is read goes into the table.
SOURCE: memtable.rs:257-341 -/
theorem recoverLoop_readsFiles {cur cur' : Cursor} {fs : List (ℕ × Bytes)} {es : List WalEntry}
    (h : ReadsFiles crc s cur fs es cur') {dir : Dir}
    (hcontent : ∀ f ∈ fs, dir.content (s.fileName f.1) = f.2) (more : List Segment)
    (currSize : ℕ) (table : Table) :
    MemTable.recoverLoop crc dir (fs.map (openedSegment s) ++ more) cur.offset cur.carry
        currSize table =
      MemTable.recoverLoop crc dir more cur'.offset cur'.carry
        (es.foldl MemTable.applyEntry (currSize, table)).1
        (es.foldl MemTable.applyEntry (currSize, table)).2 := by
  induction h generalizing currSize table with
  | nil cur => rfl
  | @cons cur cur' base content tail fs es es' head _ ih =>
    have hhead : dir.content (openedSegment s (base, content)).filePath = content :=
      hcontent (base, content) (List.mem_cons_self ..)
    rw [List.map_cons, List.cons_append, recoverLoop_stop hhead head, openedSegment_filePath,
      ih fun f hf => hcontent f (List.mem_cons_of_mem _ hf), List.foldl_append]

/-- INTERNAL: recovery that gets to the end of the files without a record left over returns. -/
theorem recover_readsFiles {dir : Dir} {fs : List (ℕ × Bytes)} {es : List WalEntry}
    {offset offset' : ℕ} (h : ReadsFiles crc s (.start offset) fs es (.start offset'))
    (hcontent : ∀ f ∈ fs, dir.content (s.fileName f.1) = f.2) :
    MemTable.recover crc dir (fs.map (openedSegment s)) offset ∅ =
      .ok (tableOf es, .ok (es.foldl MemTable.applyEntry (0, ∅)).1) := by
  have hloop := recoverLoop_readsFiles h hcontent [] 0 ∅
  rw [List.append_nil] at hloop
  exact hloop

/-- INTERNAL: recovery that gets to the end of the files with a record left over reports where
it begins. -/
theorem recover_leftOver {dir : Dir} {fs : List (ℕ × Bytes)} {es : List WalEntry}
    {offset : ℕ} {p : PartialWalEntry} (h : ReadsFiles crc s (.start offset) fs es (.carried p))
    (hcontent : ∀ f ∈ fs, dir.content (s.fileName f.1) = f.2) :
    MemTable.recover crc dir (fs.map (openedSegment s)) offset ∅ =
      .ok (tableOf es, .error ((es.foldl MemTable.applyEntry (0, ∅)).1,
        .corrupted p.segmentFilePath p.offset)) := by
  have hloop := recoverLoop_readsFiles h hcontent [] 0 ∅
  rw [List.append_nil] at hloop
  exact hloop

end

/-! ## The table -/

/-- INTERNAL: the entries are writes to the table. -/
theorem foldl_applyEntry (es : List WalEntry) (currSize : ℕ) (table : Table) :
    (es.foldl MemTable.applyEntry (currSize, table)).2 =
      writeAll WalEntry.key (fun e => (⟨e.value, e.sequenceNumber⟩ : MemTableValue)) table es := by
  induction es generalizing currSize table with
  | nil => rfl
  | cons e es ih =>
    rw [List.foldl_cons]
    exact ih _ _

/-- The table holds the last write to every key and nothing else. -/
theorem lookup_tableOf (es : List WalEntry) (key : String) :
    (tableOf es).lookup key = lastWrite es key := by
  unfold tableOf lastWrite
  rw [foldl_applyEntry, lookup_writeAll]
  simp [lastTo]

/-- INTERNAL: later writes go before earlier ones. -/
theorem lastWrite_append (es es' : List WalEntry) (key : String) :
    lastWrite (es ++ es') key = (lastWrite es' key).or (lastWrite es key) := by
  unfold lastWrite
  rw [List.reverse_append, List.find?_append]
  cases es'.reverse.find? fun e => e.key = key <;> rfl

end Rkvs.Analysis
