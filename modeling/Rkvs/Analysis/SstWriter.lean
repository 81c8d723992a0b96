import Rkvs.Analysis.SegmentNames
import Rkvs.Analysis.SstOpen
import Rkvs.Library.Outcome
import Mathlib.Algebra.Order.BigOperators.Group.List

/-!
# Writing segment files

Both writers leave the framed entries, an index of some of them, and the footer in a new file.
They fail only if a file operation does, and panic only if a counter or a name runs out.
-/

set_option autoImplicit false

namespace Rkvs.Analysis

open Rkvs.Library Rkvs.Model Rkvs.Interface

/-! ## Names -/

/-- INTERNAL: two numbers of at most eight hexadecimal digits are the name of a segment.
SOURCE: level/segment.rs:305-320 -/
theorem determineSegmentFilename_eq (levelNumber segmentNumber : ℕ) :
    Sst.Segment.determineSegmentFilename levelNumber segmentNumber =
      if levelNumber < 2 ^ 32 ∧ segmentNumber < 2 ^ 32 then
        .ok (String.ofList (hexFixed 8 levelNumber ++ hexFixed 8 segmentNumber ++
          ['.', 's', 's', 't']))
      else .error .panic := by
  have hdigits : ∀ n, (Nat.toDigits 16 n).length ≤ 8 ↔ n < 2 ^ 32 := fun n =>
    Nat.length_toDigits_le_iff (by norm_num) (by norm_num)
  have hfixed : ∀ n, n < 2 ^ 32 → List.replicate (8 - (Nat.toDigits 16 n).length) '0' ++
      Nat.toDigits 16 n = hexFixed 8 n := fun n hn =>
    hexPad_eq_hexFixed (w := 8) (by norm_num) (by omega)
  unfold Sst.Segment.determineSegmentFilename checkedSub
  dsimp only
  by_cases hlevel : levelNumber < 2 ^ 32
  · rw [if_pos ((hdigits _).mpr hlevel)]
    simp only [exec_ok_bind]
    by_cases hsegment : segmentNumber < 2 ^ 32
    · rw [if_pos ((hdigits _).mpr hsegment), if_pos ⟨hlevel, hsegment⟩]
      simp only [exec_ok_bind, exec_pure]
      rw [hfixed _ hlevel, List.append_assoc (hexFixed 8 levelNumber), hfixed _ hsegment]
    · have hboth : ¬(levelNumber < 2 ^ 32 ∧ segmentNumber < 2 ^ 32) := fun h => hsegment h.2
      rw [if_neg (mt (hdigits _).mp hsegment), if_neg hboth]
      rfl
  · have hboth : ¬(levelNumber < 2 ^ 32 ∧ segmentNumber < 2 ^ 32) := fun h => hlevel h.1
    rw [if_neg (mt (hdigits _).mp hlevel), if_neg hboth]
    rfl

/-- The name of a segment gives its level and its number. -/
theorem numbers_of_filename {levelNumber segmentNumber : ℕ} {path : String}
    (h : Sst.Segment.determineSegmentFilename levelNumber segmentNumber = .ok path) :
    Sst.Segment.levelAndSegmentNumberFromFilename path = .ok (levelNumber, segmentNumber) := by
  rw [determineSegmentFilename_eq] at h
  split at h
  · rename_i hlt
    cases h
    have hlevel : numberInName (hexFixed 8 levelNumber ++ hexFixed 8 segmentNumber ++
        ['.', 's', 's', 't']) 0 8 = .ok levelNumber := by
      unfold numberInName
      rw [slice_middle [] (hexFixed 8 levelNumber) (hexFixed 8 segmentNumber ++ ['.', 's', 's', 't'])
        (by simp) (by simp) (by simp), exec_ok_bind,
        SegmentSize.fromStrRadix16_hexFixed (by norm_num) (by omega) (by omega)]
      rfl
    have hsegment : numberInName (hexFixed 8 levelNumber ++ hexFixed 8 segmentNumber ++
        ['.', 's', 's', 't']) 8 16 = .ok segmentNumber := by
      unfold numberInName
      rw [slice_middle (hexFixed 8 levelNumber) (hexFixed 8 segmentNumber) ['.', 's', 's', 't']
        rfl (by simp) (by simp), exec_ok_bind,
        SegmentSize.fromStrRadix16_hexFixed (by norm_num) (by omega) (by omega)]
      rfl
    unfold Sst.Segment.levelAndSegmentNumberFromFilename
    rw [String.toList_ofList]
    simp only [hlevel, hsegment, exec_ok_bind, exec_pure]
  · cases h

/-- INTERNAL: a name belongs to one level and one number. -/
theorem numbers_inj {levelNumber number levelNumber' number' : ℕ} {path : String}
    (h : Sst.Segment.determineSegmentFilename levelNumber number = .ok path)
    (h' : Sst.Segment.determineSegmentFilename levelNumber' number' = .ok path) :
    levelNumber = levelNumber' ∧ number = number' := by
  have hsame := (numbers_of_filename h).symm.trans (numbers_of_filename h')
  exact Prod.mk.inj (Except.ok.inj hsame)

/-! ## Files -/

/-- INTERNAL: `d'` is `d` with other contents of one file. -/
structure WroteTo (path : String) (d d' : Dir) : Prop where
  mem : path ∈ d'.names
  names : ∀ name, name ≠ path → (name ∈ d'.names ↔ name ∈ d.names)
  content : ∀ name, name ≠ path → d'.content name = d.content name
  faults : d.faults = [] → d'.faults = []

theorem WroteTo.trans {path : String} {d d' d'' : Dir} (h : WroteTo path d d')
    (h' : WroteTo path d' d'') : WroteTo path d d'' where
  mem := h'.mem
  names name hne := (h'.names name hne).trans (h.names name hne)
  content name hne := (h'.content name hne).trans (h.content name hne)
  faults hd := h'.faults (h.faults hd)

/-- INTERNAL: writing a file. -/
theorem wroteTo_put {path : String} {d d' : Dir} {bytes : Bytes}
    (hfaults : d.faults = [] → d'.faults = []) (hfiles : d'.files = d.files) :
    WroteTo path d (d'.put path bytes) where
  mem := Dir.mem_names_put.mpr (Or.inl rfl)
  names name hne := by
    rw [Dir.mem_names_put]
    unfold Dir.names
    rw [hfiles]
    simp [hne]
  content name hne := by
    rw [Dir.content_put_of_ne hne]
    unfold Dir.content
    rw [hfiles]
  faults := hfaults

/-- How a writing step can fail: with a panic, which takes `bad`, or with an I/O error, which takes
a fault or a file that is too `long`. -/
def FailsIf (d : Dir) (bad long : Prop) : Fault → Dir → Prop := fun e _ =>
  (e = .panic → bad) ∧ (e ≠ .panic → d.faults ≠ [] ∨ long)

theorem FailsIf.mono {d d' d₀ : Dir} {bad bad' long long' : Prop} {e : Fault}
    (h : FailsIf d' bad long e d₀) (hfaults : d.faults = [] → d'.faults = []) (hbad : bad → bad')
    (hlong : long → long') : FailsIf d bad' long' e d₀ :=
  ⟨fun he => hbad (h.1 he), fun he => (h.2 he).imp (mt hfaults) hlong⟩

theorem FailsIf.io {d d' : Dir} {bad long : Prop} (kind : ErrorKind) (h : d.faults ≠ [] ∨ long) :
    FailsIf d bad long (.io kind) d' := ⟨(nomatch ·), fun _ => h⟩

theorem FailsIf.panic {d d' : Dir} {bad long : Prop} (h : bad) : FailsIf d bad long .panic d' :=
  ⟨fun _ => h, fun he => absurd rfl he⟩

/-- A file is opened for writing; a new one is empty.
SOURCE: level/segment.rs:341-344, 386-389 -/
theorem openWrite_runs {path : String} {d : Dir} (hfresh : path ∉ d.names) :
    Runs (Dir.openWrite path) d (fun _ d' => WroteTo path d d' ∧ d'.content path = [])
      (FailsIf d False False) := by
  obtain ⟨ev, d', hnext, hclear⟩ := Dir.nextEvent_run d
  have hfiles := Dir.nextEvent_files hnext
  unfold Dir.openWrite
  cases ev with
  | ok =>
    have hnot : path ∉ d'.names := by
      unfold Dir.names
      rwa [hfiles]
    refine Runs.of_ok (show _ = EStateM.Result.ok () (d'.put path []) from ?_)
      ⟨wroteTo_put (fun h => (hclear h).2) hfiles, Dir.content_put d' path []⟩
    rw [run_bind_ok hnext, EStateM.run_modify, if_neg hnot]
  | fail written =>
    refine Runs.of_error (run_bind_ok hnext) (FailsIf.io .other (Or.inl fun h => ?_))
    cases (hclear h).1

/-- Bytes are written behind the contents of a file. -/
theorem writeAt_runs {path : String} {d : Dir} {pos : ℕ} {bytes : Bytes}
    (hcontent : d.content path = bytes) (hpos : pos = bytes.length) (buf : Bytes) :
    Runs (Dir.writeAt path pos buf) d
      (fun _ d' => WroteTo path d d' ∧ d'.content path = bytes ++ buf ∧
        (bytes ++ buf).length < 2 ^ 63)
      (FailsIf d False (2 ^ 63 ≤ (bytes ++ buf).length)) := by
  have hlen : (bytes ++ buf).length = pos + buf.length := by rw [hpos, List.length_append]
  obtain ⟨ev, d', hnext, hclear⟩ := Dir.nextEvent_run d
  have hfiles := Dir.nextEvent_files hnext
  unfold Dir.writeAt
  cases ev with
  | ok =>
    by_cases hlong : 2 ^ 63 ≤ pos + buf.length
    · refine Runs.of_error (show _ = EStateM.Result.error (Fault.io .fileTooLarge) d' from ?_)
        (FailsIf.io _ (Or.inr ?_))
      · rw [run_bind_ok hnext]
        simp only [if_pos hlong]
        rfl
      · rwa [hlen]
    · have hsame : d'.content path = bytes := by
        unfold Dir.content at hcontent ⊢
        rwa [hfiles]
      have hover : Dir.overwrite bytes pos buf = bytes ++ buf := by
        unfold Dir.overwrite
        rw [hpos, List.take_length, List.drop_eq_nil_of_le (Nat.le_add_right ..), List.append_nil]
      refine Runs.of_ok (show _ = EStateM.Result.ok () (d'.put path (bytes ++ buf)) from ?_)
        ⟨wroteTo_put (fun h => (hclear h).2) hfiles, Dir.content_put d' path _,
          hlen ▸ Nat.lt_of_not_le hlong⟩
      rw [run_bind_ok hnext]
      simp only [if_neg hlong]
      show EStateM.Result.ok () (d'.put path (Dir.overwrite (d'.content path) pos buf)) = _
      rw [hsame, hover]
  | fail written =>
    refine Runs.of_error (run_bind_ok hnext) (FailsIf.io .other (Or.inl fun h => ?_))
    cases (hclear h).1

/-- INTERNAL: a step that does not touch the directory. -/
theorem runs_liftExec {α β : Type} {x : Exec α} {a : α} (h : x = .ok a)
    {f : α → EStateM Fault Dir β} {d : Dir} {Q : β → Dir → Prop} {E : Fault → Dir → Prop}
    (hf : Runs (f a) d Q E) : Runs (liftExec x >>= f) d Q E := by
  subst h
  unfold Runs at hf ⊢
  rwa [run_bind_ok (run_liftExec_ok ..)]

/-- INTERNAL: both writers end with the index and the footer.
SOURCE: level/segment.rs:364-370, 421-429 -/
theorem indexAndFooter_runs {α : Type} {path : String} {d : Dir} {es : List SsTableEntry}
    {index : Sst.SegmentIndex} {pos : ℕ} {k : EStateM Fault Dir α} {Q : α → Dir → Prop}
    {E : Fault → Dir → Prop} (hcontent : d.content path = dataBlock es)
    (hpos : pos = (dataBlock es).length)
    (hk : ∀ d', WroteTo path d d' → d'.content path = segmentBytes es index.indices →
      (segmentBytes es index.indices).length < 2 ^ 63 → Runs k d' Q E)
    (hE : ∀ e d', FailsIf d False (2 ^ 63 ≤ (segmentBytes es index.indices).length) e d' →
      E e d') :
    Runs (Dir.writeAt path pos index.toBytes >>= fun _ =>
      Dir.writeAt path (pos + index.toBytes.length) (Sst.footerToBytes pos) >>= fun _ => k)
      d Q E := by
  have hindex := writeAt_runs hcontent hpos index.toBytes
  have hbytes : dataBlock es ++ index.toBytes ++ Sst.footerToBytes pos =
      segmentBytes es index.indices := by
    rw [hpos]
    rfl
  refine Runs.bind (hindex.mono (fun _ _ hq => hq) fun f d' hf => hE f d' ?_) ?_
  · refine hf.mono (fun hd => hd) False.elim fun hlong => hlong.trans ?_
    rw [← hbytes]
    exact (List.prefix_append ..).length_le
  rintro - d₁ ⟨hwrote₁, hcontent₁, -⟩
  have hposition : pos + index.toBytes.length = (dataBlock es ++ index.toBytes).length := by
    rw [hpos, List.length_append]
  have hfooter := writeAt_runs hcontent₁ hposition (Sst.footerToBytes pos)
  rw [hbytes] at hfooter
  refine Runs.bind (hfooter.mono (fun _ _ hq => hq) fun f d' hf => hE f d' ?_) ?_
  · exact hf.mono hwrote₁.faults False.elim fun hlong => hlong
  rintro - d₂ ⟨hwrote₂, hcontent₂, hroom⟩
  exact hk d₂ (hwrote₁.trans hwrote₂) hcontent₂ hroom

/-! ## The writer of the compaction -/

/-- What a writer has written: the entries, with an index of some of them in memory. -/
structure Writing (w : Sst.SegmentWriter) (d : Dir) (es : List SsTableEntry) : Prop where
  content : d.content w.filepath = dataBlock es
  position : w.position = (dataBlock es).length
  currSize : w.currSize = (dataBlock es).length
  len : w.index.len = indexLen w.index.indices
  index : w.index.indices.Sublist (indexPlaces 0 es)
  entriesWritten : w.entriesWritten = es.length
  unfinished : w.finished = false

/-- A new segment is empty.
SOURCE: level/segment.rs:378-401 -/
theorem createNewSegment_runs {levelNumber segmentNumber factor : ℕ} {d : Dir}
    (hfresh : ∀ path, Sst.Segment.determineSegmentFilename levelNumber segmentNumber = .ok path →
      path ∉ d.names) :
    Runs (Sst.SegmentWriter.createNewSegment levelNumber segmentNumber factor) d
      (fun w d' => Writing w d' [] ∧ WroteTo w.filepath d d' ∧ w.indexSparsityFactor = factor ∧
        w.targetSize = Sst.SEGMENT_SIZE ∧
        Sst.Segment.determineSegmentFilename levelNumber segmentNumber = .ok w.filepath)
      (FailsIf d (¬(levelNumber < 2 ^ 32 ∧ segmentNumber < 2 ^ 32)) False) := by
  unfold Sst.SegmentWriter.createNewSegment
  have hname := determineSegmentFilename_eq levelNumber segmentNumber
  by_cases hlt : levelNumber < 2 ^ 32 ∧ segmentNumber < 2 ^ 32
  · rw [if_pos hlt] at hname
    have hnew := hfresh _ hname
    generalize String.ofList (hexFixed 8 levelNumber ++ hexFixed 8 segmentNumber ++
      ['.', 's', 's', 't']) = path at hname hnew
    rw [hname]
    have hopen := openWrite_runs hnew
    unfold Runs
    rw [run_bind_ok (run_liftExec_ok ..)]
    cases hrun : (Dir.openWrite path).run d with
    | ok u d' =>
      obtain ⟨hwrote, hempty⟩ := hopen.ok hrun
      rw [run_bind_ok hrun, run_bind_ok (EStateM.run_get _)]
      dsimp only
      rw [hempty]
      exact ⟨⟨hempty, rfl, rfl, rfl, List.nil_sublist _, rfl, rfl⟩, hwrote, rfl, rfl, rfl⟩
    | error e d' =>
      rw [run_bind_error hrun]
      exact (hopen.error hrun).mono (fun h => h) False.elim (fun h => h)
  · rw [if_neg hlt] at hname
    rw [hname]
    exact Runs.of_error (run_bind_error (run_liftExec_error ..))
      (FailsIf.panic hlt)

/-- INTERNAL: what an index counts is no more than the data.
SOURCE: level/segment.rs:443-447 -/
theorem indexLen_le_dataBlock {es : List SsTableEntry} {indices : List Sst.SegmentIndexEntry}
    (h : indices.Sublist (indexPlaces 0 es)) : indexLen indices ≤ (dataBlock es).length := by
  have hall : ∀ offset, indexLen (indexPlaces offset es) ≤ (dataBlock es).length := by
    clear h
    induction es with
    | nil => intro _; exact Nat.zero_le _
    | cons e es ih =>
      intro offset
      have hge := len_ge e
      have hrest := ih (offset + (frame e).length)
      rw [frame_length] at hrest
      rw [indexPlaces, ← List.singleton_append, indexLen_append, dataBlock_cons,
        List.length_append, frame_length]
      have hone : indexLen [⟨e.key, offset⟩] = (asBytes e.key).length + 8 + 4 := rfl
      omega
  have hsub : indexLen indices ≤ indexLen (indexPlaces 0 es) := by
    unfold indexLen
    exact (h.map _).sum_le_sum fun _ _ => Nat.zero_le _
  exact hsub.trans (hall 0)

/-- INTERNAL: the next entry may get into the index.
SOURCE: level/segment.rs:351-353, 443-447 -/
theorem nextIndex_ok {es : List SsTableEntry} {index : Sst.SegmentIndex} {offset factor : ℕ}
    (hlen : index.len = indexLen index.indices)
    (hindex : index.indices.Sublist (indexPlaces 0 es)) (hoffset : offset = (dataBlock es).length)
    (e : SsTableEntry) (hroom : (dataBlock es).length + (asBytes e.key).length + 12 < 2 ^ 64)
    (hfactor : factor ≠ 0) (counter : ℕ) :
    ∃ next, (do
      if (← checkedMod counter factor) = 0 then index.addIndex e.key offset
      else return index : Exec Sst.SegmentIndex) = .ok next ∧
      next.len = indexLen next.indices ∧ next.indices.Sublist (indexPlaces 0 (es ++ [e])) := by
  have hplace : indexPlaces 0 (es ++ [e]) = indexPlaces 0 es ++ [⟨e.key, offset⟩] := by
    rw [indexPlaces_append, hoffset, Nat.zero_add]
    rfl
  have hself : index = ⟨index.indices, indexLen index.indices⟩ := by
    rw [← hlen]
  have hlt : indexLen (index.indices ++ [⟨e.key, offset⟩]) < 2 ^ 64 := by
    have hle := indexLen_le_dataBlock hindex
    have hone : indexLen [⟨e.key, offset⟩] = (asBytes e.key).length + 8 + 4 := rfl
    rw [indexLen_append]
    omega
  rw [checkedMod_ok (Nat.pos_of_ne_zero hfactor), exec_ok_bind, hplace]
  by_cases hnow : counter % factor = 0
  · rw [if_pos hnow, hself]
    exact ⟨_, addIndex_ok ⟨e.key, offset⟩ hlt, rfl, hindex.append (List.Sublist.refl _)⟩
  · rw [if_neg hnow]
    exact ⟨_, rfl, hlen, hindex.trans (List.sublist_append_left ..)⟩

section
variable {w : Sst.SegmentWriter} {d : Dir} {es : List SsTableEntry} (h : Writing w d es)
include h

/-- An entry is written.
SOURCE: level/segment.rs:434-449 -/
theorem writeEntry_runs (e : SsTableEntry) :
    Runs (w.writeEntry e) d
      (fun w' d' => Writing w' d' (es ++ [e]) ∧ WroteTo w.filepath d d' ∧
        w'.filepath = w.filepath ∧ w'.indexSparsityFactor = w.indexSparsityFactor ∧
        w'.targetSize = w.targetSize)
      (FailsIf d (w.indexSparsityFactor = 0) (2 ^ 63 ≤ (dataBlock (es ++ [e])).length)) := by
  have hdata : dataBlock es ++ leBytes 4 e.toBytes.length ++ e.toBytes =
      dataBlock (es ++ [e]) := by simp [frame]
  have hlength : (dataBlock (es ++ [e])).length = (dataBlock es).length + (e.len + 4) := by
    simp
  have hcount := length_le_dataBlock (es ++ [e])
  rw [List.length_append, List.length_singleton] at hcount
  have hnumber := writeAt_runs h.content h.position (leBytes 4 e.toBytes.length)
  unfold Sst.SegmentWriter.writeEntry Runs
  rw [assert_true h.unfinished, run_bind_ok (run_liftExec_ok ..)]
  dsimp only
  cases hrun₁ : (Dir.writeAt w.filepath w.position (leBytes 4 e.toBytes.length)).run d with
  | error f d₁ =>
    rw [run_bind_error hrun₁]
    refine (hnumber.error hrun₁).mono (fun hd => hd) False.elim fun hlong => hlong.trans ?_
    rw [hlength, List.length_append, leBytes_length]
    omega
  | ok u₁ d₁ =>
    obtain ⟨hwrote₁, hcontent₁, -⟩ := hnumber.ok hrun₁
    have hposition : w.position + 4 =
        (dataBlock es ++ leBytes 4 e.toBytes.length).length := by
      rw [h.position, List.length_append, leBytes_length]
    have hbytes := writeAt_runs hcontent₁ hposition e.toBytes
    rw [hdata] at hbytes
    rw [run_bind_ok hrun₁]
    cases hrun₂ : (Dir.writeAt w.filepath (w.position + 4) e.toBytes).run d₁ with
    | error f d₂ =>
      rw [run_bind_error hrun₂]
      exact (hbytes.error hrun₂).mono hwrote₁.faults False.elim fun hlong => hlong
    | ok u₂ d₂ =>
      obtain ⟨hwrote₂, hcontent₂, hroom⟩ := hbytes.ok hrun₂
      rw [run_bind_ok hrun₂, h.entriesWritten, checkedAdd_ok (by omega),
        run_bind_ok (run_liftExec_ok ..)]
      by_cases hfactor : w.indexSparsityFactor = 0
      · have hpanic : (do
            if (← checkedMod (es.length + 1) w.indexSparsityFactor) = 0 then
              w.index.addIndex e.key w.currSize
            else return w.index : Exec Sst.SegmentIndex) = .error .panic := by
          unfold checkedMod
          rw [if_pos hfactor]
          rfl
        rw [hpanic, run_bind_error (run_liftExec_error ..)]
        exact FailsIf.panic hfactor
      · have hkey : (dataBlock es).length + (asBytes e.key).length + 12 < 2 ^ 64 := by
          have hge := len_ge e
          omega
        obtain ⟨index, hindex, hlen, hsub⟩ := nextIndex_ok h.len h.index h.currSize e hkey hfactor
          (es.length + 1)
        rw [hindex, run_bind_ok (run_liftExec_ok ..), h.currSize, toBytes_length,
          checkedAdd_ok (by omega), run_bind_ok (run_liftExec_ok ..)]
        refine ⟨⟨hcontent₂, ?_, ?_, hlen, hsub, ?_, h.unfinished⟩, hwrote₁.trans hwrote₂, rfl, rfl,
          rfl⟩
        · show w.position + 4 + e.len = _
          rw [hlength, ← h.position, Nat.add_assoc, Nat.add_comm 4]
        · exact hlength.symm
        · rw [List.length_append]
          rfl

/-- The index and the footer are written.
SOURCE: level/segment.rs:419-431 -/
theorem writeIndexAndFooter_runs :
    Runs w.writeIndexAndFooter d
      (fun w' d' => WroteTo w.filepath d d' ∧ w'.filepath = w.filepath ∧ w'.finished = true ∧
        d'.content w.filepath = segmentBytes es w.index.indices ∧
        (segmentBytes es w.index.indices).length < 2 ^ 63)
      (FailsIf d False (2 ^ 63 ≤ (segmentBytes es w.index.indices).length)) := by
  unfold Sst.SegmentWriter.writeIndexAndFooter
  rw [assert_true h.unfinished, h.currSize, ← h.position]
  refine runs_liftExec rfl (indexAndFooter_runs h.content h.position (fun d' hwrote hfile hroom => ?_)
    fun _ _ hf => hf)
  exact Runs.of_ok rfl ⟨hwrote, rfl, rfl, hfile, hroom⟩

end

/-- Entries are written one after the other. -/
theorem writeEntries_runs (more : List SsTableEntry) {w : Sst.SegmentWriter} {d : Dir}
    {es : List SsTableEntry} (h : Writing w d es) :
    Runs (more.foldlM Sst.SegmentWriter.writeEntry w) d
      (fun w' d' => Writing w' d' (es ++ more) ∧ w'.filepath = w.filepath ∧
        (d.faults = [] → d'.faults = []))
      (FailsIf d (w.indexSparsityFactor = 0) (2 ^ 63 ≤ (dataBlock (es ++ more)).length)) := by
  induction more generalizing w d es with
  | nil =>
    rw [List.append_nil]
    exact Runs.of_ok rfl ⟨h, rfl, fun hd => hd⟩
  | cons e more ih =>
    have hassoc : es ++ e :: more = es ++ [e] ++ more := by simp
    rw [List.foldlM_cons, hassoc]
    refine Runs.bind ((writeEntry_runs h e).mono (fun _ _ hq => hq) fun f d' hf => ?_) ?_
    · refine hf.mono (fun hd => hd) (fun hbad => hbad) fun hlong => hlong.trans ?_
      rw [dataBlock_append (es ++ [e])]
      exact (List.prefix_append ..).length_le
    rintro w₁ d₁ ⟨hwriting, hwrote, hpath, hfactor, -⟩
    refine (ih hwriting).mono ?_ fun f d' hf => ?_
    · rintro w₂ d₂ ⟨hfinal, hpath', hclear⟩
      exact ⟨hfinal, hpath'.trans hpath, fun hd => hclear (hwrote.faults hd)⟩
    · exact hf.mono hwrote.faults (fun hbad => hfactor ▸ hbad) fun hlong => hlong

end Rkvs.Analysis
