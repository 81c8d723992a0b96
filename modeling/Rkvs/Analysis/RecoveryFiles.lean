import Rkvs.Interface.Recovery
import Rkvs.Analysis.CompactionLoop

/-!
# Opening the files of a directory

Every complete segment file is opened, and nothing else is removed but files that are not complete.
-/

set_option autoImplicit false

namespace Rkvs.Analysis

open Rkvs.Library Rkvs.Model Rkvs.Interface

/-- INTERNAL: opening a file looks at this file only. -/
theorem fromFile_congr {d d' : Dir} {name : String} (hmem : name ∈ d.names ↔ name ∈ d'.names)
    (hcontent : d.content name = d'.content name) :
    Sst.Segment.fromFile d name = Sst.Segment.fromFile d' name := by
  unfold Sst.Segment.fromFile
  rw [hcontent]
  simp only [hmem]

/-- An incomplete file is taken for a corrupted one.
SOURCE: level/segment.rs:99-152 -/
theorem fromFile_incomplete {dir : Dir} {name : String} (hmem : name ∈ dir.names)
    (h : Incomplete dir name) : Sst.Segment.fromFile dir name = .ok (.error .corrupted) := by
  obtain ⟨⟨levelNumber, number⟩, hnamed⟩ := h.named
  have hlong := h.long
  have hfooter : Sst.SEGMENT_FOOTER_LEN = 12 := rfl
  have hnoMagic : ((dir.content name).drop ((dir.content name).length -
      Sst.SEGMENT_FOOTER_LEN)).drop 8 ≠ Sst.MAGIC_BYTES := by
    rw [List.drop_drop]
    have hpos : (dir.content name).length - Sst.SEGMENT_FOOTER_LEN + 8 =
        (dir.content name).length - 4 := by omega
    rw [hpos]
    exact h.unfinished
  unfold Sst.Segment.fromFile
  simp only [hnamed, exec_ok_bind]
  rw [if_neg (not_not.mpr hmem), if_neg (Nat.not_lt.mpr hlong), if_pos hnoMagic]
  rfl

/-- INTERNAL: an opened segment knows its file.
SOURCE: level/segment.rs:99-152 -/
theorem fromFile_eq_ok {dir : Dir} {name : String} {s : Sst.Segment}
    (h : Sst.Segment.fromFile dir name = .ok (.ok s)) :
    name ∈ dir.names ∧ s.filepath = name ∧ s.file = dir.content name ∧
      s.size = (dir.content name).length ∧
      Sst.Segment.levelAndSegmentNumberFromFilename name = .ok (s.levelNumber, s.number) := by
  unfold Sst.Segment.fromFile at h
  obtain ⟨⟨levelNumber, number⟩, hnumbers, hopen⟩ := exec_bind_eq_ok.mp h
  dsimp only at hopen
  split at hopen
  · cases hopen
  rename_i hmem
  split at hopen
  · cases hopen
  split at hopen
  · cases hopen
  obtain ⟨_, -, hopen⟩ := exec_bind_eq_ok.mp hopen
  obtain ⟨_, -, hopen⟩ := exec_bind_eq_ok.mp hopen
  obtain ⟨_, -, hopen⟩ := exec_bind_eq_ok.mp hopen
  obtain ⟨_, -, hopen⟩ := exec_bind_eq_ok.mp hopen
  obtain ⟨_, -, hopen⟩ := exec_bind_eq_ok.mp hopen
  cases hopen
  exact ⟨not_not.mp hmem, rfl, rfl, rfl, hnumbers⟩

/-- INTERNAL: segments that were opened from one file are one. -/
theorem eq_of_same_file {d : Dir} {s t : Sst.Segment}
    (hs : Sst.Segment.fromFile d s.filepath = .ok (.ok s))
    (ht : Sst.Segment.fromFile d t.filepath = .ok (.ok t)) (h : s.filepath = t.filepath) :
    s = t := by
  rw [h, ht] at hs
  exact (Except.ok.inj (Except.ok.inj hs)).symm

/-- INTERNAL: `d'` is `d` without some of the files that satisfy `P`. -/
structure RemovedSome (P : String → Prop) (d d' : Dir) : Prop where
  kept : ∀ name ∈ d'.names, name ∈ d.names
  removed : ∀ name ∈ d.names, name ∉ d'.names → P name
  content : ∀ name ∈ d'.names, d'.content name = d.content name
  faults : d.faults = [] → d'.faults = []

theorem RemovedSome.refl (P : String → Prop) (d : Dir) : RemovedSome P d d :=
  ⟨fun _ h => h, fun _ h hnot => absurd h hnot, fun _ _ => rfl, fun h => h⟩

theorem RemovedSome.mono {P Q : String → Prop} {d d' : Dir} (h : RemovedSome P d d')
    (hPQ : ∀ name, P name → Q name) : RemovedSome Q d d' :=
  ⟨h.kept, fun name hname hnot => hPQ name (h.removed name hname hnot), h.content, h.faults⟩

theorem RemovedSome.trans {P : String → Prop} {d d' d'' : Dir} (h : RemovedSome P d d')
    (h' : RemovedSome P d' d'') : RemovedSome P d d'' where
  kept name hname := h.kept name (h'.kept name hname)
  removed name hname hnot := by
    by_cases hmid : name ∈ d'.names
    · exact h'.removed name hmid hnot
    · exact h.removed name hname hmid
  content name hname := (h'.content name hname).trans (h.content name (h'.kept name hname))
  faults hd := h'.faults (h.faults hd)

/-- INTERNAL: the removal of a file.
SOURCE: level.rs:103 -/
theorem tryRemove_run {name : String} {d : Dir} (hmem : name ∈ d.names) :
    ∃ d', (Dir.tryRemove name).run d = .ok () d' ∧ RemovedSome (· = name) d d' ∧
      (d.faults = [] → name ∉ d'.names) := by
  obtain ⟨ev, d₁, hnext, hclear⟩ := Dir.nextEvent_run d
  have hfiles := Dir.nextEvent_files hnext
  have hnames : d₁.names = d.names := by
    unfold Dir.names
    rw [hfiles]
  have hcontent : ∀ other, d₁.content other = d.content other := by
    intro other
    unfold Dir.content
    rw [hfiles]
  have hsame : RemovedSome (· = name) d d₁ :=
    ⟨fun _ h => hnames ▸ h, fun _ h hnot => absurd (hnames.symm ▸ h) hnot,
      fun other _ => hcontent other, fun hd => (hclear hd).2⟩
  cases ev with
  | ok =>
    have hrun : (Dir.remove name).run d = .ok () (d₁.removeFile name) := by
      unfold Dir.remove
      rw [run_bind_ok hnext]
      dsimp only
      rw [run_bind_ok (EStateM.run_get _), if_neg (not_not.mpr (hnames.symm ▸ hmem))]
      rfl
    refine ⟨_, Dir.tryRemove_of_ok hrun, ⟨?_, ?_, ?_, fun hd => (hclear hd).2⟩,
      fun _ h => (Dir.mem_names_removeFile.mp h).2 rfl⟩
    · exact fun other hother => hnames ▸ (Dir.mem_names_removeFile.mp hother).1
    · intro other hother hnot
      by_contra hne
      exact hnot (Dir.mem_names_removeFile.mpr ⟨hnames.symm ▸ hother, hne⟩)
    · intro other hother
      rw [Dir.content_removeFile_of_ne (Dir.mem_names_removeFile.mp hother).2, hcontent]
  | fail written =>
    have hrun : (Dir.remove name).run d = .error (.io .other) d₁ := by
      unfold Dir.remove
      rw [run_bind_ok hnext]
      rfl
    exact ⟨_, Dir.tryRemove_of_error hrun, hsame, fun hd => by cases (hclear hd).1⟩

/-- Every complete file is opened, and only incomplete ones are removed.
SOURCE: level.rs:96-110 -/
theorem openSegments_ok {dir : Dir} {names : List String} (hnodup : names.Nodup)
    (hfiles : ∀ name ∈ names, (∃ s, Sst.Segment.fromFile dir name = .ok (.ok s)) ∨
      Incomplete dir name) {d : Dir}
    (hsame : ∀ name ∈ names, name ∈ d.names ∧ name ∈ dir.names ∧
      d.content name = dir.content name) :
    ∃ segments d', (Sst.LevelContainer.openSegments names).run d = .ok segments d' ∧
      (segments.map Sst.Segment.filepath).Sublist names ∧
      (∀ s, s ∈ segments ↔ ∃ name ∈ names, Sst.Segment.fromFile dir name = .ok (.ok s)) ∧
      RemovedSome (fun name => name ∈ names ∧ Incomplete dir name) d d' ∧
      (d.faults = [] → ∀ name ∈ names, Incomplete dir name → name ∉ d'.names) := by
  induction names generalizing d with
  | nil =>
    exact ⟨[], d, rfl, List.Sublist.refl _, by simp, RemovedSome.refl _ d, by simp⟩
  | cons name names ih =>
    obtain ⟨hnot, hnodup⟩ := List.nodup_cons.mp hnodup
    obtain ⟨hmem, hmem', hcontent⟩ := hsame name (List.mem_cons_self ..)
    have hrest := fun other hother => hfiles other (List.mem_cons_of_mem name hother)
    have hfile : Sst.Segment.fromFile d name = Sst.Segment.fromFile dir name :=
      fromFile_congr (iff_of_true hmem hmem') hcontent
    rw [Sst.LevelContainer.openSegments]
    obtain ⟨s, hopen⟩ | hincomplete := hfiles name (List.mem_cons_self ..)
    · obtain ⟨segments, d', hrun, hsub, hiff, hremoved, hall⟩ :=
        ih hnodup hrest fun other hother => hsame other (List.mem_cons_of_mem _ hother)
      refine ⟨s :: segments, d', ?_, ?_, ?_, ?_, ?_⟩
      · rw [run_bind_ok (EStateM.run_get d), hfile, hopen, run_bind_ok (run_liftExec_ok ..)]
        dsimp only
        rw [run_bind_ok hrun]
        rfl
      · rw [List.map_cons, (fromFile_eq_ok hopen).2.1]
        exact hsub.cons_cons name
      · intro t
        rw [List.mem_cons, hiff t]
        constructor
        · rintro (rfl | ⟨other, hother, hfrom⟩)
          · exact ⟨name, List.mem_cons_self .., hopen⟩
          · exact ⟨other, List.mem_cons_of_mem _ hother, hfrom⟩
        · rintro ⟨other, hother, hfrom⟩
          obtain rfl | hother := List.mem_cons.mp hother
          · exact Or.inl (Except.ok.inj (Except.ok.inj (hfrom.symm.trans hopen)))
          · exact Or.inr ⟨other, hother, hfrom⟩
      · exact hremoved.mono fun other hother => ⟨List.mem_cons_of_mem _ hother.1, hother.2⟩
      · intro hd other hother hincomplete
        obtain rfl | hother := List.mem_cons.mp hother
        · rw [fromFile_incomplete hmem' hincomplete] at hopen
          cases hopen
        · exact hall hd other hother hincomplete
    · have hopen := fromFile_incomplete hmem' hincomplete
      obtain ⟨d₁, hremove, hremoved₁, hgone⟩ := tryRemove_run hmem
      have hsame₁ : ∀ other ∈ names, other ∈ d₁.names ∧ other ∈ dir.names ∧
          d₁.content other = dir.content other := by
        intro other hother
        obtain ⟨hin, hin', hbytes⟩ := hsame other (List.mem_cons_of_mem _ hother)
        have hkept : other ∈ d₁.names := by
          by_contra hlost
          exact hnot (hremoved₁.removed other hin hlost ▸ hother)
        exact ⟨hkept, hin', (hremoved₁.content other hkept).trans hbytes⟩
      obtain ⟨segments, d', hrun, hsub, hiff, hremoved, hall⟩ := ih hnodup hrest hsame₁
      refine ⟨segments, d', ?_, hsub.cons name, ?_, ?_, ?_⟩
      · rw [run_bind_ok (EStateM.run_get d), hfile, hopen, run_bind_ok (run_liftExec_ok ..)]
        dsimp only
        rw [run_bind_ok hremove, hrun]
      · intro t
        rw [hiff t]
        constructor
        · rintro ⟨other, hother, hfrom⟩
          exact ⟨other, List.mem_cons_of_mem _ hother, hfrom⟩
        · rintro ⟨other, hother, hfrom⟩
          obtain rfl | hother := List.mem_cons.mp hother
          · rw [hopen] at hfrom
            cases hfrom
          · exact ⟨other, hother, hfrom⟩
      · refine (hremoved₁.mono ?_).trans (hremoved.mono ?_)
        · rintro other rfl
          exact ⟨List.mem_cons_self .., hincomplete⟩
        · exact fun other hother => ⟨List.mem_cons_of_mem _ hother.1, hother.2⟩
      · intro hd other hother hincomplete'
        obtain rfl | hother := List.mem_cons.mp hother
        · exact fun hin => hgone hd (hremoved.kept other hin)
        · exact hall (hremoved₁.faults hd) other hother hincomplete'

end Rkvs.Analysis
