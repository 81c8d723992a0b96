import Rkvs.Analysis.Replay
import Rkvs.Interface.LogStructure

/-!
# The log is well structured in every state

Every history leaves a log image, and an image has the structure that a log should have: full
segments up to the active one, and room for the next file behind all others.
-/

set_option autoImplicit false

namespace Rkvs.Analysis

open Rkvs.Library Rkvs.Model Rkvs.Interface

section
variable {s : SegmentSize} {crc : Bytes → UInt32} {log : Log} {img : LogImage s}

/-- INTERNAL: a file belongs to one of the segments. -/
theorem mem_names_iff (h : Represents crc log img) {name : String} : name ∈ log.wal.dir.names ↔
    ∃ f ∈ filesOf (WalEntry.encode crc) (closing (WalEntry.encode crc) [] [img.active]) img.closed ++
      [(img.active.base, img.active.written (WalEntry.encode crc))], s.fileName f.1 = name := by
  unfold Dir.names
  rw [(h.wal.files.files.map Prod.fst).mem_iff, List.map_map, List.mem_map]
  rfl

/-- INTERNAL: the files before the active one start before it. -/
theorem base_le_active (h : Represents crc log img) {f : ℕ × Bytes}
    (hf : f ∈ filesOf (WalEntry.encode crc) (closing (WalEntry.encode crc) [] [img.active])
      img.closed ++ [(img.active.base, img.active.written (WalEntry.encode crc))]) :
    f.1 ≤ img.active.base := by
  obtain ⟨-, -, hcross⟩ := List.pairwise_append.mp h.wal.files.sorted
  obtain hf | hf := List.mem_append.mp hf
  · exact (hcross f hf _ (List.mem_cons_self ..)).le
  · rw [List.mem_singleton.mp hf]

/-- INTERNAL: the LSNs of the records that were written are behind those before them. -/
theorem sequenceNumber_lt_end (img : LogImage s) :
    ∀ e ∈ img.entries, e.sequenceNumber < img.active.endLsn := by
  obtain ⟨first, imgs, hsegments, -, hcrossing, hchain, hvalid⟩ := segments_cons img
  have hends : ∀ x ∈ img.segments, x.endLsn ≤ img.active.endLsn := by
    intro x hx
    obtain hx | hx := List.mem_append.mp hx
    · have hbases := chain_bases img.chain img.valid
      have hbase := (List.pairwise_append.mp hbases).2.2 x hx img.active (List.mem_singleton_self _)
      have hsize := (img.valid x (List.mem_append_left _ hx)).size_le
      unfold SegmentImage.endLsn
      omega
    · rw [List.mem_singleton.mp hx]
  intro e he
  obtain ⟨x, hx, hex⟩ := List.mem_flatMap.mp he
  refine lt_of_lt_of_le ?_ (hends x hx)
  rw [hsegments] at hx
  obtain rfl | hx := List.mem_cons.mp hx
  · have hlead : x.leadSpan = 0 := by simp [SegmentImage.leadSpan, hcrossing]
    have hentries : x.entries = x.records := by simp [SegmentImage.entries, hcrossing]
    rw [hentries] at hex
    have hbounds := numbered_mem (hvalid x (List.mem_cons_self ..)).numbered e hex
    unfold SegmentImage.endLsn SegmentImage.size
    omega
  · obtain ⟨front, rear, rfl⟩ := List.append_of_mem hx
    obtain ⟨before, hlink⟩ : ∃ before, before ∈ first :: front ∧ Follows s before x := by
      obtain ⟨init, last, hlast⟩ : ∃ init last, first :: front = init ++ [last] :=
        ⟨_, _, (List.dropLast_append_getLast (List.cons_ne_nil first front)).symm⟩
      rw [← List.cons_append, hlast, List.append_assoc] at hchain
      refine ⟨last, by rw [hlast]; simp, ?_⟩
      exact (List.isChain_append.mp hchain).2.1.rel
    have hbefore := hvalid before (by
      rw [← List.cons_append]
      exact List.mem_append_left _ hlink.1)
    exact ((follows_bounds hlink.2 hbefore (hvalid x (by simp))).1 e hex).2

/-- INTERNAL: the next segment starts behind the active one. -/
theorem active_lt_next (img : LogImage s) {span : ℕ} (hfull : s.val < img.active.size + span) :
    img.active.base < s.baseOf (img.active.endLsn + span) := by
  have hlt := s.lt_baseOf_add (img.active.endLsn + span)
  unfold SegmentImage.endLsn at hlt ⊢
  omega

variable (h : Represents crc log img)
include h

/-- INTERNAL: the LSN and the form of the next record. -/
theorem nextWrite_wellFormed {op : LogOp} {lsn : ℕ} {e : WalEntry}
    (hnext : NextWrite crc s.val log op lsn e) : WellFormed e ∧ recordSpan e ≤ s.val ∧
      e.sequenceNumber = img.active.endLsn ∧ lsn = img.active.endLsn := by
  have hlsn := hnext.handed
  rw [h.next] at hlsn
  obtain ⟨heq, hlt⟩ := checkedAdd_eq_ok hlsn
  have hend : lsn = img.active.endLsn := heq.symm
  obtain ⟨he, hspan, hseq⟩ := entry_wellFormed hnext.fits (heq ▸ hlt) hnext.record
  exact ⟨he, hspan, hseq.trans hend, hend⟩

/-- INTERNAL: the file of a record that does not fit gets a name behind all others.
SOURCE: wal.rs:46-55, 64-71; wal/segment.rs:64-91 -/
theorem next_name_gt {op : LogOp} {lsn : ℕ} {e : WalEntry}
    (hnext : NextWrite crc s.val log op lsn e) (hfull : s.val < img.active.size + recordSpan e) :
    ∀ name ∈ log.wal.dir.names, name < s.fileName (lsn + recordSpan e) := by
  obtain ⟨-, -, -, hlsn⟩ := nextWrite_wellFormed h hnext
  have hspan : (e.encode crc).length = recordSpan e := keepsSpan_encode crc e
  have hend := hnext.end_lt
  rw [hspan] at hend
  intro name hname
  obtain ⟨f, hf, rfl⟩ := (mem_names_iff h).mp hname
  have hle := s.baseOf_le (lsn + recordSpan e)
  rw [← s.fileName_baseOf hend]
  refine s.fileName_lt (h.wal.files.dvd f hf) (s.dvd_baseOf _) ?_ (by omega)
  rw [hlsn]
  exact (base_le_active h hf).trans_lt (active_lt_next img hfull)

/-- The next record is written behind what is there, and files before the active one stay as they
are.
SOURCE: wal.rs:40-58 -/
theorem next_keeps {op : LogOp} {lsn : ℕ} {e : WalEntry} (hnext : NextWrite crc s.val log op lsn e) :
    ∃ log', log.step crc op = .ok log' ∧ ∀ name ∈ log.wal.dir.names,
      name ∈ log'.wal.dir.names ∧ log.wal.dir.content name <+: log'.wal.dir.content name := by
  obtain ⟨he, hspan, hseq, hlsn⟩ := nextWrite_wellFormed h hnext
  have hlen : (img.active.written (WalEntry.encode crc)).length = img.active.size :=
    written_length (keepsSpan_encode crc) _
  have hrecord : (e.encode crc).length = recordSpan e := keepsSpan_encode crc e
  have hend := hnext.end_lt
  rw [hrecord] at hend
  -- whichever way the record goes, the files are those before with something behind the last one
  obtain ⟨w', hrun, more, rear, hfiles⟩ : ∃ w', (Wal.append crc e).run log.wal = .ok () w' ∧
      ∃ more rear, SegmentFiles s w'.dir (filesOf (WalEntry.encode crc)
        (closing (WalEntry.encode crc) [] [img.active]) img.closed ++
          (img.active.base, img.active.written (WalEntry.encode crc) ++ more) :: rear) := by
    by_cases hfit : img.active.size + recordSpan e ≤ s.val
    · obtain ⟨w', hrun, hactive⟩ := h.wal.append_fits crc he (by omega)
      exact ⟨w', hrun, e.encode crc, [], hactive.files⟩
    · have hpast := active_lt_next img (Nat.not_le.mp hfit)
      rw [← hseq] at hpast
      obtain ⟨w', hrun, hactive⟩ := h.wal.append_crosses crc he ((Nat.sub_le ..).trans hspan)
        (by omega) (by rw [hseq, ← hlsn]; exact hend) hpast
      have hfiles := hactive.files
      rw [List.append_assoc] at hfiles
      exact ⟨w', hrun, _, _, hfiles⟩
  refine ⟨⟨w', log.records ++ [⟨e, Log.extentsBetween log.wal.activeSegment w'.activeSegment
    (e.encode crc).length⟩]⟩, ?_, ?_⟩
  · unfold Log.step
    rw [hnext.handed, exec_ok_bind, hnext.record]
    dsimp only
    rw [hrun]
    rfl
  · intro name hname
    obtain ⟨f, hf, rfl⟩ := (mem_names_iff h).mp hname
    have hmem : ∀ g ∈ filesOf (WalEntry.encode crc)
        (closing (WalEntry.encode crc) [] [img.active]) img.closed ++
        (img.active.base, img.active.written (WalEntry.encode crc) ++ more) :: rear,
        s.fileName g.1 ∈ w'.dir.names := by
      intro g hg
      unfold Dir.names
      rw [(hfiles.files.map Prod.fst).mem_iff, List.map_map]
      exact List.mem_map_of_mem hg
    obtain hf' | hf' := List.mem_append.mp hf
    · have hg := List.mem_append_left ((img.active.base,
        img.active.written (WalEntry.encode crc) ++ more) :: rear) hf'
      refine ⟨hmem f hg, ?_⟩
      rw [h.wal.files.content hf, hfiles.content hg]
    · obtain rfl := List.mem_singleton.mp hf'
      have hg : (img.active.base, img.active.written (WalEntry.encode crc) ++ more) ∈
          filesOf (WalEntry.encode crc) (closing (WalEntry.encode crc) [] [img.active])
            img.closed ++ (img.active.base, img.active.written (WalEntry.encode crc) ++ more) ::
              rear := List.mem_append_right _ (List.mem_cons_self ..)
      refine ⟨hmem (img.active.base, img.active.written (WalEntry.encode crc) ++ more) hg, ?_⟩
      rw [h.wal.files.content hf, hfiles.content hg]
      exact List.prefix_append ..

/-- A log with an image is structured. -/
theorem structured_of_represents : Structured crc s.val log := by
  have hlen : (img.active.written (WalEntry.encode crc)).length = img.active.size :=
    written_length (keepsSpan_encode crc) _
  have hentries := represents_entries h
  have hsize : log.wal.activeSegment.fileSize = img.active.size := by
    rw [h.wal.active, openedSegment_fileSize, hlen]
  have hpath : log.wal.activeSegment.filePath = s.fileName img.active.base := by
    rw [h.wal.active, openedSegment_filePath]
  have hle := (active_valid img).size_le
  refine ⟨?_, ?_, ?_, ?_, hsize ▸ hle, ?_, ?_, ?_, ?_⟩
  · rw [hentries]
    exact entries_sorted img
  · rw [hpath]
    exact (mem_names_iff h).mpr ⟨_, List.mem_append_right _ (List.mem_singleton_self _), rfl⟩
  · intro name hname hne
    obtain ⟨f, hf, rfl⟩ := (mem_names_iff h).mp hname
    rw [h.wal.files.content hf]
    obtain hf' | hf' := List.mem_append.mp hf
    · exact filesOf_full (keepsSpan_encode crc) [] img.chain f hf'
    · rw [List.mem_singleton.mp hf', hpath] at hne
      exact absurd rfl hne
  · rw [hpath, h.wal.content_eq, hlen, hsize]
  · rw [hsize]
    unfold Segment.remainingSpace
    rw [h.wal.active, openedSegment_maxSize, openedSegment_fileSize, hlen]
    exact checkedSub_ok hle
  · intro lsn hlsn e he
    rw [h.next] at hlsn
    rw [hentries] at he
    have hlt := sequenceNumber_lt_end img e he
    rwa [← (checkedAdd_eq_ok hlsn).1]
  · intro op lsn e hnext hfull
    have hspan : (e.encode crc).length = recordSpan e := keepsSpan_encode crc e
    rw [hsize, hspan] at hfull
    rw [hspan]
    exact next_name_gt h hnext (by omega)
  · exact fun op lsn e hnext => next_keeps h hnext

end

/-- Every history of writes, and of reopening, leaves a structured log.
SOURCE: wal.rs:14-71; wal/segment.rs:102-153, 256-258 -/
theorem log_structured {crc : Bytes → UInt32} {s : SegmentSize} {ops : List LogOp}
    (hops : ∀ op ∈ ops, op.Fits crc s.val) {log : Log} (hrun : Log.run crc s.val ops = .ok log) :
    Structured crc s.val log := by
  obtain ⟨img, himg⟩ := run_represents hops hrun
  exact structured_of_represents himg

theorem log_structured_short : ∃ log,
    Log.run (fun _ => 0) smallSegments.val shortHistory = .ok log ∧ log.records.length = 5 ∧
      Structured (fun _ => 0) smallSegments.val log := by
  have hleft : (Log.run (fun _ => 0) smallSegments.val shortHistory).map
      (fun log => log.records.length) = .ok 5 := by decide
  obtain ⟨log, hrun, hlength⟩ := run_of_map (fun log : Log => log.records.length) hleft
  exact ⟨log, hrun, hlength, log_structured (shortHistory_fits _) hrun⟩

end Rkvs.Analysis
