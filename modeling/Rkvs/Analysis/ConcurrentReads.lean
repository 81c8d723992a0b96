import Rkvs.Analysis.CompactionThread
import Rkvs.Interface.ConcurrentReads

/-!
# Reads are linearizable

A lookup that has not found its key in the memtable has, from then on, an instant of its own for
what the levels hold: either they held the last insert when the memtable was asked, or a flush has
brought them up to date since. Inserts do not change the levels, so they keep that instant.
-/

set_option autoImplicit false

namespace Rkvs.Analysis

open Rkvs.Library Rkvs.Model Rkvs.Interface Rkvs.Interface.Engine

/-! ## The last insert -/

/-- INTERNAL: the last insert for a key is newer than all others. -/
theorem wins_of_lastTo {inserts : List SsTableEntry} {key : String} {e : SsTableEntry}
    (hincreasing : inserts.Pairwise fun e f => e.sequenceNumber < f.sequenceNumber)
    (h : lastTo SsTableEntry.key inserts key = some e) :
    Wins SsTableEntry.key SsTableEntry.sequenceNumber inserts e := by
  obtain ⟨hmem, hkey⟩ := lastTo_some h
  refine ⟨hmem, fun f hf hfkey hne => ?_⟩
  obtain ⟨before, after, rfl⟩ := List.append_of_mem hmem
  obtain ⟨hbefore, hafter, hcross⟩ := List.pairwise_append.mp hincreasing
  -- after the last insert there is none with the key
  have hnone : ∀ g ∈ after, g.key ≠ key := by
    intro g hg hgkey
    have hsplit : before ++ e :: after = before ++ [e] ++ after := List.append_cons ..
    rw [hsplit, lastTo_append] at h
    cases hlast : lastTo SsTableEntry.key after key with
    | none => exact lastTo_eq_none.mp hlast g hg hgkey
    | some g' =>
      rw [hlast] at h
      cases h
      have hlt := (List.pairwise_cons.mp hafter).1 e (lastTo_some hlast).1
      exact absurd hlt (lt_irrefl _)
  obtain hf | hf := List.mem_append.mp hf
  · exact hcross f hf e (List.mem_cons_self ..)
  · obtain rfl | hf := List.mem_cons.mp hf
    · exact absurd rfl hne
    · exact absurd (hfkey.trans hkey) (hnone f hf)

/-- INTERNAL: inserts with one sequence number are one. -/
theorem eq_of_sequenceNumber {inserts : List SsTableEntry}
    (hincreasing : inserts.Pairwise fun e f => e.sequenceNumber < f.sequenceNumber)
    {e f : SsTableEntry} (he : e ∈ inserts) (hf : f ∈ inserts)
    (h : e.sequenceNumber = f.sequenceNumber) : e = f := by
  have hnodup : (inserts.map SsTableEntry.sequenceNumber).Nodup :=
    List.pairwise_map.mpr (hincreasing.imp Nat.ne_of_lt)
  exact List.inj_on_of_nodup_map hnodup he hf h

/-- INTERNAL: of the inserts that a level has the newest is unique. -/
theorem newest_of_inserts {inserts es : List SsTableEntry} {key : String}
    {r r' : Option SsTableEntry}
    (hincreasing : inserts.Pairwise fun e f => e.sequenceNumber < f.sequenceNumber)
    (hsub : ∀ e ∈ es, e ∈ inserts) (hr : Newest es key r) (hr' : Newest es key r') : r = r' := by
  cases r with
  | none =>
    cases r' with
    | none => rfl
    | some e => exact absurd hr'.2.1 (hr e hr'.1)
  | some e =>
    obtain ⟨hmem, hkey, hmax⟩ := hr
    have hwins : Wins SsTableEntry.key SsTableEntry.sequenceNumber es e := by
      refine ⟨hmem, fun f hf hfkey hne => ?_⟩
      refine lt_of_le_of_ne (hmax f hf (hfkey.trans hkey)) fun hseq => hne ?_
      exact eq_of_sequenceNumber hincreasing (hsub f hf) (hsub e hmem) hseq
    exact (hwins.eq hkey hr').symm

/-! ## A flush -/

/-- INTERNAL: what a segment with the whole table holds are last inserts. -/
theorem mem_segment_iff {st : Engine} {s : Sst.Segment} (hwhole : Whole s)
    (hholds : Holds st.table (entriesOf s))
    (htable : ∀ key value, st.table.lookup key = some value →
      lastTo SsTableEntry.key st.inserts key = some (SsTableEntry.fromValue key value))
    {e : SsTableEntry} (he : e ∈ entriesOf s) :
    lastTo SsTableEntry.key st.inserts e.key = some e := by
  have hlookup := hholds e.key
  rw [entryFor_of_mem (whole_nodup hwhole) he] at hlookup
  exact htable e.key _ hlookup

/-- INTERNAL: after a flush the levels have the last insert for every key.
SOURCE: memtable_flusher.rs:27-37; level.rs:248-267, 278-296 -/
theorem flush_answers {st : Engine} {c : Sst.LevelContainer} {s : Sst.Segment}
    (hgood : GoodContainer st.container) (hwhole : Whole s)
    (hzero : c.levelZero.segments = st.container.levelZero.segments ++ [s])
    (hlevels : c.partitionedLevels = st.container.partitionedLevels)
    (hholds : Holds st.table (entriesOf s))
    (hincreasing : st.inserts.Pairwise fun e f => e.sequenceNumber < f.sequenceNumber)
    (hsub : ∀ e ∈ allEntries st.container.levelZero.segments, e ∈ st.inserts)
    (htable : ∀ key value, st.table.lookup key = some value →
      lastTo SsTableEntry.key st.inserts key = some (SsTableEntry.fromValue key value))
    (hanswers : ∀ key, st.table.lookup key = none →
      st.container.get key = .ok (lastTo SsTableEntry.key st.inserts key)) :
    GoodContainer c ∧ (∀ e ∈ allEntries c.levelZero.segments, e ∈ st.inserts) ∧
      ∀ key, c.get key = .ok (lastTo SsTableEntry.key st.inserts key) := by
  have hentries : allEntries c.levelZero.segments =
      allEntries st.container.levelZero.segments ++ entriesOf s := by
    rw [hzero, allEntries_append, allEntries_singleton]
  have hsegment : ∀ e ∈ entriesOf s, e ∈ st.inserts := fun e he =>
    (lastTo_some (mem_segment_iff hwhole hholds htable he)).1
  have hgood' : GoodContainer c := by
    refine ⟨fun t ht => ?_, hlevels ▸ hgood.levels⟩
    rw [hzero] at ht
    obtain ht | ht := List.mem_append.mp ht
    · exact hgood.levelZero t ht
    · exact List.mem_singleton.mp ht ▸ hwhole
  have hsub' : ∀ e ∈ allEntries c.levelZero.segments, e ∈ st.inserts := by
    intro e he
    rw [hentries] at he
    exact (List.mem_append.mp he).elim (hsub e) (hsegment e)
  refine ⟨hgood', hsub', fun key => ?_⟩
  obtain ⟨r, -, hr, hget⟩ := container_get hgood' key
  have hentry := hholds key
  rw [hget]
  cases hlookup : st.table.lookup key with
  | some value =>
    -- the table has the last insert, and the new segment with it
    have hlast := htable key value hlookup
    rw [hlookup] at hentry
    obtain ⟨e, hfound, hvalue⟩ := Option.map_eq_some_iff.mp hentry.symm
    obtain ⟨hmem, hkey⟩ := mem_of_entryFor hfound
    have hwins := wins_of_lastTo hincreasing (mem_segment_iff hwhole hholds htable hmem)
    have hwins' : Wins SsTableEntry.key SsTableEntry.sequenceNumber
        (allEntries c.levelZero.segments) e := by
      refine ⟨?_, fun f hf => hwins.2 f (hsub' f hf)⟩
      rw [hentries]
      exact List.mem_append_right _ hmem
    rw [hwins'.eq hkey hr, ← hkey, mem_segment_iff hwhole hholds htable hmem]
    rfl
  | none =>
    rw [hlookup] at hentry
    have habsent : ∀ e ∈ entriesOf s, e.key ≠ key := by
      intro e he hkey
      have hfound := entryFor_of_mem (whole_nodup hwhole) he
      rw [hkey] at hfound
      rw [hfound] at hentry
      cases hentry
    have hr' : Newest (allEntries st.container.levelZero.segments) key r := by
      refine hr.congr fun e hkey => ?_
      rw [hentries, List.mem_append]
      exact ⟨fun hmem => hmem.resolve_right fun he => habsent e he hkey, Or.inl⟩
    obtain ⟨r₀, -, hr₀, hget₀⟩ := container_get hgood key
    rw [newest_of_inserts hincreasing hsub hr' hr₀, hlevels, ← hget₀, hanswers key hlookup]

/-! ## Every state -/

/-- INTERNAL: what holds in every state. -/
structure EngineSound (st : Engine) : Prop where
  good : GoodContainer st.container
  increasing : st.inserts.Pairwise fun e f => e.sequenceNumber < f.sequenceNumber
  levelZero : ∀ e ∈ allEntries st.container.levelZero.segments, e ∈ st.inserts
  table : ∀ key value, st.table.lookup key = some value →
    lastTo SsTableEntry.key st.inserts key = some (SsTableEntry.fromValue key value)
  levels : ∀ key, st.flushing = true ∨ st.table.lookup key = none →
    st.container.get key = .ok (lastTo SsTableEntry.key st.inserts key)
  pending : ∀ reader get, st.pending reader = some get → ∃ i, get.since ≤ i ∧
    i ≤ st.inserts.length ∧
    st.container.get get.key = .ok (lastTo SsTableEntry.key (st.inserts.take i) get.key)
  returned : Linearizable st

theorem engineSound_of_consistent {st : Engine} (h : Consistent st) : EngineSound st where
  good := h.good
  increasing := h.increasing
  levelZero := h.levelZero
  table := h.table
  levels key hkey := by
    obtain hflushing | hkey := hkey
    · rw [h.unlocked] at hflushing
      cases hflushing
    · exact h.levels key hkey
  pending reader get hpending := by
    rw [h.pending reader] at hpending
    cases hpending
  returned get hget := by
    rw [h.returned] at hget
    cases hget

/-- INTERNAL: an insert keeps it.
SOURCE: memtable.rs:357-393 -/
theorem insert_sound {st : Engine} {entry : SsTableEntry} (h : EngineSound st)
    (hunlocked : st.flushing = false)
    (hnewer : ∀ e ∈ st.inserts, e.sequenceNumber < entry.sequenceNumber) :
    EngineSound { st with
      table := st.table.insert entry.key ⟨entry.value, entry.sequenceNumber⟩
      inserts := st.inserts ++ [entry] } := by
  have hlast : ∀ key, lastTo SsTableEntry.key (st.inserts ++ [entry]) key =
      if entry.key = key then some entry else lastTo SsTableEntry.key st.inserts key := by
    intro key
    rw [lastTo_append]
    by_cases hkey : entry.key = key
    · rw [if_pos hkey]
      simp [lastTo, hkey]
    · rw [if_neg hkey]
      simp [lastTo, hkey]
  have htake : ∀ i, i ≤ st.inserts.length → (st.inserts ++ [entry]).take i = st.inserts.take i :=
    fun i hi => List.take_append_of_le_length hi
  refine ⟨h.good, ?_, fun e he => List.mem_append_left _ (h.levelZero e he), ?_, ?_, ?_, ?_⟩
  · apply List.pairwise_append.mpr
    refine ⟨h.increasing, List.pairwise_singleton .., fun e he f hf => ?_⟩
    rw [List.mem_singleton.mp hf]
    exact hnewer e he
  · intro key value hlookup
    rw [hlast]
    by_cases hkey : entry.key = key
    · subst hkey
      rw [Finmap.lookup_insert] at hlookup
      cases hlookup
      rw [if_pos rfl]
      rfl
    · rw [Finmap.lookup_insert_of_ne _ (Ne.symm hkey)] at hlookup
      rw [if_neg hkey]
      exact h.table key value hlookup
  · intro key hkey
    obtain hflushing | hlookup := hkey
    · cases hunlocked.symm.trans hflushing
    · rw [hlast]
      by_cases hkey : entry.key = key
      · subst hkey
        rw [Finmap.lookup_insert] at hlookup
        cases hlookup
      · rw [Finmap.lookup_insert_of_ne _ (Ne.symm hkey)] at hlookup
        rw [if_neg hkey]
        exact h.levels key (Or.inr hlookup)
  · intro reader get hpending
    obtain ⟨i, hsince, hi, hget⟩ := h.pending reader get hpending
    refine ⟨i, hsince, ?_, ?_⟩
    · rw [List.length_append]
      omega
    · rw [htake i hi]
      exact hget
  · intro get hget
    obtain ⟨hupTo, i, hsince, hi, hresult⟩ := h.returned get hget
    refine ⟨?_, i, hsince, hi, ?_⟩
    · rw [List.length_append]
      omega
    · unfold valueAt
      rw [htake i (hi.trans hupTo)]
      exact hresult

/-- INTERNAL: a lookup that returns keeps it. -/
theorem returned_sound {st : Engine} {get : ReturnedGet} (h : Linearizable st) {i : ℕ}
    (hupTo : get.upTo ≤ st.inserts.length) (hsince : get.since ≤ i) (hi : i ≤ get.upTo)
    (hresult : get.result = valueAt st.inserts i get.key) :
    ∀ g ∈ st.returned ++ [get], g.upTo ≤ st.inserts.length ∧
      ∃ i, g.since ≤ i ∧ i ≤ g.upTo ∧ g.result = valueAt st.inserts i g.key := by
  intro g hg
  obtain hg | hg := List.mem_append.mp hg
  · exact h g hg
  · rw [List.mem_singleton.mp hg]
    exact ⟨hupTo, i, hsince, hi, hresult⟩

/-- INTERNAL: every step keeps it. -/
theorem engineSound_step {st st' : Engine} {a : Engine.Action} (h : EngineSound st)
    (hstep : Engine.Step st a st') : EngineSound st' := by
  cases hstep with
  | insert unlocked newer => exact insert_sound h unlocked newer
  | @addSegment dir path s c unlocked written whole holds added =>
    obtain ⟨hzero, hlevels⟩ := addToLevelZero_eq written added
    obtain ⟨hgood, hsub, hanswers⟩ := flush_answers h.good whole hzero hlevels holds h.increasing
      h.levelZero h.table fun key hkey => h.levels key (Or.inr hkey)
    refine ⟨hgood, h.increasing, hsub, h.table, fun key _ => hanswers key, ?_, h.returned⟩
    intro reader get hpending
    obtain ⟨i, hsince, hi, -⟩ := h.pending reader get hpending
    refine ⟨st.inserts.length, hsince.trans hi, le_refl _, ?_⟩
    rw [List.take_length]
    exact hanswers get.key
  | clear locked =>
    refine ⟨h.good, h.increasing, h.levelZero, ?_, fun key _ => h.levels key (Or.inl locked),
      h.pending, h.returned⟩
    intro key value hlookup
    rw [Finmap.lookup_empty] at hlookup
    cases hlookup
  | @found reader key value unlocked idle here =>
    refine ⟨h.good, h.increasing, h.levelZero, h.table, h.levels, h.pending, ?_⟩
    obtain ⟨mvalue, hlookup, rfl⟩ := Option.map_eq_some_iff.mp here
    refine returned_sound h.returned (le_refl _) (le_refl _) (le_refl _) ?_
    unfold valueAt
    rw [List.take_length, h.table key mvalue hlookup]
    rfl
  | @notFound reader key unlocked idle absent =>
    refine ⟨h.good, h.increasing, h.levelZero, h.table, h.levels, ?_, h.returned⟩
    have hlookup : st.table.lookup key = none := Option.map_eq_none_iff.mp absent
    intro other get hpending
    dsimp only at hpending
    by_cases hother : other = reader
    · subst hother
      rw [Function.update_self] at hpending
      cases hpending
      refine ⟨st.inserts.length, le_refl _, le_refl _, ?_⟩
      rw [List.take_length]
      exact h.levels key (Or.inr hlookup)
    · rw [Function.update_of_ne hother] at hpending
      exact h.pending other get hpending
  | @lookupLevels reader get value waiting answer =>
    obtain ⟨i, hsince, hi, hget⟩ := h.pending reader get waiting
    refine ⟨h.good, h.increasing, h.levelZero, h.table, h.levels, ?_, ?_⟩
    · intro other get' hpending
      dsimp only at hpending
      by_cases hother : other = reader
      · subst hother
        rw [Function.update_self] at hpending
        cases hpending
      · rw [Function.update_of_ne hother] at hpending
        exact h.pending other get' hpending
    · refine returned_sound h.returned (le_refl _) hsince hi ?_
      unfold Worker.getFromSstable at answer
      rw [hget, exec_ok_bind] at answer
      exact (Except.ok.inj answer).symm

/-- In every state of every run each lookup that has returned has returned the value of its key at
some instant between its steps, one that no insert has overlapped the last value, and each that
waits gets an answer.
SOURCE: storage_engine.rs:192-200; memtable.rs:357-427; level.rs:278-296 -/
theorem reads_linearizable {start st : Engine} (hstart : Consistent start)
    {steps : List (Engine × Engine.Action)} (hrun : Run Engine.Step start steps st) :
    Linearizable st ∧ Answered st ∧ ∀ get ∈ st.returned, get.since = get.upTo →
      get.result = valueAt st.inserts get.upTo get.key := by
  have hsound := (hrun.invariant (engineSound_of_consistent hstart)
    fun _ _ _ h hstep => engineSound_step h hstep).2
  refine ⟨hsound.returned, fun reader get hpending => ?_, fun get hget hsame => ?_⟩
  · obtain ⟨i, -, -, hanswer⟩ := hsound.pending reader get hpending
    unfold Worker.getFromSstable
    rw [hanswer, exec_ok_bind]
    exact ⟨_, rfl⟩
  · obtain ⟨-, i, hsince, hi, hresult⟩ := hsound.returned get hget
    have hinstant : i = get.upTo := Nat.le_antisymm hi (hsame ▸ hsince)
    rwa [hinstant] at hresult

/-! ## A lookup that a write and its flush overlap -/

def unwritten : Engine := ⟨∅, noLevels, false, [], fun _ => none, []⟩

theorem unwritten_consistent : Consistent unwritten where
  good := ⟨fun s hs => absurd hs List.not_mem_nil, fun l hl => absurd hl List.not_mem_nil⟩
  unlocked := rfl
  increasing := List.Pairwise.nil
  levelZero := fun e he => absurd he List.not_mem_nil
  table := by
    intro key value h
    have hempty : unwritten.table.lookup key = none := Finmap.lookup_empty key
    rw [hempty] at h
    cases h
  levels := fun _ _ => rfl
  pending := fun _ => rfl
  returned := rfl

theorem firstFlushed_holds : Holds ((∅ : Table).insert "a" ⟨some "v", 1⟩)
    (entriesOf firstFlushed) := by
  have hentries : entriesOf firstFlushed = [⟨"a", some "v", 1⟩] :=
    entriesOf_eq (versionOf_stored (by norm_num))
  rw [hentries]
  intro key
  by_cases hkey : key = "a"
  · subst hkey
    rw [Finmap.lookup_insert]
    rfl
  · rw [Finmap.lookup_insert_of_ne _ hkey, Finmap.lookup_empty]
    unfold entryFor
    rw [List.find?_cons_of_neg (by simpa using Ne.symm hkey)]
    rfl

/-- A reader misses its key in the memtable, the key is written and flushed, and the reader finds
it in the levels. -/
theorem reads_linearizable_flush : ∃ steps st, Run Engine.Step unwritten steps st ∧
    st.returned = [⟨"a", 0, 1, some "v"⟩] ∧ Linearizable st := by
  have hmissed := Run.nil.snoc (@Step.notFound unwritten 0 "a" rfl rfl rfl)
  have hinserted := hmissed.snoc (Step.insert rfl fun e he => absurd he List.not_mem_nil :
    Engine.Step _ (.insert ⟨"a", some "v", 1⟩) _)
  have hadded : noLevels.addToLevelZero (dirOf firstFlushed) firstFlushed.filepath =
      .ok ⟨⟨[firstFlushed], 10⟩, []⟩ := by
    unfold Sst.LevelContainer.addToLevelZero
    rw [firstFlushed_written, exec_ok_bind]
    rfl
  have hflushed := (hinserted.snoc (Step.addSegment rfl firstFlushed_written
    (versionOf_whole (by norm_num)) firstFlushed_holds hadded)).snoc (Step.clear rfl)
  have hanswer : Worker.getFromSstable ⟨⟨[firstFlushed], 10⟩, []⟩ "a" = .ok (some "v") := by decide
  have hanswered := hflushed.snoc (@Step.lookupLevels _ 0 _ _ rfl hanswer)
  exact ⟨_, _, hanswered, rfl, (reads_linearizable unwritten_consistent hanswered).1⟩

end Rkvs.Analysis
