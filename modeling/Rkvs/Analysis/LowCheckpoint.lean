import Rkvs.Analysis.Flush
import Rkvs.Analysis.LogFiles
import Rkvs.Analysis.ReadOrder
import Rkvs.Interface.LevelZeroFlushes

/-!
# Replaying more of the log than is needed

The table of the entries from a checkpoint on shadows the SSTable. An entry that was flushed too and
is replayed comes with all entries behind it, so that the last of them still wins.
-/

set_option autoImplicit false

namespace Rkvs.Analysis

open Rkvs.Library Rkvs.Model Rkvs.Interface

/-! ## The last write is the newest version -/

/-- INTERNAL: no write to a key, no last one. -/
theorem lastWrite_eq_none {es : List WalEntry} {key : String} :
    lastWrite es key = none ↔ ∀ e ∈ es, e.key ≠ key := by
  simp [lastWrite]

/-- INTERNAL: the last entry for a key is its newest version. -/
theorem newest_last {es : List WalEntry}
    (h : es.Pairwise fun e f => e.sequenceNumber < f.sequenceNumber) (key : String) :
    Newest (es.map writtenVersion) key
      ((es.reverse.find? fun e => e.key = key).map writtenVersion) := by
  have hsorted : (es.map writtenVersion).Pairwise fun e f => e.sequenceNumber < f.sequenceNumber :=
    List.pairwise_map.mpr h
  have hlast := @isNewest_last _ _ _ SsTableEntry.key _ _ hsorted key
  rwa [← List.map_reverse, List.find?_map] at hlast

/-- A newest version of a key is its last write. -/
theorem lastWrite_of_newest {es : List WalEntry}
    (h : es.Pairwise fun e f => e.sequenceNumber < f.sequenceNumber) {key : String}
    {r : Option SsTableEntry} (hr : Newest (es.map writtenVersion) key r) :
    lastWrite es key = r.map fun e => ⟨e.value, e.sequenceNumber⟩ := by
  have hrank : ∀ x ∈ es.map writtenVersion, ∀ y ∈ es.map writtenVersion, x.key = key → y.key = key →
      x.sequenceNumber = y.sequenceNumber → x = y := by
    intro x hx y hy _ _ hsame
    have hsorted : ((es.map writtenVersion).map SsTableEntry.sequenceNumber).Pairwise (· < ·) := by
      rw [List.pairwise_map, List.pairwise_map]
      exact h
    exact List.inj_on_of_nodup_map (hsorted.imp fun hlt => hlt.ne) hx hy hsame
  rw [IsNewest.unique hrank hr (newest_last h key), Option.map_map]
  rfl

/-! ## What the flushes hold -/

/-- INTERNAL: every segment is the flush of a group, and every group has one. -/
theorem flushed_segments {groups : List (List WalEntry)} {segments : List Sst.Segment}
    (h : List.Forall₂ Flushed groups segments) :
    (∀ s ∈ segments, ∃ group ∈ groups, Flushed group s) ∧
      ∀ group ∈ groups, ∃ s ∈ segments, Flushed group s := by
  induction h with
  | nil => simp
  | @cons group s groups segments hhead _ ih =>
    constructor
    · intro t ht
      obtain rfl | ht := List.mem_cons.mp ht
      · exact ⟨group, List.mem_cons_self .., hhead⟩
      · obtain ⟨g, hg, hflushed⟩ := ih.1 t ht
        exact ⟨g, List.mem_cons_of_mem _ hg, hflushed⟩
    · intro g hg
      obtain rfl | hg := List.mem_cons.mp hg
      · exact ⟨s, List.mem_cons_self .., hhead⟩
      · obtain ⟨t, ht, hflushed⟩ := ih.2 g hg
        exact ⟨t, List.mem_cons_of_mem _ ht, hflushed⟩

/-- INTERNAL: a newest version among the segments is one among the entries. -/
theorem newest_of_flushed {groups : List (List WalEntry)} {segments : List Sst.Segment}
    (hsegments : ∀ s ∈ segments, ∃ group ∈ groups, Flushed group s)
    (hgroups : ∀ group ∈ groups, ∃ s ∈ segments, Flushed group s) {key : String}
    {r : Option SsTableEntry} (h : Newest (allEntries segments) key r) :
    Newest (groups.flatten.map writtenVersion) key r := by
  refine IsNewest.of_represented ?_ ?_ h
  · intro e he
    obtain ⟨s, hs, hes⟩ := mem_allEntries.mp he
    obtain ⟨group, hgroup, hflushed⟩ := hsegments s hs
    have hnewest := hflushed.newest e.key
    rw [entryFor_eq_some hflushed.ranged.ascending hes] at hnewest
    obtain ⟨entry, hentry, rfl⟩ := List.mem_map.mp hnewest.1
    exact List.mem_map_of_mem (List.mem_flatten.mpr ⟨group, hgroup, hentry⟩)
  · intro e he hkey
    obtain ⟨entry, hentry, rfl⟩ := List.mem_map.mp he
    obtain ⟨group, hgroup, hin⟩ := List.mem_flatten.mp hentry
    obtain ⟨s, hs, hflushed⟩ := hgroups group hgroup
    have hnewest := hflushed.newest key
    cases hfound : entryFor (entriesOf s) key with
    | none =>
      rw [hfound] at hnewest
      exact absurd hkey (hnewest _ (List.mem_map_of_mem hin))
    | some f =>
      rw [hfound] at hnewest
      refine ⟨f, mem_allEntries.mpr ⟨s, hs, List.mem_of_find?_eq_some hfound⟩, hnewest.2.1, ?_⟩
      exact hnewest.2.2 _ (List.mem_map_of_mem hin) hkey

/-- A read of the SSTable finds the last write among the flushed entries.
SOURCE: sstable.rs:61-86; level.rs:278-296 -/
theorem flushedInto_get {groups : List (List WalEntry)} {c : Sst.LevelContainer}
    (h : FlushedInto groups c)
    (hsorted : groups.flatten.Pairwise fun e f => e.sequenceNumber < f.sequenceNumber)
    (key : String) : ∃ r, c.get key = .ok r ∧
      lastWrite groups.flatten key = r.map fun e => ⟨e.value, e.sequenceNumber⟩ := by
  obtain ⟨⟨segments, hperm, hforall⟩, hlevels⟩ := h
  obtain ⟨hsegments, hgroups⟩ := flushed_segments hforall
  obtain ⟨r, hget, hnewest⟩ := @ranged_overlapping_get c.levelZero (fun s hs => by
    obtain ⟨group, -, hflushed⟩ := hsegments s (hperm.mem_iff.mpr hs)
    exact hflushed.ranged) key
  refine ⟨r, ?_, lastWrite_of_newest hsorted (newest_of_flushed ?_ ?_ hnewest)⟩
  · have hnone : Sst.LevelContainer.getFromLevels key c.partitionedLevels = .ok none := by
      have hempty : ∀ level ∈ c.partitionedLevels,
          entryFor (allEntries level.segments) key = none := by
        intro level hlevel
        rw [hlevels level hlevel]
        rfl
      rw [getFromLevels_of_gets fun level hlevel => ?_]
      · exact congrArg Except.ok (List.findSome?_eq_none_iff.mpr hempty)
      · refine ranged_partitioned_get ?_ ?_ rfl key
        · rw [hlevels level hlevel]
          exact List.Pairwise.nil
        · intro s hs
          rw [hlevels level hlevel] at hs
          exact absurd hs List.not_mem_nil
    unfold Sst.LevelContainer.get
    rw [hget, exec_ok_bind]
    cases r with
    | none => exact hnone
    | some e => rfl
  · exact fun s hs => hsegments s (hperm.mem_iff.mpr hs)
  · intro group hgroup
    obtain ⟨s, hs, hflushed⟩ := hgroups group hgroup
    exact ⟨s, hperm.mem_iff.mp hs, hflushed⟩

/-! ## The flusher -/

/-- One flush after the other, each of the table with the entries since the one before it. -/
inductive Flushes : Flusher → List (List WalEntry) → Flusher → Prop
  | nil (f : Flusher) : Flushes f [] f
  | cons {f f₁ f' : Flusher} {group : List WalEntry} {groups : List (List WalEntry)}
      (hrun : (Flusher.flush (tableOf group)).run f = .ok () f₁)
      (rest : Flushes f₁ groups f') : Flushes f (group :: groups) f'

/-- INTERNAL: entries that a table with a group holds are its newest versions. -/
theorem newest_of_holds {group : List WalEntry}
    (hsorted : group.Pairwise fun e f => e.sequenceNumber < f.sequenceNumber)
    {es : List SsTableEntry} (h : Holds (tableOf group) es) (key : String) :
    Newest (group.map writtenVersion) key (entryFor es key) := by
  have hlast := newest_last hsorted key
  have hvalue := h key
  rw [lookup_tableOf] at hvalue
  unfold lastWrite at hvalue
  cases hwritten : group.reverse.find? fun e => e.key = key with
  | none =>
    rw [hwritten] at hlast hvalue
    rw [Option.map_eq_none_iff.mp hvalue.symm]
    exact hlast
  | some w =>
    rw [hwritten] at hlast hvalue
    obtain ⟨e, he, hsame⟩ := Option.map_eq_some_iff.mp hvalue.symm
    have hkey : e.key = key := by simpa using List.find?_some he
    have hwkey : w.key = key := by simpa using List.find?_some hwritten
    have heq : e = writtenVersion w := by
      obtain ⟨k, v, n⟩ := e
      cases hsame
      exact congrArg (fun k => (⟨k, w.value, w.sequenceNumber⟩ : SsTableEntry))
        (hkey.trans hwkey.symm)
    rw [he, heq]
    exact hlast

/-- INTERNAL: a table with entries is not empty, and what it holds has the lengths of the entries. -/
theorem tableOf_fits {group : List WalEntry} (hne : group ≠ [])
    (hfits : ∀ e ∈ group, EntryFits (writtenVersion e)) : tableOf group ≠ ∅ ∧
      ∀ key value, (tableOf group).lookup key = some value →
        EntryFits (SsTableEntry.fromValue key value) := by
  constructor
  · intro hempty
    obtain ⟨e, es, rfl⟩ := List.exists_cons_of_ne_nil hne
    have hlookup := lookup_tableOf (e :: es) e.key
    rw [hempty, Finmap.lookup_empty] at hlookup
    exact lastWrite_eq_none.mp hlookup.symm e (List.mem_cons_self ..) rfl
  · intro key value hlookup
    rw [lookup_tableOf] at hlookup
    obtain ⟨e, he, rfl⟩ := Option.map_eq_some_iff.mp hlookup
    have hkey : e.key = key := by simpa using List.find?_some he
    subst hkey
    exact hfits e (List.mem_reverse.mp (List.mem_of_find?_eq_some he))

/-- The next numbers of level zero are those of no file.
SOURCE: memtable_flusher.rs:28 -/
def NextFree (f : Flusher) : Prop :=
  ∀ n, f.sstable.levelZero.highestSegmentNumber < n → ∀ path,
    Sst.Segment.determineSegmentFilename 0 n = .ok path → path ∉ f.dir.names

/-- A flush adds a segment for its group.
SOURCE: memtable_flusher.rs:27-37 -/
theorem flush_flushed {group : List WalEntry} {f f' : Flusher}
    (hsorted : group.Pairwise fun e f => e.sequenceNumber < f.sequenceNumber) (hne : group ≠ [])
    (hfits : ∀ e ∈ group, EntryFits (writtenVersion e)) (hfree : NextFree f)
    (h : (Flusher.flush (tableOf group)).run f = .ok () f') :
    (∃ s, Flushed group s ∧ f'.sstable.levelZero.segments = f.sstable.levelZero.segments ++ [s] ∧
      f'.sstable.partitionedLevels = f.sstable.partitionedLevels) ∧ NextFree f' := by
  obtain ⟨htable, hvalues⟩ := tableOf_fits hne hfits
  obtain ⟨⟨path, s, hopen, hwhole, hholds, hadd⟩, hfree'⟩ := flush_adds h htable hvalues hfree
  obtain ⟨hzero, hlevels⟩ := addToLevelZero_eq hopen hadd
  exact ⟨⟨s, ⟨ranged_of_whole hwhole, newest_of_holds hsorted hholds⟩, hzero, hlevels⟩, hfree'⟩

/-- Flushes of one group after the other into an SSTable leave one segment for each group.
SOURCE: memtable.rs:397-407; memtable_flusher.rs:27-37 -/
theorem flushes_flushedInto {f f' : Flusher} {done groups : List (List WalEntry)}
    (h : Flushes f groups f')
    (hgroups : ∀ group ∈ groups, group ≠ [] ∧ (∀ e ∈ group, EntryFits (writtenVersion e)) ∧
      group.Pairwise fun e f => e.sequenceNumber < f.sequenceNumber)
    (hfree : NextFree f) (hdone : FlushedInto done f.sstable) :
    FlushedInto (done ++ groups) f'.sstable := by
  induction h generalizing done with
  | nil => rwa [List.append_nil]
  | @cons f f₁ f' group groups hrun _ ih =>
    obtain ⟨hne, hfits, hsorted⟩ := hgroups group (List.mem_cons_self ..)
    obtain ⟨⟨s, hflushed, hzero, hlevels⟩, hfree₁⟩ := flush_flushed hsorted hne hfits hfree hrun
    obtain ⟨⟨segments, hperm, hforall⟩, hempty⟩ := hdone
    have hdone₁ : FlushedInto (done ++ [group]) f₁.sstable := by
      refine ⟨⟨segments ++ [s], ?_, ?_⟩, hlevels ▸ hempty⟩
      · rw [hzero]
        exact hperm.append_right [s]
      · exact List.rel_append hforall (.cons hflushed .nil)
    have hrest := ih (fun g hg => hgroups g (List.mem_cons_of_mem _ hg)) hfree₁ hdone₁
    rwa [List.append_assoc] at hrest

/-! ## The table in front -/

/-- INTERNAL: entries that are flushed and replayed do not matter for keys that are not replayed. -/
theorem lastWrite_flushed {history : List WalEntry}
    (h : history.Pairwise fun e f => e.sequenceNumber < f.sequenceNumber) {p c : ℕ} (hc : c ≤ p)
    {key : String}
    (hnot : lastWrite (history.filter fun e => c ≤ e.sequenceNumber) key = none) :
    lastWrite (history.filter fun e => e.sequenceNumber ≤ p) key = lastWrite history key := by
  have hflushed := filter_append_filter_of_newer (h.filter fun e => e.sequenceNumber ≤ p) c
  have hhistory := filter_append_filter_of_newer h c
  have hreplayed : lastWrite ((history.filter fun e => e.sequenceNumber ≤ p).filter
      fun e => c ≤ e.sequenceNumber) key = none := by
    rw [lastWrite_eq_none] at hnot ⊢
    intro e he
    obtain ⟨hmem, hle⟩ := List.mem_filter.mp he
    exact hnot e (List.mem_filter.mpr ⟨List.mem_of_mem_filter hmem, hle⟩)
  have hbefore : (history.filter fun e => e.sequenceNumber ≤ p).filter
      (fun e => e.sequenceNumber < c) = history.filter fun e => e.sequenceNumber < c := by
    rw [List.filter_filter]
    apply List.filter_congr
    intro e _
    rw [← Bool.decide_and, decide_eq_decide]
    omega
  calc lastWrite (history.filter fun e => e.sequenceNumber ≤ p) key
      = lastWrite (history.filter fun e => e.sequenceNumber < c) key := by
        rw [← hflushed, lastWrite_append, hreplayed, hbefore, Option.none_or]
    _ = lastWrite history key := by
        conv_rhs => rw [← hhistory, lastWrite_append, hnot, Option.none_or]

/-- A replay from a checkpoint that is not past the flushes makes reads find the last write to every
key, whichever checkpoint it is.
SOURCE: memtable.rs:246-350; storage_engine.rs:192-200; level.rs:278-296 -/
theorem low_checkpoint_harmless {history : List WalEntry}
    (h : history.Pairwise fun e f => e.sequenceNumber < f.sequenceNumber) {p : ℕ}
    {groups : List (List WalEntry)}
    (hgroups : groups.flatten = history.filter fun e => e.sequenceNumber ≤ p)
    {container : Sst.LevelContainer} (hflushed : FlushedInto groups container) {c : ℕ} (hc : c ≤ p)
    (key : String) :
    Worker.get (tableOf (history.filter fun e => c ≤ e.sequenceNumber)) container key =
      .ok ((lastWrite history key).bind MemTableValue.value) := by
  have hlookup := lookup_tableOf (history.filter fun e => c ≤ e.sequenceNumber) key
  cases hback : lastWrite (history.filter fun e => c ≤ e.sequenceNumber) key with
  | some v =>
    rw [hback] at hlookup
    have hlast : lastWrite history key = some v := by
      rw [← filter_append_filter_of_newer h c, lastWrite_append, hback, Option.some_or]
    rw [hlast]
    unfold Worker.get Worker.getFromMemtable MemTable.get
    rw [hlookup]
    rfl
  | none =>
    rw [hback] at hlookup
    obtain ⟨r, hget, hvalue⟩ := flushedInto_get hflushed (hgroups ▸ h.filter _) key
    rw [hgroups, lastWrite_flushed h hc hback] at hvalue
    unfold Worker.get Worker.getFromMemtable MemTable.get
    rw [hlookup, hvalue]
    unfold Worker.getFromSstable
    rw [hget, exec_ok_bind]
    cases r <;> rfl

/-- Two flushes of a, and a delete behind them. -/
theorem low_checkpoint_harmless_deleted :
    let history : List WalEntry := [⟨.put, "a", some "v", 1⟩, ⟨.put, "a", some "v", 3⟩,
      ⟨.delete, "a", none, 7⟩]
    Worker.get (tableOf (history.filter fun e => 1 ≤ e.sequenceNumber))
      ⟨⟨[oneKey 0 1 "a" 1, oneKey 0 2 "a" 3], 100⟩, []⟩ "a" = .ok none := by
  intro history
  have hkey : (asBytes "a").length < 2 ^ 31 := by decide
  have hone : ∀ number n, n < 2 ^ 64 →
      Flushed [⟨.put, "a", some "v", n⟩] (oneKey 0 number "a" n) := by
    intro number n hn
    have hstored := @oneKey_stored 0 number n "a" hkey hn
    refine ⟨ranged_of_whole (whole_of_stored hstored), fun key => ?_⟩
    rw [entriesOf_eq hstored]
    exact newest_entryFor (ascending_nodup hstored.ascending) key
  have hflushed : FlushedInto [[⟨.put, "a", some "v", 1⟩], [⟨.put, "a", some "v", 3⟩]]
      ⟨⟨[oneKey 0 1 "a" 1, oneKey 0 2 "a" 3], 100⟩, []⟩ :=
    ⟨⟨_, .refl _, .cons (hone 1 1 (by norm_num)) (.cons (hone 2 3 (by norm_num)) .nil)⟩,
      fun level hlevel => absurd hlevel List.not_mem_nil⟩
  exact @low_checkpoint_harmless history (by decide) 3 _ rfl _ hflushed 1 (by omega) "a"

end Rkvs.Analysis
