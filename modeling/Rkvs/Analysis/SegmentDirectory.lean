import Rkvs.Analysis.SegmentNames
import Rkvs.Model.MemTable

/-!
# Directories of segment files

A directory that holds segment files and nothing else is given by the LSNs at which they
start and by their contents, whatever the order in which the directory returns them. Listing,
opening, truncating and deleting files are then operations on such a list.
-/

set_option autoImplicit false

namespace Rkvs.Analysis

open Rkvs.Library Rkvs.Model

/-- The files of the directory, by the LSN at which they start and in this order. -/
structure SegmentFiles (s : SegmentSize) (dir : Dir) (fs : List (ℕ × Bytes)) : Prop where
  files : dir.files.Perm (fs.map fun f => (s.fileName f.1, f.2))
  sorted : fs.Pairwise fun f g => f.1 < g.1
  dvd : ∀ f ∈ fs, s.val ∣ f.1
  lt : ∀ f ∈ fs, f.1 < 2 ^ 64
  size_le : ∀ f ∈ fs, f.2.length ≤ s.val

/-- The files that `final_entry_after` keeps. -/
def keptAfter (s : SegmentSize) (n : ℕ) (fs : List (ℕ × Bytes)) : List (ℕ × Bytes) :=
  fs.filter fun f => n < s.endSeen f.1 f.2.length

/-- A file, opened. -/
def openedSegment (s : SegmentSize) (f : ℕ × Bytes) : Segment :=
  ⟨s.fileName f.1, f.2.length, s.val, f.1⟩

/-- INTERNAL: the path of an opened segment. -/
@[simp] theorem openedSegment_filePath (s : SegmentSize) (f : ℕ × Bytes) :
    (openedSegment s f).filePath = s.fileName f.1 := rfl

/-- INTERNAL: the size of its file. -/
@[simp] theorem openedSegment_fileSize (s : SegmentSize) (f : ℕ × Bytes) :
    (openedSegment s f).fileSize = f.2.length := rfl

/-- INTERNAL: the size of a segment. -/
@[simp] theorem openedSegment_maxSize (s : SegmentSize) (f : ℕ × Bytes) :
    (openedSegment s f).maxSize = s.val := rfl

/-- INTERNAL: the LSN at which it starts. -/
@[simp] theorem openedSegment_baseLsn (s : SegmentSize) (f : ℕ × Bytes) :
    (openedSegment s f).baseLsn = f.1 := rfl

/-- INTERNAL: a filter whose test always returns. -/
theorem filterM_ok {α : Type} {p : α → Exec Bool} {q : α → Bool} {l : List α}
    (h : ∀ a ∈ l, p a = .ok (q a)) : l.filterM p = .ok (l.filter q) := by
  have haux : ∀ acc, List.filterAuxM p l acc = .ok ((l.filter q).reverse ++ acc) := by
    induction l with
    | nil => intro acc; rfl
    | cons a l ih =>
      intro acc
      rw [List.filterAuxM, h a (List.mem_cons_self ..), exec_ok_bind,
        ih fun b hb => h b (List.mem_cons_of_mem _ hb)]
      cases hq : q a with
      | false => rw [List.filter_cons_of_neg (by simp [hq])]; rfl
      | true =>
        rw [List.filter_cons_of_pos hq, List.reverse_cons, List.append_assoc]
        rfl
  unfold List.filterM
  rw [haux]
  simp

/-- INTERNAL: a filter whose test panics for some element and returns otherwise. -/
theorem filterM_panic {α : Type} {p : α → Exec Bool} {l : List α}
    (h : ∀ a ∈ l, p a = .error .panic ∨ ∃ b, p a = .ok b) (hbad : ∃ a ∈ l, p a = .error .panic) :
    l.filterM p = .error .panic := by
  have haux : ∀ acc, List.filterAuxM p l acc = .error .panic := by
    induction l with
    | nil => obtain ⟨a, ha, -⟩ := hbad; cases ha
    | cons a l ih =>
      intro acc
      rw [List.filterAuxM]
      rcases h a (List.mem_cons_self ..) with hpanic | ⟨b, hb⟩
      · rw [hpanic]
        rfl
      · obtain ⟨c, hc, hcbad⟩ := hbad
        have hcl : c ∈ l := by
          rcases List.mem_cons.mp hc with rfl | hcl
          · rw [hb] at hcbad
            cases hcbad
          · exact hcl
        rw [hb, exec_ok_bind]
        exact ih (fun d hd => h d (List.mem_cons_of_mem _ hd)) ⟨c, hcl, hcbad⟩ _
  unfold List.filterM
  rw [haux]
  rfl

/-- INTERNAL: a map whose function always returns. -/
theorem mapM_ok {α β : Type} {f : α → Exec β} {g : α → β} {l : List α}
    (h : ∀ a ∈ l, f a = .ok (g a)) : l.mapM f = .ok (l.map g) := by
  induction l with
  | nil => rfl
  | cons a l ih =>
    rw [List.mapM_cons, h a (List.mem_cons_self ..),
      ih fun b hb => h b (List.mem_cons_of_mem _ hb)]
    rfl

section
variable {s : SegmentSize} {dir : Dir} {fs : List (ℕ × Bytes)} (h : SegmentFiles s dir fs)
include h

namespace SegmentFiles

/-- INTERNAL: the names are in order. -/
theorem names_sorted : (fs.map fun f => s.fileName f.1).Pairwise (· < ·) := by
  rw [List.pairwise_map]
  apply h.sorted.imp_of_mem
  intro f g hf hg hlt
  exact s.fileName_lt (h.dvd f hf) (h.dvd g hg) hlt (h.lt g hg)

/-- INTERNAL: every file has its contents. -/
theorem content {f : ℕ × Bytes} (hf : f ∈ fs) : dir.content (s.fileName f.1) = f.2 := by
  apply Dir.content_of_mem
  exact h.files.mem_iff.mpr (List.mem_map.mpr ⟨f, hf, rfl⟩)

/-- INTERNAL: what the test of a listing computes for a file of the directory. -/
theorem finalEntryAfter_eq {f : ℕ × Bytes} (hf : f ∈ fs) (n : ℕ) :
    finalEntryAfter (s.fileName f.1) f.2.length n =
      if s.endSeen f.1 f.2.length < 2 ^ 64 then .ok (decide (n < s.endSeen f.1 f.2.length))
      else .error .panic :=
  s.finalEntryAfter_fileName (h.lt f hf) (h.size_le f hf) n

/-- INTERNAL: fewer files in the same order. -/
theorem sublist {gs : List (ℕ × Bytes)} (hsub : gs.Sublist fs) :
    (gs.map fun f => s.fileName f.1).Pairwise (· < ·) :=
  h.names_sorted.sublist (hsub.map _)

/-- The names that are listed are those of the files kept, in order. -/
theorem listSegmentFiles_eq (hend : ∀ f ∈ fs, s.endSeen f.1 f.2.length < 2 ^ 64) (n : ℕ) :
    MemTable.listSegmentFiles dir n =
      .ok ((keptAfter s n fs).map fun f => s.fileName f.1) := by
  let test : String × Bytes → Bool := fun file =>
    match finalEntryAfter file.1 file.2.length n with
    | .ok kept => kept
    | .error _ => false
  have hvalue : ∀ f ∈ fs, finalEntryAfter (s.fileName f.1) f.2.length n =
      .ok (decide (n < s.endSeen f.1 f.2.length)) := by
    intro f hf
    rw [h.finalEntryAfter_eq hf, if_pos (hend f hf)]
  have hkept : dir.files.filterM (fun file => finalEntryAfter file.1 file.2.length n) =
      .ok (dir.files.filter test) := by
    apply filterM_ok
    intro file hfile
    obtain ⟨f, hf, rfl⟩ := List.mem_map.mp (h.files.mem_iff.mp hfile)
    simp only [test, hvalue f hf]
  have hperm : (dir.files.filter test).Perm
      ((keptAfter s n fs).map fun f => (s.fileName f.1, f.2)) := by
    have htest : fs.filter (test ∘ fun f => (s.fileName f.1, f.2)) = keptAfter s n fs := by
      apply List.filter_congr
      intro f hf
      simp only [Function.comp_apply, test, hvalue f hf]
    refine (h.files.filter test).trans (List.Perm.of_eq ?_)
    rw [List.filter_map, htest]
  have hsub : (keptAfter s n fs).Sublist fs := List.filter_sublist
  have hsorted : ((keptAfter s n fs).map fun f => s.fileName f.1).Pairwise (· ≤ ·) :=
    (h.sublist hsub).imp fun hlt => le_of_lt hlt
  have hnames : ((dir.files.filter test).map Prod.fst).Perm
      ((keptAfter s n fs).map fun f => s.fileName f.1) := by
    refine (hperm.map Prod.fst).trans (List.Perm.of_eq ?_)
    rw [List.map_map]
    rfl
  unfold MemTable.listSegmentFiles
  rw [hkept]
  simp only [exec_ok_bind, exec_pure]
  exact congrArg Except.ok (((List.perm_insertionSort _ _).trans hnames).eq_of_pairwise'
    (List.pairwise_insertionSort _ _) hsorted)

/-- INTERNAL: one file whose end cannot be computed makes every listing panic. -/
theorem listSegmentFiles_panic {f : ℕ × Bytes} (hf : f ∈ fs)
    (hend : ¬s.endSeen f.1 f.2.length < 2 ^ 64) (n : ℕ) :
    MemTable.listSegmentFiles dir n = .error .panic := by
  have hpanic : dir.files.filterM (fun file => finalEntryAfter file.1 file.2.length n) =
      .error .panic := by
    apply filterM_panic
    · intro file hfile
      obtain ⟨g, hg, rfl⟩ := List.mem_map.mp (h.files.mem_iff.mp hfile)
      simp only [h.finalEntryAfter_eq hg]
      split
      · exact Or.inr ⟨_, rfl⟩
      · exact Or.inl rfl
    · refine ⟨(s.fileName f.1, f.2), h.files.mem_iff.mpr (List.mem_map.mpr ⟨f, hf, rfl⟩), ?_⟩
      simp only [h.finalEntryAfter_eq hf]
      exact if_neg hend
  unfold MemTable.listSegmentFiles
  rw [hpanic]
  rfl

/-- INTERNAL: a file opened for reading or writing.
SOURCE: memtable.rs:164-171, 189-196 -/
theorem openSegment_eq {f : ℕ × Bytes} (hf : f ∈ fs) :
    MemTable.openSegment dir s.val (s.fileName f.1) = .ok (openedSegment s f) := by
  have hsize := h.size_le f hf
  unfold MemTable.openSegment Segment.fromFile
  simp only [h.content hf]
  rw [if_neg (by omega), s.parseBaseLsn_fileName (h.lt f hf), s.baseOf_of_dvd (h.dvd f hf)]
  rfl

/-- The segments to recover from are the files kept, opened in order.
SOURCE: memtable.rs:153-176 -/
theorem findAndOpenSegments_eq (hend : ∀ f ∈ fs, s.endSeen f.1 f.2.length < 2 ^ 64) (n : ℕ) :
    MemTable.findAndOpenSegments dir s.val n =
      .ok ((keptAfter s n fs).map (openedSegment s)) := by
  unfold MemTable.findAndOpenSegments
  rw [h.listSegmentFiles_eq hend, exec_ok_bind, List.mapM_map]
  apply mapM_ok
  intro f hf
  exact h.openSegment_eq (List.mem_of_mem_filter hf)

/-- INTERNAL: all files in the order of their names. -/
theorem names_sort : dir.names.insertionSort (· ≤ ·) = fs.map fun f => s.fileName f.1 := by
  have hnames : dir.names.Perm (fs.map fun f => s.fileName f.1) := by
    refine (h.files.map Prod.fst).trans (List.Perm.of_eq ?_)
    rw [List.map_map]
    rfl
  exact ((List.perm_insertionSort _ _).trans hnames).eq_of_pairwise'
    (List.pairwise_insertionSort _ _) (h.names_sorted.imp fun hlt => le_of_lt hlt)

/-- The segment to write to is the last file with data in it.
SOURCE: memtable.rs:178-197 -/
theorem openLastSegment_eq (hend : ∀ f ∈ fs, s.endSeen f.1 f.2.length < 2 ^ 64) :
    MemTable.openLastSegment dir s.val =
      match (keptAfter s 0 fs).getLast? with
      | none => .error (.io .notFound)
      | some f => .ok (openedSegment s f) := by
  unfold MemTable.openLastSegment
  rw [h.listSegmentFiles_eq hend, exec_ok_bind, List.getLast?_map]
  cases hlast : (keptAfter s 0 fs).getLast? with
  | none => rfl
  | some f => exact h.openSegment_eq (List.mem_of_mem_filter (List.mem_of_getLast? hlast))

/-! ## Changing the directory -/

/-- INTERNAL: a list of files in which one file differs, which keeps its place. -/
theorem of_replaced {dir' : Dir} {front rear : List (ℕ × Bytes)} {base : ℕ} {old bytes : Bytes}
    (hfs : fs = front ++ (base, old) :: rear) (hsize : bytes.length ≤ s.val)
    (hfiles : dir'.files.Perm
      ((front ++ (base, bytes) :: rear).map fun f => (s.fileName f.1, f.2))) :
    SegmentFiles s dir' (front ++ (base, bytes) :: rear) := by
  subst hfs
  have hmem : ∀ f ∈ front ++ (base, bytes) :: rear,
      f = (base, bytes) ∨ f ∈ front ++ (base, old) :: rear := by
    intro f hf
    rcases List.mem_append.mp hf with hf | hf
    · exact Or.inr (List.mem_append_left _ hf)
    · rcases List.mem_cons.mp hf with hf | hf
      · exact Or.inl hf
      · exact Or.inr (List.mem_append_right _ (List.mem_cons_of_mem _ hf))
  have hold : (base, old) ∈ front ++ (base, old) :: rear := by simp
  refine ⟨hfiles, ?_, ?_, ?_, ?_⟩
  · have hsorted := h.sorted
    rw [List.pairwise_append, List.pairwise_cons] at hsorted ⊢
    obtain ⟨hfront, ⟨hhead, hrear⟩, hcross⟩ := hsorted
    refine ⟨hfront, ⟨hhead, hrear⟩, ?_⟩
    intro f hf g hg
    rcases List.mem_cons.mp hg with rfl | hg
    · exact hcross f hf (base, old) (List.mem_cons_self ..)
    · exact hcross f hf g (List.mem_cons_of_mem _ hg)
  · intro f hf
    rcases hmem f hf with rfl | hf
    · exact h.dvd (base, old) hold
    · exact h.dvd f hf
  · intro f hf
    rcases hmem f hf with rfl | hf
    · exact h.lt (base, old) hold
    · exact h.lt f hf
  · intro f hf
    rcases hmem f hf with rfl | hf
    · exact hsize
    · exact h.size_le f hf

/-- INTERNAL: a name belongs to one file. -/
theorem fileName_inj {f g : ℕ × Bytes} (hf : f ∈ fs) (hg : g ∈ fs)
    (hname : s.fileName f.1 = s.fileName g.1) : f = g := by
  have hbase : f.1 = g.1 := by
    rcases Nat.lt_trichotomy f.1 g.1 with hlt | heq | hlt
    · exact absurd hname (ne_of_lt (s.fileName_lt (h.dvd f hf) (h.dvd g hg) hlt (h.lt g hg)))
    · exact heq
    · exact absurd hname.symm
        (ne_of_lt (s.fileName_lt (h.dvd g hg) (h.dvd f hf) hlt (h.lt f hf)))
  have hcontent := h.content hf
  rw [hbase, h.content hg] at hcontent
  exact Prod.ext hbase hcontent.symm

/-- A file that exists gets new contents. -/
theorem put {front rear : List (ℕ × Bytes)} {base : ℕ} {old : Bytes}
    (hfs : fs = front ++ (base, old) :: rear) (bytes : Bytes) (hsize : bytes.length ≤ s.val) :
    SegmentFiles s (dir.put (s.fileName base) bytes) (front ++ (base, bytes) :: rear) := by
  refine h.of_replaced hfs hsize ?_
  subst hfs
  have hold : (base, old) ∈ front ++ (base, old) :: rear := by simp
  have hin : s.fileName base ∈ dir.names :=
    List.mem_map.mpr ⟨(s.fileName base, old),
      h.files.mem_iff.mpr (List.mem_map.mpr ⟨_, hold, rfl⟩), rfl⟩
  have hbases := List.pairwise_append.mp h.sorted
  have hkeep : ∀ fs' : List (ℕ × Bytes), (∀ f ∈ fs', f ∈ front ++ (base, old) :: rear) →
      (∀ f ∈ fs', f.1 ≠ base) →
      ((fs'.map fun f => (s.fileName f.1, f.2)).map fun file =>
        if file.1 = s.fileName base then (s.fileName base, bytes) else file) =
        fs'.map fun f => (s.fileName f.1, f.2) := by
    intro fs' hsub hne
    rw [List.map_map]
    apply List.map_congr_left
    intro f hf
    apply if_neg
    intro hname
    exact hne f hf (congrArg Prod.fst (h.fileName_inj (hsub f hf) hold hname))
  rw [Dir.put_files_old hin]
  refine (h.files.map _).trans (List.Perm.of_eq ?_)
  rw [List.map_append, List.map_append, List.map_append, List.map_cons, List.map_cons,
    List.map_cons, if_pos rfl, hkeep front (fun f hf => List.mem_append_left _ hf),
    hkeep rear (fun f hf => List.mem_append_right _ (List.mem_cons_of_mem _ hf))]
  · intro f hf
    exact Nat.ne_of_gt ((List.pairwise_cons.mp hbases.2.1).1 f hf)
  · intro f hf
    exact Nat.ne_of_lt (hbases.2.2 f hf _ (List.mem_cons_self ..))

/-- A new file gets its place by the LSN at which it starts. -/
theorem put_new {front rear : List (ℕ × Bytes)} (hfs : fs = front ++ rear) {base : ℕ}
    (hdvd : s.val ∣ base) (hlt : base < 2 ^ 64) (hfront : ∀ f ∈ front, f.1 < base)
    (hrear : ∀ f ∈ rear, base < f.1) (bytes : Bytes) (hsize : bytes.length ≤ s.val) :
    SegmentFiles s (dir.put (s.fileName base) bytes) (front ++ (base, bytes) :: rear) := by
  subst hfs
  have hnew : s.fileName base ∉ dir.names := by
    intro hin
    obtain ⟨file, hfile, hname⟩ := List.mem_map.mp hin
    obtain ⟨f, hf, rfl⟩ := List.mem_map.mp (h.files.mem_iff.mp hfile)
    rcases List.mem_append.mp hf with hf' | hf'
    · exact absurd hname (ne_of_lt (s.fileName_lt (h.dvd f hf) hdvd (hfront f hf') hlt))
    · exact absurd hname.symm
        (ne_of_lt (s.fileName_lt hdvd (h.dvd f hf) (hrear f hf') (h.lt f hf)))
  have hmem : ∀ f ∈ front ++ (base, bytes) :: rear,
      f = (base, bytes) ∨ f ∈ front ++ rear := by
    intro f hf
    rcases List.mem_append.mp hf with hf | hf
    · exact Or.inr (List.mem_append_left _ hf)
    · rcases List.mem_cons.mp hf with hf | hf
      · exact Or.inl hf
      · exact Or.inr (List.mem_append_right _ hf)
  refine ⟨?_, ?_, ?_, ?_, ?_⟩
  · rw [Dir.put_files_new hnew]
    have happend := h.files.append_right [(s.fileName base, bytes)]
    rw [List.map_append] at happend
    refine happend.trans ?_
    rw [List.map_append, List.map_cons, List.append_assoc]
    exact (List.perm_append_singleton _ _).append_left _
  · have hsorted := List.pairwise_append.mp h.sorted
    rw [List.pairwise_append, List.pairwise_cons]
    refine ⟨hsorted.1, ⟨fun f hf => hrear f hf, hsorted.2.1⟩, ?_⟩
    intro f hf g hg
    rcases List.mem_cons.mp hg with rfl | hg
    · exact hfront f hf
    · exact hsorted.2.2 f hf g hg
  · intro f hf
    rcases hmem f hf with rfl | hf
    · exact hdvd
    · exact h.dvd f hf
  · intro f hf
    rcases hmem f hf with rfl | hf
    · exact hlt
    · exact h.lt f hf
  · intro f hf
    rcases hmem f hf with rfl | hf
    · exact hsize
    · exact h.size_le f hf

/-- INTERNAL: fewer files are still segment files. -/
theorem of_sublist {dir' : Dir} {gs : List (ℕ × Bytes)} (hsub : gs.Sublist fs)
    (hfiles : dir'.files.Perm (gs.map fun f => (s.fileName f.1, f.2))) :
    SegmentFiles s dir' gs where
  files := hfiles
  sorted := h.sorted.sublist hsub
  dvd := fun f hf => h.dvd f (hsub.subset hf)
  lt := fun f hf => h.lt f (hsub.subset hf)
  size_le := fun f hf => h.size_le f (hsub.subset hf)

/-- Removing the files that are listed leaves the others.
SOURCE: memtable.rs:72-76 -/
theorem removeKept (n : ℕ) :
    SegmentFiles s (((keptAfter s n fs).map fun f => s.fileName f.1).foldl Dir.removeFile dir)
      (fs.filter fun f => ¬n < s.endSeen f.1 f.2.length) := by
  have hremove : ∀ (names : List String) (d : Dir),
      (names.foldl Dir.removeFile d).files = d.files.filter fun f => f.1 ∉ names := by
    intro names
    induction names with
    | nil => intro d; simp
    | cons name names ih =>
      intro d
      rw [List.foldl_cons, ih]
      unfold Dir.removeFile
      rw [List.filter_filter]
      apply List.filter_congr
      intro f _
      simp [Bool.and_comm]
  refine h.of_sublist List.filter_sublist ?_
  rw [hremove]
  refine (h.files.filter _).trans (List.Perm.of_eq ?_)
  rw [List.filter_map]
  congr 1
  apply List.filter_congr
  intro f hf
  have hiff : (s.fileName f.1 ∈ (keptAfter s n fs).map fun g => s.fileName g.1) ↔
      n < s.endSeen f.1 f.2.length := by
    unfold keptAfter
    rw [List.mem_map]
    constructor
    · rintro ⟨g, hg, hname⟩
      obtain ⟨hg, htest⟩ := List.mem_filter.mp hg
      rw [h.fileName_inj hg hf hname] at htest
      exact of_decide_eq_true htest
    · intro htest
      exact ⟨f, List.mem_filter.mpr ⟨hf, decide_eq_true htest⟩, rfl⟩
  simp only [Function.comp_apply, hiff]

/-- A listed file is cut off at an offset and opened.
SOURCE: memtable.rs:199-226 -/
theorem truncateAndOpen_eq (hend : ∀ f ∈ fs, s.endSeen f.1 f.2.length < 2 ^ 64)
    {f : ℕ × Bytes} (hf : f ∈ fs) (hlisted : 0 < s.endSeen f.1 f.2.length) {offset : ℕ}
    (hoffset : offset ≤ f.2.length) :
    MemTable.truncateAndOpenSegmentFile dir (s.fileName f.1) offset s.val =
      .ok (openedSegment s (f.1, f.2.take offset),
        dir.put (s.fileName f.1) (f.2.take offset)) := by
  have hsize := h.size_le f hf
  have hlt := s.lt
  have hsub : (keptAfter s 0 fs).Sublist fs := List.filter_sublist
  -- the first name from that of the file on is the name of the file
  have hfirst : ∃ rest, ((keptAfter s 0 fs).map fun g => s.fileName g.1).filter
      (fun p => s.fileName f.1 ≤ p) = s.fileName f.1 :: rest := by
    obtain ⟨front, rear, hsplit⟩ := List.append_of_mem
      (List.mem_map.mpr ⟨f, List.mem_filter.mpr ⟨hf, decide_eq_true hlisted⟩, rfl⟩ :
        s.fileName f.1 ∈ (keptAfter s 0 fs).map fun g => s.fileName g.1)
    have hsorted := h.sublist hsub
    rw [hsplit] at hsorted ⊢
    have hnone : front.filter (fun p => s.fileName f.1 ≤ p) = [] := by
      apply List.filter_eq_nil_iff.mpr
      intro p hp hle
      have hlt := (List.pairwise_append.mp hsorted).2.2 p hp _ (List.mem_cons_self ..)
      exact absurd (of_decide_eq_true hle) (not_le_of_gt hlt)
    rw [List.filter_append, hnone, List.nil_append, List.filter_cons_of_pos (by simp)]
    exact ⟨_, rfl⟩
  obtain ⟨rest, hrest⟩ := hfirst
  unfold MemTable.truncateAndOpenSegmentFile Segment.fromFile Dir.setLen
  rw [h.listSegmentFiles_eq hend, exec_ok_bind, hrest]
  simp only [h.content hf]
  rw [if_pos (by omega), exec_ok_bind, s.parseBaseLsn_fileName (h.lt f hf),
    s.baseOf_of_dvd (h.dvd f hf), Nat.sub_eq_zero_of_le hoffset, Nat.mod_eq_of_lt (by omega)]
  simp [openedSegment, hoffset]

end SegmentFiles

end

end Rkvs.Analysis
