import Rkvs.Model.Machine
import Mathlib.Data.List.Sort

/-!
# One directory of files

A directory lists its files in the order in which the file system happens to return them; no
two have one name. Opened files are written at their end only, so a file handle is the name
of the file. `faults` gives the outcome of the next file operations that can fail.
-/

set_option autoImplicit false

namespace Rkvs.Model

/-- The outcome of one file operation. A failed write has written a proper prefix, of at
most `written` bytes. -/
inductive IoEvent
  | ok
  | fail (written : ℕ)
  deriving DecidableEq, Repr

/-- The files of a directory with their bytes, and what will happen to the next operations. -/
@[ext] structure Dir where
  files : List (String × Bytes)
  distinct : (files.map Prod.fst).Nodup
  faults : List IoEvent

namespace Dir

/-- A directory without files in which every operation succeeds. -/
def empty : Dir := ⟨[], List.nodup_nil, []⟩

/-- The names in the directory. -/
def names (d : Dir) : List String := d.files.map Prod.fst

/-- The bytes of a file. -/
def content (d : Dir) (name : String) : Bytes := (d.files.lookup name).getD []

/-- The files after the file `name` has got the contents `bytes`. -/
def putFiles (files : List (String × Bytes)) (name : String) (bytes : Bytes) :
    List (String × Bytes) :=
  if name ∈ files.map Prod.fst then
    files.map fun f => if f.1 = name then (name, bytes) else f
  else files ++ [(name, bytes)]

/-- INTERNAL: the names stay different ones. -/
theorem putFiles_distinct {files : List (String × Bytes)} (h : (files.map Prod.fst).Nodup)
    (name : String) (bytes : Bytes) : ((putFiles files name bytes).map Prod.fst).Nodup := by
  unfold putFiles
  split
  · have hsame : (files.map fun f => if f.1 = name then (name, bytes) else f).map Prod.fst =
        files.map Prod.fst := by
      rw [List.map_map]
      apply List.map_congr_left
      intro f _
      by_cases hf : f.1 = name <;> simp [hf]
    rw [hsame]
    exact h
  · rename_i hnot
    rw [List.map_append, List.nodup_append]
    refine ⟨h, by simp, ?_⟩
    rintro a ha b hb rfl
    simp only [List.map_cons, List.map_nil, List.mem_singleton] at hb
    exact hnot (hb ▸ ha)

/-- Give the file `name`, which may be new, the contents `bytes`. -/
def put (d : Dir) (name : String) (bytes : Bytes) : Dir :=
  { d with
    files := putFiles d.files name bytes
    distinct := putFiles_distinct d.distinct name bytes }

/-- The outcome of the operation at hand. -/
def nextEvent : EStateM Fault Dir IoEvent := fun d =>
  match d.faults with
  | [] => .ok .ok d
  | e :: es => .ok e { d with faults := es }

/-- `File::create`: a file that exists is emptied. -/
def createFile (name : String) : EStateM Fault Dir Unit := do
  match ← nextEvent with
  | .ok => modify fun d => d.put name []
  | .fail _ => throw (.io .other)

/-- `File::write_all`. Writing no bytes is not an operation. -/
def writeAll (name : String) (buf : Bytes) : EStateM Fault Dir Unit := do
  if buf ≠ [] then
    match ← nextEvent with
    | .ok => modify fun d => d.put name (d.content name ++ buf)
    | .fail written => do
      modify fun d => d.put name (d.content name ++ buf.dropLast.take written)
      throw (.io .other)

/-- `OpenOptions::write(true).create(true).open`: a file that exists keeps its contents. -/
def openWrite (name : String) : EStateM Fault Dir Unit := do
  match ← nextEvent with
  | .ok => modify fun d => if name ∈ d.names then d else d.put name []
  | .fail _ => throw (.io .other)

/-- What a file holds after `buf` was written over it from `pos` on. -/
def overwrite (bytes : Bytes) (pos : ℕ) (buf : Bytes) : Bytes :=
  bytes.take pos ++ buf ++ bytes.drop (pos + buf.length)

/-- `write_all` with the file's cursor at `pos`. A write is not kept back in a buffer, and none
goes past the largest length that a file can have. -/
def writeAt (name : String) (pos : ℕ) (buf : Bytes) : EStateM Fault Dir Unit := do
  match ← nextEvent with
  | .ok => do
    if 2 ^ 63 ≤ pos + buf.length then throw (.io .fileTooLarge)
    modify fun d => d.put name (overwrite (d.content name) pos buf)
  | .fail written => do
    modify fun d => d.put name (overwrite (d.content name) pos (buf.dropLast.take written))
    throw (.io .other)

/-- `File::set_len`: the length is a signed 64-bit number for the operating system. -/
def setLen (d : Dir) (name : String) (len : ℕ) : Exec Dir :=
  if len < 2 ^ 63 then
    let bytes := d.content name
    .ok (d.put name (bytes.take len ++ List.replicate (len - bytes.length) 0))
  else .error (.io .invalidInput)

/-- `fs::remove_file`. -/
def removeFile (d : Dir) (name : String) : Dir :=
  { d with
    files := d.files.filter fun f => f.1 ≠ name
    distinct := d.distinct.sublist (List.filter_sublist.map Prod.fst) }

/-- `fs::remove_file`, with its outcome. -/
def remove (name : String) : EStateM Fault Dir Unit := do
  match ← nextEvent with
  | .ok => do
    if name ∉ (← get).names then throw (.io .notFound)
    modify fun d => d.removeFile name
  | .fail _ => throw (.io .other)

/-- `fs::remove_file`, of which the outcome is ignored. -/
def tryRemove (name : String) : EStateM Fault Dir Unit := fun d =>
  match (remove name).run d with
  | .ok () d => .ok () d
  | .error _ d => .ok () d

/-- INTERNAL: a file that is removed. -/
theorem tryRemove_of_ok {name : String} {d d' : Dir} (h : (remove name).run d = .ok () d') :
    (tryRemove name).run d = .ok () d' := by
  show tryRemove name d = _
  unfold tryRemove
  rw [h]

/-- INTERNAL: a failure to remove a file is ignored. -/
theorem tryRemove_of_error {name : String} {d d' : Dir} {e : Fault}
    (h : (remove name).run d = .error e d') : (tryRemove name).run d = .ok () d' := by
  show tryRemove name d = _
  unfold tryRemove
  rw [h]

/-- INTERNAL: writing does not change the faults to come. -/
@[simp] theorem put_faults (d : Dir) (name : String) (bytes : Bytes) :
    (d.put name bytes).faults = d.faults := rfl

/-- INTERNAL: nor does removing. -/
@[simp] theorem removeFile_faults (d : Dir) (name : String) :
    (d.removeFile name).faults = d.faults := rfl

/-- INTERNAL: a file of the directory has the contents listed with it. -/
theorem content_of_mem {d : Dir} {name : String} {bytes : Bytes}
    (h : (name, bytes) ∈ d.files) : d.content name = bytes := by
  obtain ⟨files, distinct, faults⟩ := d
  unfold content
  simp only at h ⊢
  induction files with
  | nil => simp at h
  | cons f files ih =>
    obtain ⟨name', bytes'⟩ := f
    rw [List.map_cons, List.nodup_cons] at distinct
    rcases List.mem_cons.mp h with heq | hmem
    · cases heq
      simp
    · have hne : name ≠ name' := by
        rintro rfl
        exact distinct.1 (List.mem_map.mpr ⟨_, hmem, rfl⟩)
      rw [List.lookup_cons]
      simp only [beq_eq_false_iff_ne.mpr hne]
      exact ih distinct.2 hmem

/-- INTERNAL: without faults to come every operation succeeds. -/
theorem nextEvent_ok {d : Dir} (h : d.faults = []) : nextEvent.run d = .ok .ok d := by
  obtain ⟨files, distinct, faults⟩ := d
  subst h
  rfl

/-- INTERNAL: a file is created, or emptied if it exists. -/
theorem createFile_ok {d : Dir} (h : d.faults = []) (name : String) :
    (createFile name).run d = .ok () (d.put name []) := by
  unfold createFile
  rw [run_bind_ok (nextEvent_ok h), EStateM.run_modify]

/-- INTERNAL: a new file comes last. -/
theorem put_files_new {d : Dir} {name : String} (h : name ∉ d.names) (bytes : Bytes) :
    (d.put name bytes).files = d.files ++ [(name, bytes)] := if_neg h

/-- INTERNAL: a file that exists keeps its place. -/
theorem put_files_old {d : Dir} {name : String} (h : name ∈ d.names) (bytes : Bytes) :
    (d.put name bytes).files =
      d.files.map fun f => if f.1 = name then (name, bytes) else f := if_pos h

/-- INTERNAL: the file that was written has the contents written. -/
theorem content_put (d : Dir) (name : String) (bytes : Bytes) :
    (d.put name bytes).content name = bytes := by
  apply content_of_mem
  by_cases hold : name ∈ d.names
  · rw [put_files_old hold]
    obtain ⟨f, hf, hname⟩ := List.mem_map.mp hold
    exact List.mem_map.mpr ⟨f, hf, if_pos hname⟩
  · rw [put_files_new hold]
    simp

/-- INTERNAL: the names after writing a file. -/
theorem mem_names_put {d : Dir} {name other : String} {bytes : Bytes} :
    other ∈ (d.put name bytes).names ↔ other = name ∨ other ∈ d.names := by
  by_cases hold : name ∈ d.names
  · have hsame : (d.put name bytes).names = d.names := by
      unfold names
      rw [put_files_old hold, List.map_map]
      apply List.map_congr_left
      intro f _
      by_cases hf : f.1 = name <;> simp [hf]
    rw [hsame]
    constructor
    · exact Or.inr
    · rintro (rfl | h)
      · exact hold
      · exact h
  · unfold names
    rw [put_files_new hold]
    simp [or_comm]

/-- INTERNAL: a file that gets the contents it has. -/
theorem putFiles_content {d : Dir} {name : String} (h : name ∈ d.names) :
    putFiles d.files name (d.content name) = d.files := by
  unfold putFiles
  rw [if_pos (show name ∈ d.files.map Prod.fst from h)]
  conv_rhs => rw [← List.map_id d.files]
  apply List.map_congr_left
  rintro ⟨other, bytes⟩ hmem
  by_cases hother : other = name
  · subst hother
    rw [if_pos rfl, content_of_mem hmem]
    rfl
  · exact if_neg hother

/-- INTERNAL: bytes are written to the end of a file. -/
theorem writeAll_ok {d : Dir} (h : d.faults = []) {name : String} (hname : name ∈ d.names)
    (buf : Bytes) :
    (writeAll name buf).run d = .ok () (d.put name (d.content name ++ buf)) := by
  unfold writeAll
  by_cases hbuf : buf = []
  · subst hbuf
    rw [if_neg (by simp), List.append_nil]
    exact congrArg (EStateM.Result.ok ()) (Dir.ext (putFiles_content hname).symm rfl)
  · rw [if_pos hbuf, run_bind_ok (nextEvent_ok h), EStateM.run_modify]

/-- INTERNAL: a write leaves the other files alone. -/
theorem content_put_of_ne {d : Dir} {name other : String} {bytes : Bytes} (h : other ≠ name) :
    (d.put name bytes).content other = d.content other := by
  unfold content
  congr 1
  by_cases hold : name ∈ d.names
  · rw [put_files_old hold]
    generalize d.files = files
    induction files with
    | nil => rfl
    | cons f files ih =>
      obtain ⟨first, contents⟩ := f
      by_cases hf : first = name
      · subst hf
        rw [List.map_cons, if_pos rfl, List.lookup_cons, List.lookup_cons,
          beq_eq_false_iff_ne.mpr h, ih]
      · rw [List.map_cons, if_neg hf, List.lookup_cons, List.lookup_cons, ih]
  · rw [put_files_new hold, List.lookup_append]
    simp [List.lookup_cons, beq_eq_false_iff_ne.mpr h]

/-- INTERNAL: the names after removing a file. -/
theorem mem_names_removeFile {d : Dir} {name other : String} :
    other ∈ (d.removeFile name).names ↔ other ∈ d.names ∧ other ≠ name := by
  unfold names removeFile
  simp only [List.mem_map, List.mem_filter, decide_eq_true_eq]
  constructor
  · rintro ⟨f, ⟨hf, hne⟩, rfl⟩
    exact ⟨⟨f, hf, rfl⟩, hne⟩
  · rintro ⟨⟨f, hf, rfl⟩, hne⟩
    exact ⟨f, ⟨hf, hne⟩, rfl⟩

/-- INTERNAL: a removal leaves the other files alone. -/
theorem content_removeFile_of_ne {d : Dir} {name other : String} (h : other ≠ name) :
    (d.removeFile name).content other = d.content other := by
  unfold content removeFile
  dsimp only
  congr 1
  induction d.files with
  | nil => rfl
  | cons f files ih =>
    obtain ⟨first, bytes⟩ := f
    by_cases hfirst : first = name
    · subst hfirst
      rw [List.filter_cons_of_neg (by simp), List.lookup_cons, beq_eq_false_iff_ne.mpr h, ih]
    · rw [List.filter_cons_of_pos (by simpa using hfirst), List.lookup_cons, List.lookup_cons, ih]

/-- INTERNAL: an event is taken off the events to come. -/
theorem nextEvent_run (d : Dir) :
    ∃ ev d', nextEvent.run d = .ok ev d' ∧
      (d.faults = [] → ev = .ok ∧ d'.faults = []) := by
  obtain ⟨files, distinct, faults⟩ := d
  cases faults with
  | nil => exact ⟨.ok, _, rfl, fun _ => ⟨rfl, rfl⟩⟩
  | cons ev evs => exact ⟨ev, _, rfl, by simp⟩

/-- INTERNAL: the next event comes with the same files. -/
theorem nextEvent_files {d d' : Dir} {ev : IoEvent} (h : nextEvent.run d = .ok ev d') :
    d'.files = d.files := by
  obtain ⟨files, distinct, faults⟩ := d
  cases faults with
  | nil => cases h; rfl
  | cons e es => cases h; rfl

end Dir

end Rkvs.Model
