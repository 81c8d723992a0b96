import Mathlib.Data.List.Basic

/-!
# Streams of framed records

A framing looks at the beginning of a string of symbols and finds a record of some length,
finds that no complete record stands there, or rejects what it sees. A record, once found, is
found whatever follows it. `Reads bs es tail` says that reading records from the front of `bs`
gives `es` and gets as far as `tail`. Reading on is reading the tail, appending symbols does
not undo what was read, nor does leaving out the tail, and where the framing finds no further
record both the records and the tail are determined.
-/

set_option autoImplicit false

namespace Rkvs.Library

/-- What stands at the beginning of a string of symbols. -/
inductive Scan (ε β : Type)
  | stop
  | fail (reason : β)
  | item (record : ε) (length : ℕ)
  deriving DecidableEq, Repr

/-- A way to find records at the beginning of a string of symbols. -/
structure Framing (α ε β : Type) where
  scan : List α → Scan ε β
  item_pos : ∀ {bs : List α} {e : ε} {n : ℕ}, scan bs = .item e n → 0 < n
  item_le : ∀ {bs : List α} {e : ε} {n : ℕ}, scan bs = .item e n → n ≤ bs.length
  item_append : ∀ {bs : List α} {e : ε} {n : ℕ}, scan bs = .item e n →
    ∀ more : List α, scan (bs ++ more) = .item e n
  item_take : ∀ {bs : List α} {e : ε} {n : ℕ}, scan bs = .item e n → scan (bs.take n) = .item e n

namespace Framing

variable {α ε β : Type} (F : Framing α ε β)

/-- Reading from the front of `bs` gives the records `es` and leaves `tail`. -/
inductive Reads : List α → List ε → List α → Prop
  | done (bs : List α) : Reads bs [] bs
  | next {bs : List α} {e : ε} {n : ℕ} {es : List ε} {tail : List α}
      (head : F.scan bs = .item e n) (rest : Reads (bs.drop n) es tail) :
      Reads bs (e :: es) tail

/-- No further record is found at the beginning of `bs`. -/
def Ends (bs : List α) : Prop := ∀ e n, F.scan bs ≠ .item e n

variable {F}

/-- INTERNAL: otherwise there is one. -/
theorem exists_item {bs : List α} (h : ¬F.Ends bs) : ∃ e n, F.scan bs = .item e n := by
  unfold Ends at h
  push Not at h
  exact h

/-- Reading goes on where it left off. -/
theorem Reads.trans {bs mid tail : List α} {es es' : List ε} (h : F.Reads bs es mid)
    (h' : F.Reads mid es' tail) : F.Reads bs (es ++ es') tail := by
  induction h with
  | done bs => exact h'
  | next head _ ih => exact .next head (ih h')

/-- What was read is read also with more symbols behind it. -/
theorem Reads.append {bs tail : List α} {es : List ε} (h : F.Reads bs es tail)
    (more : List α) : F.Reads (bs ++ more) es (tail ++ more) := by
  induction h with
  | done bs => exact .done _
  | @next bs e n es tail head _ ih =>
    refine .next (F.item_append head more) ?_
    rw [List.drop_append_of_le_length (F.item_le head)]
    exact ih

/-- INTERNAL: the tail is the end of the string. -/
theorem Reads.suffix {bs tail : List α} {es : List ε} (h : F.Reads bs es tail) :
    tail <:+ bs := by
  induction h with
  | done bs => exact List.suffix_refl bs
  | next _ _ ih => exact ih.trans (List.drop_suffix _ _)

/-- What was read is read also without what follows. -/
theorem Reads.front {bs tail : List α} {es : List ε} (h : F.Reads bs es tail) :
    ∃ front, bs = front ++ tail ∧ F.Reads front es [] := by
  induction h with
  | done bs => exact ⟨[], rfl, .done []⟩
  | @next bs e n es tail head _ ih =>
    obtain ⟨front, hfront, hreads⟩ := ih
    have hlen : (bs.take n).length = n := List.length_take_of_le (F.item_le head)
    refine ⟨bs.take n ++ front, ?_, .next (F.item_append (F.item_take head) front) ?_⟩
    · rw [List.append_assoc, ← hfront, List.take_append_drop]
    · rwa [List.drop_left' hlen]

/-- INTERNAL: every record takes at least one symbol. -/
theorem Reads.length_le {bs tail : List α} {es : List ε} (h : F.Reads bs es tail) :
    es.length + tail.length ≤ bs.length := by
  induction h with
  | done bs => simp
  | next head _ ih =>
    have hpos := F.item_pos head
    have hle := F.item_le head
    rw [List.length_drop] at ih
    rw [List.length_cons]
    omega

/-- INTERNAL: reading nothing leaves everything. -/
theorem Reads.tail_of_nil {bs tail : List α} (h : F.Reads bs [] tail) : tail = bs := by
  cases h
  rfl

/-- The records up to a tail without a further record are determined. -/
theorem Reads.unique {bs tail tail' : List α} {es es' : List ε} (h : F.Reads bs es tail)
    (hend : F.Ends tail) (h' : F.Reads bs es' tail') (hend' : F.Ends tail') :
    es = es' ∧ tail = tail' := by
  induction h generalizing es' with
  | done bs =>
    cases h' with
    | done => exact ⟨rfl, rfl⟩
    | next head _ => exact absurd head (hend _ _)
  | next head _ ih =>
    cases h' with
    | done => exact absurd head (hend' _ _)
    | next head' rest' =>
      rw [head] at head'
      cases head'
      obtain ⟨rfl, rfl⟩ := ih hend rest'
      exact ⟨rfl, rfl⟩

/-- Every string can be read until no further record is found. -/
theorem exists_reads (bs : List α) : ∃ es tail, F.Reads bs es tail ∧ F.Ends tail := by
  induction hlen : bs.length using Nat.strongRecOn generalizing bs with
  | ind len ih =>
    cases hscan : F.scan bs with
    | stop => exact ⟨[], bs, .done bs, by intro e n h; rw [hscan] at h; cases h⟩
    | fail reason => exact ⟨[], bs, .done bs, by intro e n h; rw [hscan] at h; cases h⟩
    | item e n =>
      have hpos := F.item_pos hscan
      have hle := F.item_le hscan
      obtain ⟨es, tail, hreads, hends⟩ :=
        ih (bs.drop n).length (by rw [List.length_drop]; omega) (bs.drop n) rfl
      exact ⟨e :: es, tail, .next hscan hreads, hends⟩

/-- The encodings of records one after the other are read as these records. -/
theorem reads_flatMap {enc : ε → List α} {es : List ε}
    (henc : ∀ e ∈ es, ∀ rest, F.scan (enc e ++ rest) = .item e (enc e).length)
    (tail : List α) : F.Reads (es.flatMap enc ++ tail) es tail := by
  induction es with
  | nil => exact .done tail
  | cons e es ih =>
    rw [List.flatMap_cons, List.append_assoc]
    refine .next (henc e (List.mem_cons_self ..) _) ?_
    rw [List.drop_left]
    exact ih fun e' he' => henc e' (List.mem_cons_of_mem _ he')

end Framing

end Rkvs.Library
