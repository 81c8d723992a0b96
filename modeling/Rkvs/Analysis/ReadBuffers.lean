import Rkvs.Interface.MergeSort
import Mathlib.Algebra.BigOperators.Group.Finset.Basic
import Mathlib.Algebra.Order.BigOperators.Group.Finset

/-!
# Taking entries from read buffers

While entries are taken from the front of the buffers nothing else about the buffers changes. So
they are given by what they were at first and by the entries that each of them still has.
-/

set_option autoImplicit false

namespace Rkvs.Analysis

open Rkvs.Library Rkvs.Model Rkvs.Interface

/-- INTERNAL: a buffer with other entries. -/
def withEntries (b : Sst.SegmentReadBuf) (entries : List SsTableEntry) : Sst.SegmentReadBuf :=
  { b with buf := entries, size := framedBytes entries }

/-- INTERNAL: the buffers with other entries. -/
def bufsWith (start : List Sst.SegmentReadBuf) (E : ℕ → List SsTableEntry) :
    List Sst.SegmentReadBuf :=
  start.mapIdx fun i b => withEntries b (E i)

/-- INTERNAL: the entries of all buffers. -/
def entryCount (start : List Sst.SegmentReadBuf) (E : ℕ → List SsTableEntry) : ℕ :=
  ∑ i ∈ Finset.range start.length, (E i).length

/-- INTERNAL: entries were taken from the fronts of lists and merged. -/
structure Popped (E E' popped : ℕ → List SsTableEntry) (merged : List SsTableEntry) : Prop where
  split : ∀ i, E i = popped i ++ E' i
  merged : MergedKeys popped (fun _ => True) merged

/-- INTERNAL: the first key is the key of the first entry. -/
theorem headKey_eq_some {entries : List SsTableEntry} {k : String} :
    headKey entries = some k ↔ ∃ e, entries.head? = some e ∧ e.key = k := Option.map_eq_some_iff

/-- INTERNAL: the length of one entry more. -/
theorem framedBytes_cons (e : SsTableEntry) (entries : List SsTableEntry) :
    framedBytes (e :: entries) = e.len + 4 + framedBytes entries := List.sum_cons

/-! ## Single buffers -/

section
variable {start : List Sst.SegmentReadBuf} {E : ℕ → List SsTableEntry}

/-- INTERNAL: one of the buffers. -/
theorem bufsWith_getElem? (i : ℕ) : (bufsWith start E)[i]? =
    start[i]?.map fun b => withEntries b (E i) := by
  unfold bufsWith
  rw [List.getElem?_mapIdx]

/-- INTERNAL: the first entry of a buffer. -/
theorem frontAt_bufsWith {i : ℕ} (hi : i < start.length) :
    Sst.frontAt (bufsWith start E) i = (E i).head? := by
  unfold Sst.frontAt
  rw [bufsWith_getElem?, List.getElem?_eq_getElem hi]
  rfl

/-- INTERNAL: the same where there is one. -/
theorem frontAt_head {i : ℕ} {e : SsTableEntry} (hi : i < start.length)
    (h : (E i).head? = some e) : Sst.frontAt (bufsWith start E) i = some e :=
  (frontAt_bufsWith hi).trans h

/-- INTERNAL: the last entry of a buffer. -/
theorem backAt_bufsWith {i : ℕ} (hi : i < start.length) :
    Sst.backAt (bufsWith start E) i = (E i).getLast? := by
  unfold Sst.backAt
  rw [bufsWith_getElem?, List.getElem?_eq_getElem hi]
  rfl

/-- INTERNAL: the buffers with other entries in one of them. -/
theorem bufsWith_set {i : ℕ} {b : Sst.SegmentReadBuf} {entries : List SsTableEntry}
    (hb : start[i]? = some b) :
    (bufsWith start E).set i (withEntries b entries) =
      bufsWith start (Function.update E i entries) := by
  apply List.ext_getElem?
  intro j
  rw [List.getElem?_set, bufsWith_getElem?, bufsWith_getElem?]
  by_cases hij : i = j
  · subst hij
    have hi := (List.getElem?_eq_some_iff.mp hb).1
    have hlength : i < (bufsWith start E).length := by
      unfold bufsWith
      rwa [List.length_mapIdx]
    rw [if_pos rfl, if_pos hlength, hb, Option.map_some, Function.update_self]
  · rw [if_neg hij, Function.update_of_ne fun h => hij h.symm]

/-- INTERNAL: taking the first entry from a buffer. -/
theorem popFront_cons (b : Sst.SegmentReadBuf) (e : SsTableEntry) (rest : List SsTableEntry) :
    (withEntries b (e :: rest)).popFront = .ok (some e, withEntries b rest) := by
  unfold Sst.SegmentReadBuf.popFront withEntries
  dsimp only
  rw [framedBytes_cons, checkedSub_ok (Nat.le_add_right ..), exec_ok_bind, Nat.add_sub_cancel_left]
  rfl

/-- INTERNAL: what is taken from the front of a buffer.
SOURCE: level/segment.rs:641-649 -/
theorem popFrontAt_eq {i : ℕ} {entry : Option SsTableEntry} {rest : List SsTableEntry}
    (hi : i < start.length)
    (h : (withEntries start[i] (E i)).popFront = .ok (entry, withEntries start[i] rest)) :
    (Sst.popFrontAt i).run (bufsWith start E) =
      .ok entry (bufsWith start (Function.update E i rest)) := by
  have hb := List.getElem?_eq_getElem hi
  have hget : unwrap (bufsWith start E)[i]? = .ok (withEntries start[i] (E i)) := by
    rw [bufsWith_getElem?, hb]
    rfl
  unfold Sst.popFrontAt
  rw [run_bind_ok (EStateM.run_get _), hget, run_bind_ok (run_liftExec_ok _ _), h,
    run_bind_ok (run_liftExec_ok _ _), ← bufsWith_set hb]
  rfl

/-- INTERNAL: taking the first entry from one of the buffers. -/
theorem popFrontAt_cons {i : ℕ} {e : SsTableEntry} {rest : List SsTableEntry}
    (hi : i < start.length) (h : E i = e :: rest) :
    (Sst.popFrontAt i).run (bufsWith start E) =
      .ok (some e) (bufsWith start (Function.update E i rest)) := by
  apply popFrontAt_eq hi
  rw [h, popFront_cons]

/-- INTERNAL: an empty buffer stays as it is. -/
theorem popFrontAt_nil {i : ℕ} (hi : i < start.length) (h : E i = []) :
    (Sst.popFrontAt i).run (bufsWith start E) = .ok none (bufsWith start E) := by
  have hpop := @popFrontAt_eq start E i none [] hi (by rw [h]; rfl)
  have hsame : Function.update E i [] = E := by
    rw [← h, Function.update_eq_self]
  rwa [hsame] at hpop

end

/-! ## Merged entries -/

section
variable {E E₁ E₂ p₁ p₂ : ℕ → List SsTableEntry} {a₁ a₂ : List SsTableEntry}

/-- INTERNAL: what is merged from larger keys comes behind. -/
theorem mergedKeys_append (h₁ : MergedKeys p₁ (fun _ => True) a₁)
    (h₂ : MergedKeys p₂ (fun _ => True) a₂)
    (hlt : ∀ i, ∀ e ∈ p₁ i, ∀ j, ∀ f ∈ p₂ j, e.key < f.key) :
    MergedKeys (fun i => p₁ i ++ p₂ i) (fun _ => True) (a₁ ++ a₂) := by
  have hkeys₁ : ∀ e ∈ a₁, ∃ i, e ∈ p₁ i := fun e he => (h₁.newest e he).1
  have hkeys₂ : ∀ e ∈ a₂, ∃ i, e ∈ p₂ i := fun e he => (h₂.newest e he).1
  refine ⟨?_, fun k => ⟨?_, ?_⟩, fun e he => ?_⟩
  · refine List.pairwise_append.mpr ⟨h₁.ascending, h₂.ascending, fun e he f hf => ?_⟩
    obtain ⟨i, hi⟩ := hkeys₁ e he
    obtain ⟨j, hj⟩ := hkeys₂ f hf
    exact hlt i e hi j f hj
  · rintro ⟨e, he, hkey⟩
    refine ⟨trivial, ?_⟩
    obtain he | he := List.mem_append.mp he
    · obtain ⟨i, hi⟩ := hkeys₁ e he
      exact ⟨i, e, List.mem_append_left _ hi, hkey⟩
    · obtain ⟨i, hi⟩ := hkeys₂ e he
      exact ⟨i, e, List.mem_append_right _ hi, hkey⟩
  · rintro ⟨-, i, e, he, hkey⟩
    obtain he | he := List.mem_append.mp he
    · obtain ⟨f, hf, hfkey⟩ := (h₁.keys k).mpr ⟨trivial, i, e, he, hkey⟩
      exact ⟨f, List.mem_append_left _ hf, hfkey⟩
    · obtain ⟨f, hf, hfkey⟩ := (h₂.keys k).mpr ⟨trivial, i, e, he, hkey⟩
      exact ⟨f, List.mem_append_right _ hf, hfkey⟩
  · obtain he | he := List.mem_append.mp he
    · obtain ⟨⟨i, hi⟩, hnewest⟩ := h₁.newest e he
      refine ⟨⟨i, List.mem_append_left _ hi⟩, fun j f hf hkey => ?_⟩
      obtain hf | hf := List.mem_append.mp hf
      · exact hnewest j f hf hkey
      · exact absurd hkey.symm (ne_of_lt (hlt i e hi j f hf))
    · obtain ⟨⟨i, hi⟩, hnewest⟩ := h₂.newest e he
      refine ⟨⟨i, List.mem_append_right _ hi⟩, fun j f hf hkey => ?_⟩
      obtain hf | hf := List.mem_append.mp hf
      · exact absurd hkey (ne_of_lt (hlt j f hf i e hi))
      · exact hnewest j f hf hkey

/-- INTERNAL: nothing is merged from nothing. -/
theorem mergedKeys_nil : MergedKeys (fun _ => []) (fun _ => True) [] := by
  refine ⟨List.Pairwise.nil, fun k => ⟨?_, ?_⟩, fun e he => absurd he List.not_mem_nil⟩
  · rintro ⟨e, he, -⟩
    exact absurd he List.not_mem_nil
  · rintro ⟨-, i, e, he, -⟩
    exact absurd he List.not_mem_nil

/-- INTERNAL: nothing was taken. -/
theorem Popped.nil : Popped E E (fun _ => []) [] := ⟨fun _ => rfl, mergedKeys_nil⟩

/-- INTERNAL: entries taken one after the other, with greater keys later. -/
theorem Popped.append (h₁ : Popped E E₁ p₁ a₁) (h₂ : Popped E₁ E₂ p₂ a₂)
    (hlt : ∀ i, ∀ e ∈ p₁ i, ∀ j, ∀ f ∈ p₂ j, e.key < f.key) :
    Popped E E₂ (fun i => p₁ i ++ p₂ i) (a₁ ++ a₂) := by
  refine ⟨fun i => ?_, mergedKeys_append h₁.merged h₂.merged hlt⟩
  rw [h₁.split i, h₂.split i, List.append_assoc]

/-- INTERNAL: an ascending list holds a key once. -/
theorem eq_of_key_eq {entries : List SsTableEntry}
    (h : entries.Pairwise fun e f => e.key < f.key) {e f : SsTableEntry} (he : e ∈ entries)
    (hf : f ∈ entries) (hkey : e.key = f.key) : e = f := by
  have hnodup : (entries.map SsTableEntry.key).Nodup := List.pairwise_map.mpr (h.imp ne_of_lt)
  exact List.inj_on_of_nodup_map hnodup he hf hkey

/-- INTERNAL: the entries of one list are merged as they are. -/
theorem mergedKeys_single {i : ℕ} {entries : List SsTableEntry}
    (h : entries.Pairwise fun e f => e.key < f.key) :
    MergedKeys (Function.update (fun _ => []) i entries) (fun _ => True) entries := by
  have hmem : ∀ j e, e ∈ Function.update (fun _ => []) i entries j → e ∈ entries := by
    intro j e he
    by_cases hj : j = i
    · subst hj
      rwa [Function.update_self] at he
    · rw [Function.update_of_ne hj] at he
      exact absurd he List.not_mem_nil
  have hself : ∀ e ∈ entries, e ∈ Function.update (fun _ => []) i entries i := by
    intro e he
    rwa [Function.update_self]
  refine ⟨h, fun k => ⟨?_, ?_⟩, fun e he => ⟨⟨i, hself e he⟩, fun j f hf hkey => ?_⟩⟩
  · rintro ⟨e, he, hkey⟩
    exact ⟨trivial, i, e, hself e he, hkey⟩
  · rintro ⟨-, j, e, he, hkey⟩
    exact ⟨e, hmem j e he, hkey⟩
  · rw [eq_of_key_eq h (hmem j f hf) he hkey]

end

/-! ## The only buffer of a round -/

section

variable {start : List Sst.SegmentReadBuf} {m : String} {nextKey : Option String}

/-- INTERNAL: the buffer gives up the entries that belong to the round, by induction on the rounds.
SOURCE: level.rs:638-649 -/
theorem drainRound_eq_ok {i fuel : ℕ} (hi : i < start.length) {E : ℕ → List SsTableEntry}
    {res res' : List SsTableEntry} {bufs' : List Sst.SegmentReadBuf}
    (h : (Sst.drainRound m nextKey i fuel res).run (bufsWith start E) = .ok res' bufs') :
    ∃ popped rest, E i = popped ++ rest ∧ res' = res ++ popped ∧
      bufs' = bufsWith start (Function.update E i rest) ∧
      (∀ e ∈ popped, Sst.inRound m nextKey e.key) ∧
      ∀ e, rest.head? = some e → ¬Sst.inRound m nextKey e.key := by
  induction fuel generalizing E res with
  | zero => cases h
  | succ fuel ih =>
    rw [Sst.drainRound, run_bind_ok (EStateM.run_get _), frontAt_bufsWith hi] at h
    cases hE : E i with
    | nil =>
      rw [hE] at h
      cases h
      refine ⟨[], [], rfl, (List.append_nil _).symm, ?_, fun e he => absurd he List.not_mem_nil,
        fun e he => ?_⟩
      · rw [← hE, Function.update_eq_self]
      · cases he
    | cons e rest =>
      rw [hE] at h
      dsimp only [List.head?_cons] at h
      by_cases hin : Sst.inRound m nextKey e.key = true
      · rw [if_pos hin, run_bind_ok (popFrontAt_cons hi hE), unwrap_some,
          run_bind_ok (run_liftExec_ok _ _)] at h
        obtain ⟨popped, rest', hsplit, hres, hbufs, hround, hstop⟩ := ih h
        rw [Function.update_self] at hsplit
        rw [Function.update_idem] at hbufs
        refine ⟨e :: popped, rest', by rw [hsplit]; rfl, ?_, hbufs, fun f hf => ?_, hstop⟩
        · rw [hres, List.append_assoc]
          rfl
        · obtain rfl | hf := List.mem_cons.mp hf
          · exact hin
          · exact hround f hf
      · rw [if_neg hin] at h
        cases h
        refine ⟨[], e :: rest, rfl, (List.append_nil _).symm, ?_,
          fun f hf => absurd hf List.not_mem_nil, fun f hf => ?_⟩
        · rw [← hE, Function.update_eq_self]
        · cases hf
          exact hin

/-- INTERNAL: this takes no more rounds than there are entries, and one. -/
theorem drainRound_returns {i fuel : ℕ} (hi : i < start.length) {E : ℕ → List SsTableEntry}
    (hfuel : (E i).length < fuel) (res : List SsTableEntry) : ∃ res' bufs',
      (Sst.drainRound m nextKey i fuel res).run (bufsWith start E) = .ok res' bufs' := by
  induction fuel generalizing E res with
  | zero => exact absurd hfuel (Nat.not_lt_zero _)
  | succ fuel ih =>
    rw [Sst.drainRound, run_bind_ok (EStateM.run_get _), frontAt_bufsWith hi]
    cases hE : E i with
    | nil => exact ⟨_, _, rfl⟩
    | cons e rest =>
      dsimp only [List.head?_cons]
      by_cases hin : Sst.inRound m nextKey e.key = true
      · rw [if_pos hin, run_bind_ok (popFrontAt_cons hi hE), unwrap_some,
          run_bind_ok (run_liftExec_ok _ _)]
        apply ih
        rw [hE, List.length_cons] at hfuel
        rw [Function.update_self]
        exact Nat.lt_of_succ_lt_succ hfuel
      · rw [if_neg hin]
        exact ⟨_, _, rfl⟩

/-! ## Several buffers with the same first key -/

/-- INTERNAL: the lists of some buffers without their first entries. -/
def tailsOf (C : List ℕ) (E : ℕ → List SsTableEntry) (i : ℕ) : List SsTableEntry :=
  if i ∈ C then (E i).tail else E i

/-- INTERNAL: the first entries of some buffers. -/
def headsOf (C : List ℕ) (E : ℕ → List SsTableEntry) (i : ℕ) : List SsTableEntry :=
  if i ∈ C then (E i).take 1 else []

/-- INTERNAL: the first entries of some buffers. -/
theorem mem_headsOf {C : List ℕ} {E : ℕ → List SsTableEntry} {i : ℕ} {e : SsTableEntry} :
    e ∈ headsOf C E i ↔ i ∈ C ∧ (E i).head? = some e := by
  unfold headsOf
  by_cases hi : i ∈ C
  · rw [if_pos hi]
    cases E i with
    | nil => simp [hi]
    | cons f rest => simp [hi, eq_comm]
  · rw [if_neg hi]
    simp [hi]

/-- INTERNAL: the newest of first entries with one key is what they are merged to. -/
theorem popped_heads {C : List ℕ} {E : ℕ → List SsTableEntry} {e : SsTableEntry}
    (he : ∃ i ∈ C, (E i).head? = some e)
    (hkey : ∀ i ∈ C, ∀ f, (E i).head? = some f → f.key = e.key)
    (hnewest : ∀ i ∈ C, ∀ f, (E i).head? = some f → f.sequenceNumber ≤ e.sequenceNumber) :
    Popped E (tailsOf C E) (headsOf C E) [e] := by
  refine ⟨fun i => ?_, List.pairwise_singleton .., fun k => ⟨?_, ?_⟩, fun f hf => ?_⟩
  · unfold headsOf tailsOf
    by_cases hi : i ∈ C
    · rw [if_pos hi, if_pos hi]
      cases E i <;> rfl
    · rw [if_neg hi, if_neg hi]
      rfl
  · obtain ⟨i, hi, hhead⟩ := he
    rintro ⟨f, hf, rfl⟩
    rw [List.mem_singleton.mp hf]
    exact ⟨trivial, i, e, mem_headsOf.mpr ⟨hi, hhead⟩, rfl⟩
  · rintro ⟨-, i, f, hf, rfl⟩
    obtain ⟨hi, hhead⟩ := mem_headsOf.mp hf
    exact ⟨e, List.mem_singleton_self e, (hkey i hi f hhead).symm⟩
  · rw [List.mem_singleton.mp hf]
    obtain ⟨i, hi, hhead⟩ := he
    refine ⟨⟨i, mem_headsOf.mpr ⟨hi, hhead⟩⟩, fun j g hg _ => ?_⟩
    obtain ⟨hj, hhead⟩ := mem_headsOf.mp hg
    exact hnewest j hj g hhead

/-- INTERNAL: taking the first entry of one buffer more. -/
theorem tailsOf_cons {i : ℕ} {C : List ℕ} {E : ℕ → List SsTableEntry} (hi : i ∉ C) :
    tailsOf C (Function.update E i (E i).tail) = tailsOf (i :: C) E := by
  funext j
  unfold tailsOf
  by_cases hj : j = i
  · subst hj
    rw [if_neg hi, if_pos (List.mem_cons_self ..), Function.update_self]
  · have hmem : j ∈ i :: C ↔ j ∈ C := by rw [List.mem_cons, or_iff_right hj]
    rw [Function.update_of_ne hj]
    exact if_congr hmem.symm rfl rfl

/-- INTERNAL: the first entries of the buffers are taken, and the newest is kept.
SOURCE: level.rs:652-657 -/
theorem popNewest_ok {C : List ℕ} (hnodup : C.Nodup) (hC : ∀ i ∈ C, i < start.length)
    {E : ℕ → List SsTableEntry} (hne : ∀ i ∈ C, E i ≠ []) (curr : SsTableEntry) :
    ∃ e, (Sst.popNewest C curr).run (bufsWith start E) = .ok e (bufsWith start (tailsOf C E)) ∧
      (e = curr ∨ ∃ i ∈ C, (E i).head? = some e) ∧ curr.sequenceNumber ≤ e.sequenceNumber ∧
      ∀ i ∈ C, ∀ f, (E i).head? = some f → f.sequenceNumber ≤ e.sequenceNumber := by
  induction C generalizing E curr with
  | nil =>
    refine ⟨curr, ?_, Or.inl rfl, le_refl _, fun i hi => absurd hi List.not_mem_nil⟩
    have hsame : tailsOf [] E = E := funext fun i => if_neg List.not_mem_nil
    rw [hsame]
    rfl
  | cons i C ih =>
    obtain ⟨hi, hnodup⟩ := List.nodup_cons.mp hnodup
    have hlt := hC i (List.mem_cons_self ..)
    obtain ⟨f, rest, hE⟩ := List.exists_cons_of_ne_nil (hne i (List.mem_cons_self ..))
    have hothers : ∀ j ∈ C, Function.update E i rest j = E j := fun j hj =>
      Function.update_of_ne (fun h : j = i => hi (h ▸ hj)) ..
    obtain ⟨e, hrun, hfrom, hcurr, hnewest⟩ := @ih hnodup
      (fun j hj => hC j (List.mem_cons_of_mem _ hj)) (Function.update E i rest)
      (fun j hj => by rw [hothers j hj]; exact hne j (List.mem_cons_of_mem _ hj))
      (if f.sequenceNumber > curr.sequenceNumber then f else curr)
    have htails : tailsOf C (Function.update E i rest) = tailsOf (i :: C) E := by
      rw [← tailsOf_cons hi, hE]
      rfl
    have hmax : curr.sequenceNumber ≤ e.sequenceNumber ∧ f.sequenceNumber ≤ e.sequenceNumber := by
      split at hcurr <;> omega
    refine ⟨e, ?_, ?_, hmax.1, fun j hj g hg => ?_⟩
    · rw [Sst.popNewest, run_bind_ok (popFrontAt_cons hlt hE), unwrap_some,
        run_bind_ok (run_liftExec_ok _ _), hrun, htails]
    · obtain hfrom | ⟨j, hj, hhead⟩ := hfrom
      · rw [hfrom]
        split
        · refine Or.inr ⟨i, List.mem_cons_self .., ?_⟩
          rw [hE]
          rfl
        · exact Or.inl rfl
      · rw [hothers j hj] at hhead
        exact Or.inr ⟨j, List.mem_cons_of_mem _ hj, hhead⟩
    · obtain rfl | hj := List.mem_cons.mp hj
      · rw [hE] at hg
        cases hg
        exact hmax.2
      · refine hnewest j hj g ?_
        rwa [hothers j hj]

/-- INTERNAL: a newest of the entries with the smallest key up to `m`, if there is one. -/
def IsPotNext (m : String) (fronts : SsTableEntry → Prop) : Option SsTableEntry → Prop
  | none => ∀ f, fronts f → m < f.key
  | some e => e.key ≤ m ∧ fronts e ∧ ∀ f, fronts f → e.key ≤ f.key ∧
      (f.key = e.key → f.sequenceNumber ≤ e.sequenceNumber)

/-- INTERNAL: one more front.
SOURCE: level.rs:664-674 -/
theorem isPotNext_step {fronts : SsTableEntry → Prop} {pot : Option SsTableEntry}
    (h : IsPotNext m fronts pot) (g : SsTableEntry) :
    IsPotNext m (fun f => fronts f ∨ f = g) (if Sst.replaces m g pot then some g else pot) := by
  cases pot with
  | none =>
    by_cases hle : g.key ≤ m
    · have htake : Sst.replaces m g none = true := decide_eq_true hle
      rw [if_pos htake]
      refine ⟨hle, Or.inr rfl, fun f hf => ?_⟩
      obtain hf | rfl := hf
      · have hlarge := hle.trans_lt (h f hf)
        exact ⟨hlarge.le, fun hsame => absurd hsame (ne_of_gt hlarge)⟩
      · exact ⟨le_refl _, fun _ => le_refl _⟩
    · have hleave : ¬Sst.replaces m g none = true := fun h => hle (of_decide_eq_true h)
      rw [if_neg hleave]
      rintro f (hf | rfl)
      · exact h f hf
      · exact not_le.mp hle
  | some e =>
    obtain ⟨hle, hfrom, hleast⟩ := h
    by_cases hreplace : g.key < e.key ∨ g.key = e.key ∧ e.sequenceNumber < g.sequenceNumber
    · have hsmaller : g.key ≤ e.key := hreplace.elim le_of_lt fun h => h.1.le
      have htake : Sst.replaces m g (some e) = true := decide_eq_true hreplace
      rw [if_pos htake]
      refine ⟨hsmaller.trans hle, Or.inr rfl, fun f hf => ?_⟩
      obtain hf | rfl := hf
      · obtain ⟨hfle, hfnewest⟩ := hleast f hf
        refine ⟨hsmaller.trans hfle, fun hsame => ?_⟩
        obtain hlt | ⟨heq, hnewer⟩ := hreplace
        · exact absurd (hsame ▸ hfle) (not_le.mpr hlt)
        · exact (hfnewest (hsame.trans heq)).trans hnewer.le
      · exact ⟨le_refl _, fun _ => le_refl _⟩
    · have hleave : ¬Sst.replaces m g (some e) = true := fun h => hreplace (of_decide_eq_true h)
      rw [if_neg hleave]
      rw [not_or, not_and] at hreplace
      refine ⟨hle, Or.inl hfrom, fun f hf => ?_⟩
      obtain hf | rfl := hf
      · exact hleast f hf
      · exact ⟨not_lt.mp hreplace.1, fun hsame => not_lt.mp (hreplace.2 hsame)⟩

/-- INTERNAL: the next entry is looked for among the first entries of the buffers.
SOURCE: level.rs:660-679 -/
theorem potNextEntry_spec {C : List ℕ} (hC : ∀ i ∈ C, i < start.length)
    (E : ℕ → List SsTableEntry) :
    IsPotNext m (fun f => ∃ i ∈ C, (E i).head? = some f)
      (Sst.potNextEntry (bufsWith start E) m C) := by
  unfold Sst.potNextEntry
  induction C using List.reverseRecOn with
  | nil =>
    rintro f ⟨i, hi, -⟩
    exact absurd hi List.not_mem_nil
  | append_singleton C i ih =>
    have hlt := hC i (List.mem_append_right _ (List.mem_singleton_self _))
    have hbefore := ih fun j hj => hC j (List.mem_append_left _ hj)
    have hfronts : ∀ f, (∃ j ∈ C ++ [i], (E j).head? = some f) ↔
        (∃ j ∈ C, (E j).head? = some f) ∨ (E i).head? = some f := by
      intro f
      simp only [List.mem_append, List.mem_singleton, or_and_right, exists_or, exists_eq_left]
    simp only [hfronts]
    rw [List.foldl_append, List.foldl_cons, List.foldl_nil, frontAt_bufsWith hlt]
    cases hhead : (E i).head? with
    | none => simpa only [reduceCtorEq, or_false] using hbefore
    | some g => simpa only [Option.some.injEq, eq_comm] using isPotNext_step hbefore g

/-- INTERNAL: the buffers whose first key is `key`. -/
def withHead (key : String) (C : List ℕ) (E : ℕ → List SsTableEntry) : List ℕ :=
  C.filter fun i => headKey (E i) = some key

/-- INTERNAL: every buffer with the key in front gives up its first entry.
SOURCE: level.rs:690-699 -/
theorem popKey_ok {key : String} {C : List ℕ} (hnodup : C.Nodup)
    (hC : ∀ i ∈ C, i < start.length) (E : ℕ → List SsTableEntry) :
    (Sst.popKey key C).run (bufsWith start E) =
      .ok () (bufsWith start (tailsOf (withHead key C E) E)) := by
  induction C generalizing E with
  | nil =>
    have hsame : tailsOf (withHead key [] E) E = E := funext fun i => if_neg List.not_mem_nil
    rw [hsame]
    rfl
  | cons i C ih =>
    obtain ⟨hi, hnodup⟩ := List.nodup_cons.mp hnodup
    have hlt := hC i (List.mem_cons_self ..)
    have hrest := fun E => ih hnodup (fun j hj => hC j (List.mem_cons_of_mem _ hj)) E
    have hskip : headKey (E i) ≠ some key → withHead key (i :: C) E = withHead key C E := by
      intro hkey
      exact List.filter_cons_of_neg (by simpa using hkey)
    rw [Sst.popKey, run_bind_ok (EStateM.run_get _), frontAt_bufsWith hlt]
    cases hE : E i with
    | nil =>
      rw [hskip (by rw [hE]; simp [headKey])]
      exact hrest E
    | cons e rest =>
      dsimp only [List.head?_cons]
      by_cases hkey : key = e.key
      · have hothers : ∀ j ∈ C, Function.update E i rest j = E j := fun j hj =>
          Function.update_of_ne (fun h : j = i => hi (h ▸ hj)) ..
        have hsame : withHead key C (Function.update E i rest) = withHead key C E := by
          apply List.filter_congr
          intro j hj
          rw [hothers j hj]
        have htake : withHead key (i :: C) E = i :: withHead key C E := by
          apply List.filter_cons_of_pos
          rw [hE]
          simp [headKey, hkey]
        have hnot : i ∉ withHead key C E := fun h => hi (List.mem_of_mem_filter h)
        have htails : tailsOf (withHead key C E) (Function.update E i rest) =
            tailsOf (i :: withHead key C E) E := by
          rw [← tailsOf_cons hnot, hE]
          rfl
        rw [if_pos hkey]
        have hstep : ((do
            let _ ← Sst.popFrontAt i
            Sst.popKey key C : Sst.OnBufs Unit)).run (bufsWith start E) =
              (Sst.popKey key C).run (bufsWith start (Function.update E i rest)) :=
          run_bind_ok (popFrontAt_cons hlt hE)
        rw [htake, ← htails, ← hsame, ← hrest]
        exact hstep
      · rw [if_neg hkey, hskip (by rw [hE]; simpa [headKey] using Ne.symm hkey)]
        exact hrest E

/-- INTERNAL: entries that belong to a round were taken from some buffers. -/
structure Worked (m : String) (nextKey : Option String) (C : List ℕ)
    (E E' popped : ℕ → List SsTableEntry) (merged : List SsTableEntry) : Prop where
  taken : Popped E E' popped merged
  others : ∀ i ∉ C, E' i = E i
  within : ∀ i, ∀ e ∈ popped i, Sst.inRound m nextKey e.key

variable {C : List ℕ} {E : ℕ → List SsTableEntry}

/-- INTERNAL: nothing was taken from the other buffers. -/
theorem worked_others {E' popped : ℕ → List SsTableEntry} {merged : List SsTableEntry}
    (h : Worked m nextKey C E E' popped merged) {i : ℕ} (hi : i ∉ C) : popped i = [] := by
  have hsplit := h.taken.split i
  rw [h.others i hi] at hsplit
  exact List.self_eq_append_left.mp hsplit

/-- INTERNAL: an ascending list without its first entry. -/
theorem lt_of_mem_tail {entries : List SsTableEntry} {e f : SsTableEntry}
    (h : entries.Pairwise fun e f => e.key < f.key) (he : entries.head? = some e)
    (hf : f ∈ entries.tail) : e.key < f.key := by
  cases entries with
  | nil => cases he
  | cons g rest =>
    cases he
    exact (List.pairwise_cons.mp h).1 f hf

/-- INTERNAL: behind the first entry of an ascending list the keys are larger. -/
theorem head_le {entries : List SsTableEntry} {e f : SsTableEntry}
    (h : entries.Pairwise fun e f => e.key < f.key) (he : entries.head? = some e)
    (hf : f ∈ entries) : e.key ≤ f.key := by
  cases entries with
  | nil => cases he
  | cons g rest =>
    cases he
    obtain rfl | hf := List.mem_cons.mp hf
    · exact le_refl _
    · exact ((List.pairwise_cons.mp h).1 f hf).le

/-- INTERNAL: without its first entry a buffer still ascends. -/
theorem tailsOf_ascending {G : List ℕ} {i : ℕ}
    (h : (E i).Pairwise fun e f => e.key < f.key) :
    (tailsOf G E i).Pairwise fun e f => e.key < f.key := by
  unfold tailsOf
  split
  · exact h.sublist (List.tail_sublist _)
  · exact h

/-- INTERNAL: fewer entries are left. -/
theorem entryCount_tailsOf {G : List ℕ} {i : ℕ} (hi : i ∈ G) (hlt : i < start.length)
    (hne : E i ≠ []) : entryCount start (tailsOf G E) < entryCount start E := by
  unfold entryCount
  apply Finset.sum_lt_sum
  · intro j _
    unfold tailsOf
    split
    · rw [List.length_tail]
      exact Nat.sub_le ..
    · exact le_refl _
  · refine ⟨i, Finset.mem_range.mpr hlt, ?_⟩
    unfold tailsOf
    rw [if_pos hi, List.length_tail]
    exact Nat.sub_lt (List.length_pos_iff.mpr hne) Nat.one_pos

/-- INTERNAL: once the smallest key is taken, all keys of the buffers are larger. -/
theorem lt_of_mem_tailsOf {key : String}
    (hascending : ∀ i ∈ C, (E i).Pairwise fun e f => e.key < f.key)
    (hleast : ∀ i ∈ C, ∀ f, (E i).head? = some f → key ≤ f.key) {i : ℕ} (hi : i ∈ C)
    {f : SsTableEntry} (hf : f ∈ tailsOf (withHead key C E) E i) : key < f.key := by
  unfold tailsOf at hf
  cases hhead : (E i).head? with
  | none =>
    rw [List.head?_eq_none_iff.mp hhead] at hf
    simp at hf
  | some g =>
    by_cases hmem : i ∈ withHead key C E
    · rw [if_pos hmem] at hf
      have hkey := of_decide_eq_true (List.mem_filter.mp hmem).2
      unfold headKey at hkey
      rw [hhead] at hkey
      rw [← Option.some.inj hkey]
      exact lt_of_mem_tail (hascending i hi) hhead hf
    · rw [if_neg hmem] at hf
      have hne : g.key ≠ key := by
        intro hkey
        apply hmem
        refine List.mem_filter.mpr ⟨hi, decide_eq_true ?_⟩
        unfold headKey
        rw [hhead, Option.map_some, hkey]
      exact (lt_of_le_of_ne (hleast i hi g hhead) hne.symm).trans_le
        (head_le (hascending i hi) hhead hf)

/-- INTERNAL: the smallest key is taken from all buffers that have it in front. -/
theorem popped_pot {e : SsTableEntry}
    (h : IsPotNext m (fun f => ∃ i ∈ C, (E i).head? = some f) (some e)) :
    Popped E (tailsOf (withHead e.key C E) E) (headsOf (withHead e.key C E) E) [e] := by
  obtain ⟨-, ⟨i, hi, hhead⟩, hleast⟩ := h
  have hkey : ∀ j ∈ withHead e.key C E, ∀ f, (E j).head? = some f → f.key = e.key := by
    intro j hj f hf
    have hfront := of_decide_eq_true (List.mem_filter.mp hj).2
    unfold headKey at hfront
    rw [hf] at hfront
    exact Option.some.inj hfront
  apply popped_heads
  · refine ⟨i, List.mem_filter.mpr ⟨hi, decide_eq_true ?_⟩, hhead⟩
    unfold headKey
    rw [hhead, Option.map_some]
  · exact hkey
  · intro j hj f hf
    exact (hleast f ⟨j, List.mem_of_mem_filter hj, hf⟩).2 (hkey j hj f hf)

/-- INTERNAL: the rest of the entries that belong to the round, by induction on the rounds of the
loop. It only stops where no buffer has a key up to `m` left.
SOURCE: level.rs:659-704 -/
theorem mergeRest_eq_ok (hnodup : C.Nodup) (hC : ∀ i ∈ C, i < start.length) {fuel : ℕ}
    (hascending : ∀ i ∈ C, (E i).Pairwise fun e f => e.key < f.key)
    {res res' : List SsTableEntry} {bufs' : List Sst.SegmentReadBuf}
    (h : (Sst.mergeRest m nextKey C fuel res).run (bufsWith start E) = .ok res' bufs') :
    ∃ E' popped merged, res' = res ++ merged ∧ bufs' = bufsWith start E' ∧
      Worked m nextKey C E E' popped merged ∧ ∀ i ∈ C, ∀ e ∈ E' i, m < e.key := by
  induction fuel generalizing E res with
  | zero => cases h
  | succ fuel ih =>
    have hpot := @potNextEntry_spec start m C hC E
    rw [Sst.mergeRest, run_bind_ok (EStateM.run_get _)] at h
    cases hnext : Sst.potNextEntry (bufsWith start E) m C with
    | none =>
      rw [hnext] at h hpot
      cases h
      refine ⟨E, fun _ => [], [], (List.append_nil _).symm, rfl,
        ⟨Popped.nil, fun _ _ => rfl, fun _ _ he => absurd he List.not_mem_nil⟩, fun i hi f hf => ?_⟩
      obtain ⟨g, rest, hE⟩ := List.exists_cons_of_ne_nil (List.ne_nil_of_mem hf)
      have hhead : (E i).head? = some g := by
        rw [hE]
        rfl
      exact (hpot g ⟨i, hi, hhead⟩).trans_le (head_le (hascending i hi) hhead hf)
    | some e =>
      rw [hnext] at h hpot
      dsimp only at h
      by_cases hin : Sst.inRound m nextKey e.key = true
      · rw [if_pos hin, run_bind_ok (popKey_ok hnodup hC E)] at h
        obtain ⟨E', popped, merged, hres, hbufs, hworked, hstop⟩ :=
          ih (fun i hi => tailsOf_ascending (hascending i hi)) h
        have hleast : ∀ i ∈ C, ∀ f, (E i).head? = some f → e.key ≤ f.key := fun i hi f hf =>
          (hpot.2.2 f ⟨i, hi, hf⟩).1
        have hheads : ∀ i, ∀ f ∈ headsOf (withHead e.key C E) E i, f.key = e.key := by
          intro i f hf
          obtain ⟨hi, hhead⟩ := mem_headsOf.mp hf
          have hfront := of_decide_eq_true (List.mem_filter.mp hi).2
          unfold headKey at hfront
          rw [hhead] at hfront
          exact Option.some.inj hfront
        have hlt : ∀ i, ∀ f ∈ headsOf (withHead e.key C E) E i, ∀ j, ∀ g ∈ popped j,
            f.key < g.key := by
          intro i f hf j g hg
          rw [hheads i f hf]
          by_cases hj : j ∈ C
          · apply lt_of_mem_tailsOf hascending hleast hj
            rw [hworked.taken.split j]
            exact List.mem_append_left _ hg
          · rw [worked_others hworked hj] at hg
            exact absurd hg List.not_mem_nil
        refine ⟨E', _, _, ?_, hbufs, ⟨(popped_pot hpot).append hworked.taken hlt, ?_, ?_⟩, hstop⟩
        · rw [hres, List.append_assoc]
        · intro i hi
          rw [hworked.others i hi]
          exact if_neg fun hmem => hi (List.mem_of_mem_filter hmem)
        · intro i f hf
          obtain hf | hf := List.mem_append.mp hf
          · rw [hheads i f hf]
            exact hin
          · exact hworked.within i f hf
      · rw [if_neg hin] at h
        exact ih hascending h

/-- INTERNAL: it does stop if every key up to `m` belongs to the round.
SOURCE: level.rs:659-704 -/
theorem mergeRest_returns (hnodup : C.Nodup) (hC : ∀ i ∈ C, i < start.length) {fuel : ℕ}
    (hfuel : entryCount start E < fuel)
    (hround : ∀ i ∈ C, ∀ e ∈ E i, e.key ≤ m → Sst.inRound m nextKey e.key)
    (res : List SsTableEntry) : ∃ res' bufs',
      (Sst.mergeRest m nextKey C fuel res).run (bufsWith start E) = .ok res' bufs' := by
  induction fuel generalizing E res with
  | zero => exact absurd hfuel (Nat.not_lt_zero _)
  | succ fuel ih =>
    have hpot := @potNextEntry_spec start m C hC E
    rw [Sst.mergeRest, run_bind_ok (EStateM.run_get _)]
    cases hnext : Sst.potNextEntry (bufsWith start E) m C with
    | none => exact ⟨_, _, rfl⟩
    | some e =>
      rw [hnext] at hpot
      dsimp only
      obtain ⟨hle, ⟨i, hi, hhead⟩, -⟩ := hpot
      have hmem : e ∈ E i := List.mem_of_mem_head? hhead
      rw [if_pos (hround i hi e hmem hle), run_bind_ok (popKey_ok hnodup hC E)]
      have hfront : i ∈ withHead e.key C E := by
        refine List.mem_filter.mpr ⟨hi, decide_eq_true ?_⟩
        unfold headKey
        rw [hhead, Option.map_some]
      have hfewer := entryCount_tailsOf hfront (hC i hi) (List.ne_nil_of_mem hmem)
      apply ih (by omega)
      intro j hj f hf
      apply hround j hj f
      unfold tailsOf at hf
      split at hf
      · exact List.mem_of_mem_tail hf
      · exact hf

/-- INTERNAL: all buffers with the first key of the round have it in front. -/
theorem mergeSeveral_run (hnodup : C.Nodup) (hC : ∀ i ∈ C, i < start.length) (hne : C ≠ [])
    {c : String} (hkey : ∀ i ∈ C, headKey (E i) = some c) (fuel : ℕ) (res : List SsTableEntry) :
    ∃ e, e.key = c ∧ Popped E (tailsOf C E) (headsOf C E) [e] ∧
      (Sst.mergeSeveral m nextKey C fuel res).run (bufsWith start E) =
        (Sst.mergeRest m nextKey C fuel (res ++ [e])).run (bufsWith start (tailsOf C E)) := by
  have hfront : ∀ i ∈ C, ∃ f, (E i).head? = some f ∧ f.key = c := fun i hi =>
    Option.map_eq_some_iff.mp (hkey i hi)
  have hsome : ∀ i ∈ C, E i ≠ [] := by
    intro i hi hE
    obtain ⟨f, hf, -⟩ := hfront i hi
    rw [hE] at hf
    cases hf
  obtain ⟨first, C', rfl⟩ := List.exists_cons_of_ne_nil hne
  have hfirst : first ∈ first :: C' := List.mem_cons_self ..
  obtain ⟨f, hf, hfkey⟩ := hfront first hfirst
  obtain ⟨e, hrun, hfrom, -, hnewest⟩ := popNewest_ok hnodup hC hsome f
  have hfrom : ∃ i ∈ first :: C', (E i).head? = some e := by
    obtain rfl | hfrom := hfrom
    · exact ⟨first, hfirst, hf⟩
    · exact hfrom
  have hekey : e.key = c := by
    obtain ⟨i, hi, hhead⟩ := hfrom
    obtain ⟨g, hg, hgkey⟩ := hfront i hi
    rw [hhead] at hg
    cases hg
    exact hgkey
  refine ⟨e, hekey, popped_heads hfrom (fun i hi g hg => ?_) hnewest, ?_⟩
  · obtain ⟨g', hg', hgkey⟩ := hfront i hi
    rw [hg] at hg'
    cases hg'
    rw [hgkey, hekey]
  · unfold Sst.mergeSeveral
    rw [List.head?_cons, unwrap_some, run_bind_ok (run_liftExec_ok _ _),
      run_bind_ok (EStateM.run_get _), frontAt_head (hC first hfirst) hf, unwrap_some,
      run_bind_ok (run_liftExec_ok _ _), run_bind_ok hrun]

/-- INTERNAL: the work on several buffers with the first key of the round.
SOURCE: level.rs:651-704 -/
theorem mergeSeveral_eq_ok (hnodup : C.Nodup) (hC : ∀ i ∈ C, i < start.length) (hne : C ≠ [])
    {c : String} (hkey : ∀ i ∈ C, headKey (E i) = some c) (hc : Sst.inRound m nextKey c)
    (hascending : ∀ i ∈ C, (E i).Pairwise fun e f => e.key < f.key) {fuel : ℕ}
    {res res' : List SsTableEntry} {bufs' : List Sst.SegmentReadBuf}
    (h : (Sst.mergeSeveral m nextKey C fuel res).run (bufsWith start E) = .ok res' bufs') :
    ∃ E' popped merged, res' = res ++ merged ∧ bufs' = bufsWith start E' ∧
      Worked m nextKey C E E' popped merged ∧ ∀ i ∈ C, ∀ e ∈ E' i, m < e.key := by
  obtain ⟨e, hekey, hheads, hrun⟩ := @mergeSeveral_run start m nextKey C E hnodup hC hne c hkey
    fuel res
  rw [hrun] at h
  obtain ⟨E', popped, merged, hres, hbufs, hworked, hstop⟩ :=
    mergeRest_eq_ok hnodup hC (fun i hi => tailsOf_ascending (hascending i hi)) h
  have hkeys : ∀ i, ∀ f ∈ headsOf C E i, f.key = c := by
    intro i f hf
    obtain ⟨hi, hhead⟩ := mem_headsOf.mp hf
    have hfront := hkey i hi
    unfold headKey at hfront
    rw [hhead] at hfront
    exact Option.some.inj hfront
  have hlt : ∀ i, ∀ f ∈ headsOf C E i, ∀ j, ∀ g ∈ popped j, f.key < g.key := by
    intro i f hf j g hg
    rw [hkeys i f hf]
    by_cases hj : j ∈ C
    · obtain ⟨g', hg', hgkey⟩ := Option.map_eq_some_iff.mp (hkey j hj)
      rw [← hgkey]
      apply lt_of_mem_tail (hascending j hj) hg'
      have hmem : g ∈ tailsOf C E j := by
        rw [hworked.taken.split j]
        exact List.mem_append_left _ hg
      unfold tailsOf at hmem
      rwa [if_pos hj] at hmem
    · rw [worked_others hworked hj] at hg
      exact absurd hg List.not_mem_nil
  refine ⟨E', _, _, ?_, hbufs, ⟨hheads.append hworked.taken hlt, ?_, ?_⟩, hstop⟩
  · rw [hres, List.append_assoc]
  · intro i hi
    rw [hworked.others i hi]
    exact if_neg hi
  · intro i f hf
    obtain hf | hf := List.mem_append.mp hf
    · rw [hkeys i f hf]
      exact hc
    · exact hworked.within i f hf

/-- INTERNAL: merging a group returns if the round takes all of its keys up to the smallest last
one. -/
theorem mergeSeveral_returns (hnodup : C.Nodup) (hC : ∀ i ∈ C, i < start.length) (hne : C ≠ [])
    {c : String} (hkey : ∀ i ∈ C, headKey (E i) = some c)
    (hround : ∀ i ∈ C, ∀ e ∈ E i, e.key ≤ m → Sst.inRound m nextKey e.key) {fuel : ℕ}
    (hfuel : entryCount start E < fuel) (res : List SsTableEntry) : ∃ res' bufs',
      (Sst.mergeSeveral m nextKey C fuel res).run (bufsWith start E) = .ok res' bufs' := by
  obtain ⟨e, -, -, hrun⟩ := @mergeSeveral_run start m nextKey C E hnodup hC hne c hkey fuel res
  rw [hrun]
  obtain ⟨i, hi⟩ := List.exists_mem_of_ne_nil _ hne
  have hsome : E i ≠ [] := by
    intro hE
    have hfront := hkey i hi
    rw [hE] at hfront
    cases hfront
  have hfewer := entryCount_tailsOf hi (hC i hi) hsome
  apply mergeRest_returns hnodup hC (by omega)
  intro j hj f hf
  apply hround j hj f
  unfold tailsOf at hf
  rw [if_pos hj] at hf
  exact List.mem_of_mem_tail hf

/-- INTERNAL: the work on a single buffer. -/
theorem worked_single {i : ℕ} {popped left : List SsTableEntry}
    (hascending : (E i).Pairwise fun e f => e.key < f.key) (hsplit : E i = popped ++ left)
    (hround : ∀ e ∈ popped, Sst.inRound m nextKey e.key) :
    Worked m nextKey [i] E (Function.update E i left)
      (Function.update (fun _ => []) i popped) popped := by
  rw [hsplit] at hascending
  refine ⟨⟨fun j => ?_, mergedKeys_single (List.pairwise_append.mp hascending).1⟩,
    fun j hj => Function.update_of_ne (fun h => hj (List.mem_singleton.mpr h)) ..,
    fun j e he => ?_⟩
  · by_cases hj : j = i
    · subst hj
      rw [Function.update_self, Function.update_self, hsplit]
    · rw [Function.update_of_ne hj, Function.update_of_ne hj]
      rfl
  · by_cases hj : j = i
    · subst hj
      rw [Function.update_self] at he
      exact hround e he
    · rw [Function.update_of_ne hj] at he
      exact absurd he List.not_mem_nil

/-- INTERNAL: several buffers. -/
theorem one_lt_length (hne : C ≠ []) (h : ¬∃ i, C = [i]) : 1 < C.length := by
  obtain ⟨i, C', rfl⟩ := List.exists_cons_of_ne_nil hne
  cases C' with
  | nil => exact absurd ⟨i, rfl⟩ h
  | cons j C' => simp

end

end Rkvs.Analysis
