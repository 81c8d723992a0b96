import Rkvs.Model.SstMerge
import Mathlib.Order.Bounds.Basic

/-!
# Merging the entries of read buffers

What a merge of read buffers is to return, and what it does return. The merge goes up the first keys
of the buffers, and turns to the next one for good: what a buffer still holds then, although its key
is not above the smallest last one, it leaves behind.
-/

set_option autoImplicit false

namespace Rkvs.Interface

open Rkvs.Model

/-- The bytes of entries, each with its length before it. -/
def framedBytes (entries : List SsTableEntry) : ℕ := (entries.map fun e => e.len + 4).sum

/-- The size of a read buffer is that of the entries in it. -/
def Accounted (b : Sst.SegmentReadBuf) : Prop := b.size = framedBytes b.buf

/-- A read buffer with entries in the order of their keys, none of which is empty. -/
structure Filled (b : Sst.SegmentReadBuf) : Prop where
  accounted : Accounted b
  nonempty : b.buf ≠ []
  ascending : b.buf.Pairwise fun e f => e.key < f.key
  keys : ∀ e ∈ b.buf, e.key ≠ ""

/-- The entries of the buffer at a place. -/
def entriesAt (bufs : List Sst.SegmentReadBuf) (i : ℕ) : List SsTableEntry :=
  (bufs[i]?.map Sst.SegmentReadBuf.buf).getD []

/-- The key at the front of a list of entries. -/
def headKey (entries : List SsTableEntry) : Option String := entries.head?.map SsTableEntry.key

/-- The key at its back. -/
def lastKey (entries : List SsTableEntry) : Option String :=
  entries.getLast?.map SsTableEntry.key

/-- The entries of all buffers. -/
def held (bufs : List Sst.SegmentReadBuf) : List (List SsTableEntry) :=
  bufs.map Sst.SegmentReadBuf.buf

/-- `m` is the smallest of the last keys. -/
def SmallestLastKey (lists : List (List SsTableEntry)) (m : String) : Prop :=
  IsLeast {k | ∃ entries ∈ lists, lastKey entries = some k} m

/-- The entries of several lists with the keys for which `p` holds are merged to one list. -/
structure MergedKeys (entries : ℕ → List SsTableEntry) (p : String → Prop)
    (merged : List SsTableEntry) : Prop where
  ascending : merged.Pairwise fun e f => e.key < f.key
  keys : ∀ k, (∃ e ∈ merged, e.key = k) ↔ p k ∧ ∃ i, ∃ e ∈ entries i, e.key = k
  newest : ∀ e ∈ merged, (∃ i, e ∈ entries i) ∧
    ∀ i, ∀ f ∈ entries i, f.key = e.key → f.sequenceNumber ≤ e.sequenceNumber

/-- A buffer without the entries up to a key. -/
def leftAbove (m : String) (b : Sst.SegmentReadBuf) : Sst.SegmentReadBuf :=
  { b with
    buf := b.buf.filter fun e => m < e.key
    size := framedBytes (b.buf.filter fun e => m < e.key) }

/-- The merge returns, if every loop is given rounds enough. -/
def MergeReturns (order : Sst.IterationOrder) (bufs : List Sst.SegmentReadBuf) : Prop :=
  ∃ fuel merged left,
    (Sst.mergeSort order fuel (Sst.readBufRefs bufs)).run bufs = .ok merged left

/-- Whenever the merge returns, it has merged the keys up to `m`, and has left the others where they
were. -/
def MergesUpTo (order : Sst.IterationOrder) (bufs : List Sst.SegmentReadBuf) (m : String) : Prop :=
  ∀ fuel merged left,
    (Sst.mergeSort order fuel (Sst.readBufRefs bufs)).run bufs = .ok merged left →
      MergedKeys (entriesAt bufs) (· ≤ m) merged ∧ left = bufs.map (leftAbove m)

/-! ## What a merge leaves behind -/

/-- A list is overtaken at a key, if one of the lists begins above its first key and not above that
key. -/
def Overtaken (lists : List (List SsTableEntry)) (entries : List SsTableEntry) (key : String) :
    Prop :=
  ∃ k ∈ headKey entries, ∃ others ∈ lists, ∃ k' ∈ headKey others, k < k' ∧ k' ≤ key

instance (lists : List (List SsTableEntry)) (entries : List SsTableEntry) (key : String) :
    Decidable (Overtaken lists entries key) :=
  inferInstanceAs (Decidable (∃ k ∈ headKey entries, ∃ others ∈ lists, ∃ k' ∈ headKey others,
    k < k' ∧ k' ≤ key))

/-- A list is done with before it is overtaken, as far as the keys up to `m` go. -/
def DoneInTime (lists : List (List SsTableEntry)) (m : String) (entries : List SsTableEntry) :
    Prop :=
  ∀ e ∈ entries, e.key ≤ m → ¬Overtaken lists entries e.key

instance (lists : List (List SsTableEntry)) (m : String) (entries : List SsTableEntry) :
    Decidable (DoneInTime lists m entries) :=
  inferInstanceAs (Decidable (∀ e ∈ entries, e.key ≤ m → ¬Overtaken lists entries e.key))

/-- The lists that begin with the same key as another one are done with in time. -/
def SharedDone (lists : List (List SsTableEntry)) (m : String) : Prop :=
  ∀ (i j : ℕ) entries others, i ≠ j → lists[i]? = some entries → lists[j]? = some others →
    headKey entries = headKey others → DoneInTime lists m entries

/-- The lists that begin with a key of their own are done with in time. -/
def AloneDone (lists : List (List SsTableEntry)) (m : String) : Prop :=
  ∀ (i : ℕ) entries, lists[i]? = some entries →
    (∀ (j : ℕ) others, i ≠ j → lists[j]? = some others → headKey entries ≠ headKey others) →
      DoneInTime lists m entries

/-! ## The rounds of a merge -/

/-- The first entries, as many as fit into `n` bytes. -/
def readable : ℕ → List SsTableEntry → List SsTableEntry
  | _, [] => []
  | n, e :: es => if e.len + 4 ≤ n then e :: readable (n - (e.len + 4)) es else []

/-- A merge up to `m` gives up an entry of a list. -/
def GivenUp (lists : List (List SsTableEntry)) (m : String) (entries : List SsTableEntry)
    (e : SsTableEntry) : Prop :=
  e.key ≤ m ∧ ¬Overtaken lists entries e.key

instance (lists : List (List SsTableEntry)) (m : String) (entries : List SsTableEntry)
    (e : SsTableEntry) : Decidable (GivenUp lists m entries e) :=
  inferInstanceAs (Decidable (_ ∧ _))

/-- What a merge up to `m` leaves of a list. -/
def leftOf (lists : List (List SsTableEntry)) (m : String) (entries : List SsTableEntry) :
    List SsTableEntry :=
  entries.filter fun e => ¬GivenUp lists m entries e

/-- The lists are merged in turn. In every round the first entries of each are read, up to `size`
bytes, and what the merge up to the smallest last key leaves is above all that it gives up. -/
inductive MergeInTurn (size : ℕ) : List (List SsTableEntry) → Prop
  | done : MergeInTurn size []
  | round {lists : List (List SsTableEntry)} {m : String}
      (hm : SmallestLastKey (lists.map (readable size)) m)
      (habove : ∀ es ∈ lists, ∀ e ∈ es, GivenUp lists m es e →
        ∀ fs ∈ lists, ∀ f ∈ leftOf lists m fs, e.key < f.key)
      (hrest : MergeInTurn size ((lists.map (leftOf lists m)).filter (· ≠ []))) :
      MergeInTurn size lists

end Rkvs.Interface
