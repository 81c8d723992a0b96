import Rkvs.Analysis.SstEntries

/-!
# Entries with gaps

Where some bytes of entries are replaced by zeros, the decoder finds the same entries only if the
bytes were zeros before.
-/

set_option autoImplicit false

namespace Rkvs.Analysis

open Rkvs.Library Rkvs.Model Rkvs.Interface

/-- The bytes are those of the other list or zeros. -/
def Gapped (bytes full : Bytes) : Prop := List.Forall₂ (fun x y => x = y ∨ x = 0) bytes full

/-- INTERNAL: a number does not get larger by gaps. -/
theorem Gapped.leValue_le {bytes full : Bytes} (h : Gapped bytes full) :
    leValue bytes ≤ leValue full := by
  induction h with
  | nil => exact le_refl _
  | @cons x y xs ys hxy _ ih =>
    have hhead : x.toNat ≤ y.toNat := by
      obtain rfl | rfl := hxy
      · exact le_refl _
      · exact Nat.zero_le _
    unfold leValue
    omega

/-- INTERNAL: an entry that is found in its gapped bytes has lost nothing. -/
theorem Gapped.eq_toBytes {bytes : Bytes} {e : SsTableEntry} (h : Gapped bytes e.toBytes)
    (hresembles : Resembles e bytes) : bytes = e.toBytes := by
  obtain ⟨mark, rfl, hmark⟩ := hresembles
  rw [toBytes_eq_markedBytes] at h ⊢
  have hlen := h.length_eq
  have hplace : ∀ m : UInt8, (markedBytes e m)[4 + (asBytes e.key).length + 4]? = some m := by
    intro m
    refine getElem?_middle (leBytes 4 (asBytes e.key).length ++ asBytes e.key ++
      leBytes 4 (e.value.elim 0 fun v => (asBytes v).length))
      (e.value.elim [] asBytes ++ leBytes 8 e.sequenceNumber) ?_ (by simp; omega)
    unfold markedBytes
    simp
  obtain ⟨hlt, hget⟩ := List.getElem?_eq_some_iff.mp (hplace mark)
  obtain ⟨hlt', hget'⟩ := List.getElem?_eq_some_iff.mp (hplace (if e.value = none then 1 else 0))
  have hboth := h.get hlt hlt'
  rw [List.get_eq_getElem, List.get_eq_getElem, hget, hget'] at hboth
  by_cases hnone : e.value = none
  · rw [if_pos hnone, hmark.mpr hnone]
  · rw [if_neg hnone, or_self_iff] at hboth
    rw [if_neg hnone, hboth]

/-- INTERNAL: the loop keeps what it has found.
SOURCE: sstable.rs:218-233 -/
theorem vecFromBytesLoop_prefix {buf : Bytes} {fuel offset : ℕ} {res out : List SsTableEntry}
    (h : SsTableEntry.vecFromBytesLoop buf fuel offset res = .ok out) : res <+: out := by
  induction fuel generalizing offset res with
  | zero => cases h
  | succ fuel ih =>
    rw [SsTableEntry.vecFromBytesLoop] at h
    split at h
    · obtain ⟨len, -, h₁⟩ := exec_bind_eq_ok.mp h
      obtain ⟨bytes, -, h₂⟩ := exec_bind_eq_ok.mp h₁
      obtain ⟨entry, -, hrest⟩ := exec_bind_eq_ok.mp h₂
      exact (List.prefix_append res [entry]).trans (ih hrest)
    · cases h
      exact List.prefix_refl _

/-- The loop finds the entries in their gapped bytes only if nothing is lost.
SOURCE: sstable.rs:218-233 -/
theorem vecFromBytesLoop_gapped {es : List SsTableEntry} (hfits : ∀ e ∈ es, EntryFits e)
    {front bytes : Bytes} (hgapped : Gapped bytes (dataBlock es)) {fuel : ℕ}
    {res : List SsTableEntry}
    (h : SsTableEntry.vecFromBytesLoop (front ++ bytes) fuel front.length res = .ok (res ++ es)) :
    bytes = dataBlock es := by
  induction es generalizing front bytes fuel res with
  | nil => exact List.forall₂_nil_right_iff.mp hgapped
  | cons e es ih =>
    rw [dataBlock_cons] at hgapped ⊢
    have hlength := hgapped.length_eq
    rw [List.length_append, frame_length] at hlength
    have hfit := hfits e (List.mem_cons_self ..)
    cases fuel with
    | zero => cases h
    | succ fuel =>
      rw [SsTableEntry.vecFromBytesLoop, if_pos (by rw [List.length_append]; omega)] at h
      obtain ⟨len, hlen, h₁⟩ := exec_bind_eq_ok.mp h
      dsimp only at h₁
      obtain ⟨slice, hslice, h₂⟩ := exec_bind_eq_ok.mp h₁
      obtain ⟨entry, hentry, hrest⟩ := exec_bind_eq_ok.mp h₂
      obtain ⟨-, hnumber⟩ := sliceU32_eq_ok hlen
      obtain ⟨-, hin, rfl⟩ := slice_eq_ok hslice
      rw [List.drop_left] at hnumber
      rw [Nat.add_sub_cancel_left, ← List.drop_drop, List.drop_left] at hentry
      rw [List.length_append] at hin
      -- the entry is the one that was written
      have hsame : entry = e := by
        obtain ⟨more, hmore⟩ := vecFromBytesLoop_prefix hrest
        rw [List.append_assoc] at hmore
        exact (List.cons_eq_cons.mp (List.append_cancel_left hmore)).1
      subst hsame
      -- its length is
      have hfour : Gapped (bytes.take 4) (leBytes 4 entry.len) := by
        have htake := List.forall₂_take 4 hgapped
        unfold frame at htake
        rwa [toBytes_length, List.append_assoc, List.take_left' (by simp)] at htake
      have hle : len ≤ entry.len := by
        have hvalue := hfour.leValue_le
        rwa [leValue_leBytes hfit.len_lt, ← hnumber] at hvalue
      have hbytesLen : ((bytes.drop 4).take len).length = len := by
        rw [List.length_take, List.length_drop]
        omega
      have hresembles := resembles_of_fromBytes hentry (by omega)
      have hexact : len = entry.len := by
        obtain ⟨mark, hmarked, -⟩ := hresembles
        rw [← hbytesLen, hmarked, markedBytes_length]
      -- its bytes are
      have hbody : Gapped ((bytes.drop 4).take entry.len) entry.toBytes := by
        have htake := List.forall₂_take entry.len (List.forall₂_drop 4 hgapped)
        unfold frame at htake
        rwa [List.append_assoc, List.drop_left' (by simp),
          List.take_left' (toBytes_length entry)] at htake
      rw [hexact] at hresembles hnumber hrest
      have hwhole := hbody.eq_toBytes hresembles
      have hheader : bytes.take 4 = leBytes 4 entry.len := by
        have hback := leBytes_leValue (bytes.take 4)
        rw [List.length_take, Nat.min_eq_left (by omega), ← hnumber] at hback
        exact hback.symm
      have hframe : bytes.take (entry.len + 4) = frame entry := by
        rw [Nat.add_comm, List.take_add, hheader, hwhole]
        simp [frame]
      -- and the rest is read behind it
      have hsplit : bytes = frame entry ++ bytes.drop (entry.len + 4) := by
        rw [← hframe, List.take_append_drop]
      have hrear : Gapped (bytes.drop (entry.len + 4)) (dataBlock es) := by
        have hdrop := List.forall₂_drop (entry.len + 4) hgapped
        rwa [List.drop_left' (frame_length entry)] at hdrop
      have hplace : front.length + 4 + entry.len = (front ++ frame entry).length := by
        rw [List.length_append, frame_length]
        omega
      have hread : SsTableEntry.vecFromBytesLoop (front ++ frame entry ++ bytes.drop (entry.len + 4))
          fuel (front ++ frame entry).length (res ++ [entry]) = .ok (res ++ [entry] ++ es) := by
        rw [List.append_assoc front, ← hsplit, ← hplace, hrest, List.append_assoc]
        rfl
      calc bytes = frame entry ++ bytes.drop (entry.len + 4) := hsplit
        _ = frame entry ++ dataBlock es := by
          rw [ih (fun f hf => hfits f (List.mem_cons_of_mem _ hf)) hrear hread]

/-- SOURCE: sstable.rs:218-233 -/
theorem vecFromBytes_gapped {es : List SsTableEntry} (hfits : ∀ e ∈ es, EntryFits e) {bytes : Bytes}
    (hgapped : Gapped bytes (dataBlock es)) :
    SsTableEntry.vecFromBytes bytes = .ok es ↔ bytes = dataBlock es := by
  constructor
  · intro h
    exact @vecFromBytesLoop_gapped es hfits [] bytes hgapped _ [] h
  · rintro rfl
    exact vecFromBytes_ok hfits

end Rkvs.Analysis
