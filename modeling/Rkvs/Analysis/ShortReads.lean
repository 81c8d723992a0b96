import Rkvs.Analysis.GappedBytes
import Rkvs.Interface.ShortReads

/-!
# What a loop reads in pieces

The loop that counts its pieces right gives what one complete read gives. The one that moves on by
the sum of all reads does so for two pieces; behind them it skips bytes, and it panics when it gets
behind its buffer.
-/

set_option autoImplicit false

namespace Rkvs.Analysis

open Rkvs.Library Rkvs.Model Rkvs.Interface

/-! ## Places -/

section
variable (schedule : Sst.Schedule) (len : ℕ)

/-- INTERNAL: nothing is read before the first call. -/
@[simp] theorem bytesBefore_zero : bytesBefore schedule len 0 = 0 := rfl

/-- INTERNAL: the first call reads at the start. -/
@[simp] theorem place_zero : place schedule len 0 = 0 := rfl

/-- INTERNAL: the bytes read by one call more. -/
theorem bytesBefore_succ (call : ℕ) : bytesBefore schedule len (call + 1) =
    bytesBefore schedule len call + piece schedule len call := rfl

/-- INTERNAL: the next call skips what all calls before it have read. -/
theorem place_succ (call : ℕ) : place schedule len (call + 1) =
    place schedule len call + bytesBefore schedule len (call + 1) := rfl

/-- INTERNAL: no call reads before the bytes that were read. -/
theorem bytesBefore_le_place (call : ℕ) :
    bytesBefore schedule len call ≤ place schedule len call := by
  cases call with
  | zero => exact le_refl _
  | succ call =>
    rw [place_succ]
    omega

/-- INTERNAL: each call reads behind the one before. -/
theorem place_mono : Monotone (place schedule len) :=
  monotone_nat_of_le_succ fun call => by
    rw [place_succ]
    omega

variable {schedule len}

/-- INTERNAL: every call that has room delivers a byte. -/
theorem call_le_bytesBefore {call : ℕ} (h : ∀ i < call, place schedule len i < len) :
    call ≤ bytesBefore schedule len call := by
  induction call with
  | zero => exact le_refl _
  | succ call ih =>
    have hbefore := ih fun i hi => h i (by omega)
    have hroom := h call (by omega)
    rw [bytesBefore_succ]
    unfold piece
    omega

/-- INTERNAL: the calls with room are not more than the bytes. -/
theorem call_le_len {call : ℕ} (h : ∀ i < call, place schedule len i < len) : call ≤ len := by
  cases call with
  | zero => exact Nat.zero_le _
  | succ call =>
    have hbytes := call_le_bytesBefore fun i (hi : i < call) => h i (by omega)
    have hplace := bytesBefore_le_place schedule len call
    have hroom := h call (by omega)
    omega

/-- INTERNAL: there is one first place without room. -/
theorem stop_unique {n m : ℕ} (hn : len ≤ place schedule len n)
    (hn' : ∀ i < n, place schedule len i < len) (hm : len ≤ place schedule len m)
    (hm' : ∀ i < m, place schedule len i < len) : n = m := by
  apply le_antisymm
  · by_contra hlt
    have hearlier := hn' m (Nat.lt_of_not_le hlt)
    omega
  · by_contra hlt
    have hearlier := hm' n (Nat.lt_of_not_le hlt)
    omega

/-- INTERNAL: the loop leaves its buffer or not where the first place without room is. -/
theorem within_iff {n : ℕ} (hstop : len ≤ place schedule len n)
    (hbefore : ∀ i < n, place schedule len i < len) :
    Within schedule len ↔ ¬(bytesBefore schedule len n < len ∧ len < place schedule len n) := by
  constructor
  · rintro h ⟨hbytes, hplace⟩
    cases n with
    | zero =>
      rw [place_zero] at hplace
      omega
    | succ call =>
      have hlast := h call (hbefore call (by omega)) hstop
      omega
  · intro h call hroom hnext
    have hlast : call + 1 = n := by
      refine stop_unique hnext (fun i hi => ?_) hstop hbefore
      exact (place_mono schedule len (Nat.le_of_lt_succ hi)).trans_lt hroom
    subst hlast
    omega

end

/-! ## The buffer -/

/-- INTERNAL: what is written over a part of a buffer. -/
theorem getElem?_overwrite {buf bytes : Bytes} {pos : ℕ} (hpos : pos ≤ buf.length) (p : ℕ) :
    (Dir.overwrite buf pos bytes)[p]? =
      if pos ≤ p ∧ p < pos + bytes.length then bytes[p - pos]? else buf[p]? := by
  unfold Dir.overwrite
  have htake : (buf.take pos).length = pos := by
    rw [List.length_take]
    omega
  by_cases hlow : p < pos
  · rw [if_neg (by omega), List.append_assoc, List.getElem?_append_left (by omega),
      List.getElem?_take_of_lt hlow]
  rw [List.append_assoc, List.getElem?_append_right (by omega), htake]
  by_cases hhigh : p < pos + bytes.length
  · rw [if_pos (by omega), List.getElem?_append_left (by omega)]
  · rw [if_neg (by omega), List.getElem?_append_right (by omega), List.getElem?_drop]
    congr 1
    omega

section
variable (schedule : Sst.Schedule) (len : ℕ)

/-- What is in the buffer before a call. -/
def filledBefore (call : ℕ) (bytes : Bytes) : Bytes :=
  (List.range len).map fun p =>
    if ∃ i < call, place schedule len i ≤ p ∧ p < place schedule len i + piece schedule len i then
      bytes.getD p 0
    else 0

/-- INTERNAL: reading does not change the length of the buffer. -/
@[simp] theorem filledBefore_length (call : ℕ) (bytes : Bytes) :
    (filledBefore schedule len call bytes).length = len := by
  simp [filledBefore]

/-- INTERNAL: nor do all calls together. -/
@[simp] theorem filled_length (bytes : Bytes) : (filled schedule len bytes).length = len := by
  simp [filled]

/-- INTERNAL: the buffer is zeros before the first call. -/
theorem filledBefore_zero (bytes : Bytes) :
    filledBefore schedule len 0 bytes = List.replicate len 0 := by
  simp [filledBefore]

variable {schedule len}

/-- INTERNAL: a byte of the buffer is one of the file where a call has read, and zero elsewhere. -/
theorem getElem?_filledBefore (call : ℕ) (bytes : Bytes) {p : ℕ} (hp : p < len) :
    (filledBefore schedule len call bytes)[p]? = some (
      if ∃ i < call, place schedule len i ≤ p ∧ p < place schedule len i + piece schedule len i then
        bytes.getD p 0
      else 0) := by
  unfold filledBefore
  rw [List.getElem?_map, List.getElem?_range hp]
  rfl

/-- INTERNAL: a call puts its bytes into their place. -/
theorem filledBefore_succ {call : ℕ} {bytes : Bytes} (hlen : len ≤ bytes.length)
    (hplace : place schedule len call ≤ len) :
    Dir.overwrite (filledBefore schedule len call bytes) (place schedule len call)
      ((bytes.drop (place schedule len call)).take (piece schedule len call)) =
        filledBefore schedule len (call + 1) bytes := by
  have hpiece : place schedule len call + piece schedule len call ≤ len := by
    unfold piece
    omega
  have hcount : ((bytes.drop (place schedule len call)).take (piece schedule len call)).length =
      piece schedule len call := by
    rw [List.length_take, List.length_drop]
    omega
  apply List.ext_getElem?
  intro p
  rw [getElem?_overwrite (by rwa [filledBefore_length]), hcount]
  by_cases hp : p < len
  · rw [getElem?_filledBefore _ _ hp, getElem?_filledBefore _ _ hp]
    by_cases hnow : place schedule len call ≤ p ∧ p < place schedule len call +
        piece schedule len call
    · rw [if_pos hnow, if_pos ⟨call, Nat.lt_succ_self call, hnow⟩,
        List.getElem?_take_of_lt (by omega), List.getElem?_drop, Nat.add_sub_cancel' hnow.1,
        List.getD_eq_getElem?_getD, List.getElem?_eq_getElem (by omega)]
      rfl
    · rw [if_neg hnow]
      congr 1
      refine if_congr ⟨?_, ?_⟩ rfl rfl
      · rintro ⟨i, hi, hin⟩
        exact ⟨i, by omega, hin⟩
      · rintro ⟨i, hi, hin⟩
        obtain rfl | hlt := Nat.lt_succ_iff_lt_or_eq.mp hi |>.symm
        · exact absurd hin hnow
        · exact ⟨i, hlt, hin⟩
  · rw [if_neg (by omega), List.getElem?_eq_none (by simpa using hp),
      List.getElem?_eq_none (by simpa using hp)]

/-- INTERNAL: nothing is read once there is no room. -/
theorem filled_eq_filledBefore {n : ℕ} {bytes : Bytes} (hstop : len ≤ place schedule len n)
    (hbefore : ∀ i < n, place schedule len i < len) :
    filledBefore schedule len n bytes = filled schedule len bytes := by
  unfold filledBefore filled
  apply List.map_congr_left
  intro p hp
  have hp := List.mem_range.mp hp
  have hle := call_le_len hbefore
  refine if_congr ⟨?_, ?_⟩ rfl rfl
  · rintro ⟨i, hi, hin⟩
    exact ⟨i, by omega, hin⟩
  · rintro ⟨i, -, hlow, hhigh⟩
    refine ⟨i, ?_, hlow, hhigh⟩
    by_contra hge
    have hmono := place_mono schedule len (Nat.le_of_not_lt hge)
    unfold piece at hhigh
    omega

/-- INTERNAL: a call with room and the bytes that it delivers. -/
theorem deliver_eq (file : Bytes) (start call : ℕ) :
    Sst.deliver schedule call file (start + place schedule len call)
      (len - place schedule len call) =
        ((file.drop start).drop (place schedule len call)).take (piece schedule len call) := by
  unfold Sst.deliver piece
  rw [List.drop_drop]

/-- INTERNAL: one round of a loop that has not filled its buffer. -/
theorem readLoop_call {advance : ℕ → ℕ → ℕ} {file buf bytes : Bytes}
    {fuel call bytesRead bufOffset currOffset : ℕ} (hlen : buf.length = len)
    (hmore : bytesRead < len) (hin : bufOffset ≤ len)
    (hbytes : Sst.deliver schedule call file currOffset (len - bufOffset) = bytes)
    (hread : bytesRead + bytes.length < 2 ^ 64)
    (hbuf : bufOffset + advance (bytesRead + bytes.length) bytes.length < 2 ^ 64)
    (hcurr : currOffset + advance (bytesRead + bytes.length) bytes.length < 2 ^ 64) :
    Sst.readLoop advance schedule file (fuel + 1) call buf bytesRead bufOffset currOffset =
      if bytes.length = 0 then .ok (Dir.overwrite buf bufOffset bytes, bytesRead + bytes.length,
        currOffset + advance (bytesRead + bytes.length) bytes.length)
      else Sst.readLoop advance schedule file fuel (call + 1) (Dir.overwrite buf bufOffset bytes)
        (bytesRead + bytes.length) (bufOffset + advance (bytesRead + bytes.length) bytes.length)
        (currOffset + advance (bytesRead + bytes.length) bytes.length) := by
  subst hlen
  rw [Sst.readLoop, if_pos hmore, assert_true hin, exec_ok_bind]
  dsimp only
  rw [hbytes, checkedAdd_ok hread, exec_ok_bind, checkedAdd_ok hbuf, exec_ok_bind,
    checkedAdd_ok hcurr, exec_ok_bind]
  exact if_congr List.length_eq_zero_iff.symm rfl rfl

/-- INTERNAL: a round of the loop that moves on by the sum of all reads, with its piece. -/
theorem readLoop_piece {file : Bytes} {start fuel call : ℕ} (hfile : start + len ≤ file.length)
    (hsize : file.length < 2 ^ 63) (hmore : bytesBefore schedule len call < len)
    (hin : place schedule len call ≤ len) :
    Sst.readLoop Sst.byTotal schedule file (fuel + 1) call
        (filledBefore schedule len call (file.drop start)) (bytesBefore schedule len call)
        (place schedule len call) (start + place schedule len call) =
      if piece schedule len call = 0 then
        .ok (filledBefore schedule len (call + 1) (file.drop start),
          bytesBefore schedule len (call + 1), start + place schedule len (call + 1))
      else Sst.readLoop Sst.byTotal schedule file fuel (call + 1)
        (filledBefore schedule len (call + 1) (file.drop start))
        (bytesBefore schedule len (call + 1)) (place schedule len (call + 1))
        (start + place schedule len (call + 1)) := by
  have hdrop : len ≤ (file.drop start).length := by
    rw [List.length_drop]
    omega
  have hpiece : piece schedule len call ≤ len - place schedule len call := Nat.min_le_left ..
  have hle := bytesBefore_le_place schedule len call
  have hcount : (((file.drop start).drop (place schedule len call)).take
      (piece schedule len call)).length = piece schedule len call := by
    rw [List.length_take, List.length_drop]
    unfold piece
    omega
  have hlength := filledBefore_length schedule len call (file.drop start)
  have hnext := bytesBefore_succ schedule len call
  have hplace := place_succ schedule len call
  have hround := @readLoop_call schedule len Sst.byTotal file _ _ fuel call _ _ _ hlength hmore hin
    (deliver_eq file start call)
  rw [hcount, filledBefore_succ hdrop hin] at hround
  simp only [Sst.byTotal] at hround
  rw [← hnext, Nat.add_assoc, ← hplace] at hround
  exact hround (by omega) (by omega) (by omega)

/-- The loop that moves on by the sum of all reads ends where the first place without room is, and
panics if that is behind its buffer.
SOURCE: level/segment.rs:231-239, 250-258, 264-273 -/
theorem readLoop_stops {file : Bytes} {start : ℕ} (hfile : start + len ≤ file.length)
    (hsize : file.length < 2 ^ 63) {fuel call : ℕ} (hfuel : fuel + call = len + 1)
    (hbefore : ∀ i < call, place schedule len i < len) :
    ∃ n, len ≤ place schedule len n ∧ (∀ i < n, place schedule len i < len) ∧
      Sst.readLoop Sst.byTotal schedule file fuel call
        (filledBefore schedule len call (file.drop start)) (bytesBefore schedule len call)
        (place schedule len call) (start + place schedule len call) =
      if bytesBefore schedule len n < len ∧ len < place schedule len n then .error .panic
      else .ok (filled schedule len (file.drop start), bytesBefore schedule len n,
        start + place schedule len n +
          if bytesBefore schedule len n < len then bytesBefore schedule len n else 0) := by
  induction fuel generalizing call with
  | zero =>
    have hcall := call_le_len hbefore
    omega
  | succ fuel ih =>
    have hlength := filledBefore_length schedule len call (file.drop start)
    have hle := bytesBefore_le_place schedule len call
    by_cases hdone : bytesBefore schedule len call < len
    swap
    · refine ⟨call, by omega, hbefore, ?_⟩
      rw [Sst.readLoop, hlength, if_neg hdone, if_neg fun h => hdone h.1, if_neg hdone,
        Nat.add_zero, filled_eq_filledBefore (by omega) hbefore]
      rfl
    by_cases hover : len < place schedule len call
    · refine ⟨call, hover.le, hbefore, ?_⟩
      rw [Sst.readLoop, hlength, if_pos hdone, if_pos ⟨hdone, hover⟩]
      unfold assert
      rw [if_neg (by omega)]
      rfl
    rw [readLoop_piece hfile hsize hdone (Nat.le_of_not_lt hover)]
    by_cases hroom : place schedule len call < len
    · -- a byte is delivered, and the loop goes on
      have hpos : piece schedule len call ≠ 0 := by
        unfold piece
        omega
      rw [if_neg hpos]
      refine ih (by omega) fun i hi => ?_
      obtain hi | rfl := Nat.lt_succ_iff_lt_or_eq.mp hi
      · exact hbefore i hi
      · exact hroom
    · -- there is no room, and the call delivers nothing
      have hend : place schedule len call = len := by omega
      have hnone : piece schedule len call = 0 := by
        unfold piece
        omega
      have hread : bytesBefore schedule len (call + 1) = bytesBefore schedule len call := by
        rw [bytesBefore_succ, hnone, Nat.add_zero]
      refine ⟨call, hend.ge, hbefore, ?_⟩
      rw [if_pos hnone, if_neg fun h => hover h.2, if_pos hdone, place_succ, hread, Nat.add_assoc]
      have hsame : filledBefore schedule len (call + 1) (file.drop start) =
          filledBefore schedule len call (file.drop start) := by
        rw [← filledBefore_succ (by rw [List.length_drop]; omega) hend.le, hnone, List.take_zero]
        unfold Dir.overwrite
        rw [List.append_nil, List.length_nil, Nat.add_zero, List.take_append_drop]
      rw [hsame, filled_eq_filledBefore hend.ge hbefore]

/-- INTERNAL: the same from the start on a range inside the file.
SOURCE: level/segment.rs:226-276 -/
theorem fillBuf_eq {file : Bytes} {start : ℕ} (hfile : start + len ≤ file.length)
    (hsize : file.length < 2 ^ 63) :
    ∃ n, len ≤ place schedule len n ∧ (∀ i < n, place schedule len i < len) ∧
      Sst.fillBuf Sst.byTotal schedule file start len =
      if bytesBefore schedule len n < len ∧ len < place schedule len n then .error .panic
      else .ok (filled schedule len (file.drop start), bytesBefore schedule len n,
        start + place schedule len n +
          if bytesBefore schedule len n < len then bytesBefore schedule len n else 0) := by
  have hloop := @readLoop_stops schedule len file start hfile hsize (len + 1) 0 rfl
    fun i hi => absurd hi (Nat.not_lt_zero i)
  rwa [filledBefore_zero] at hloop

end

/-! ## Ranges -/

section
variable {schedule : Sst.Schedule} {len : ℕ} {file : Bytes} {start : ℕ}

/-- INTERNAL: the same when all calls are done. -/
theorem getElem_filled {bytes : Bytes} {p : ℕ} (hp : p < len) :
    (filled schedule len bytes)[p]? =
      some (if Covered schedule len p then bytes.getD p 0 else 0) := by
  unfold filled
  rw [List.getElem?_map, List.getElem?_range hp]
  rfl

/-- INTERNAL: what is not read is zero. -/
theorem filled_get {full : Bytes} (rear : Bytes) {p : ℕ}
    (hp : p < (filled schedule full.length (full ++ rear)).length) (hfull : p < full.length) :
    (filled schedule full.length (full ++ rear))[p] =
      if Covered schedule full.length p then full[p] else 0 := by
  have hget := @getElem_filled schedule full.length (full ++ rear) p hfull
  rw [List.getElem?_eq_getElem hp, List.getD_eq_getElem?_getD, List.getElem?_append_left hfull,
    List.getElem?_eq_getElem hfull, Option.getD_some] at hget
  exact Option.some.inj hget

/-- INTERNAL: the buffer is the range of the file with gaps. -/
theorem gapped_filled {full : Bytes} (hlen : full.length = len) (rear : Bytes) :
    Gapped (filled schedule len (full ++ rear)) full := by
  subst hlen
  refine List.forall₂_of_length_eq_of_get (filled_length ..) fun p hp hfull => ?_
  rw [List.get_eq_getElem, List.get_eq_getElem, filled_get rear hp hfull]
  split
  · exact Or.inl rfl
  · exact Or.inr rfl

/-- INTERNAL: the buffer is the range of the file exactly if it has zeros where no call reads. -/
theorem filled_eq_iff {full : Bytes} (hlen : full.length = len) (rear : Bytes) :
    filled schedule len (full ++ rear) = full ↔
      ∀ p, (h : p < full.length) → ¬Covered schedule len p → full[p] = 0 := by
  subst hlen
  constructor
  · intro h p hp hnot
    have hlen : p < (filled schedule full.length (full ++ rear)).length := by rwa [filled_length]
    have hget := @filled_get schedule full rear p hlen hp
    rw [if_neg hnot] at hget
    simp only [h] at hget
    exact hget
  · intro h
    refine List.ext_getElem (filled_length ..) fun p hp hfull => ?_
    rw [filled_get rear hp hfull]
    split
    · rfl
    · rename_i hnot
      exact (h p hfull hnot).symm

/-- The loop fills its buffer with what it reads, and panics if a place is behind it.
SOURCE: level/segment.rs:231-239, 250-258, 264-273 -/
theorem fillBuf_spec (schedule : Sst.Schedule) (hfile : start + len ≤ file.length)
    (hsize : file.length < 2 ^ 63) :
    (Within schedule len → ∃ n curr, Sst.fillBuf Sst.byTotal schedule file start len =
      .ok (filled schedule len (file.drop start), n, curr)) ∧
    (¬Within schedule len →
      Sst.fillBuf Sst.byTotal schedule file start len = .error .panic) := by
  obtain ⟨n, hstop, hbefore, heq⟩ := @fillBuf_eq schedule len file start hfile hsize
  rw [heq, within_iff hstop hbefore]
  constructor
  · intro hwithin
    rw [if_neg hwithin]
    exact ⟨_, _, rfl⟩
  · intro hnot
    rw [if_pos (not_not.mp hnot)]

/-- Any range is read as at once if the pieces leave its bytes as they are.
SOURCE: level/segment.rs:226-242 -/
theorem readTableEntriesIn_of_filled {stop : ℕ} (hle : start ≤ stop) (hfile : stop ≤ file.length)
    (hsize : file.length < 2 ^ 63)
    (h : RangeFilled schedule ((file.drop start).take (stop - start))) :
    Sst.Segment.readTableEntriesIn schedule file start stop =
      Sst.Segment.readTableEntries file start stop := by
  obtain ⟨full, hfull⟩ : ∃ full, (file.drop start).take (stop - start) = full := ⟨_, rfl⟩
  have hlength : full.length = stop - start := by
    rw [← hfull, List.length_take, List.length_drop]
    omega
  have hsplit : file.drop start = full ++ (file.drop start).drop (stop - start) := by
    rw [← hfull, List.take_append_drop]
  rw [hfull] at h
  obtain ⟨n, curr, hbuf⟩ := (@fillBuf_spec full.length file start schedule (by omega) hsize).1
    h.within
  rw [hsplit, (filled_eq_iff rfl _).mpr h.skipped, hlength] at hbuf
  have hread : Sst.readAt file start (stop - start) = full := by
    unfold Sst.readAt
    rw [hfull]
    dsimp only
    rw [hlength, Nat.sub_self, List.replicate_zero, List.append_nil]
  unfold Sst.Segment.readTableEntriesIn Sst.Segment.readTableEntries
  rw [checkedSub_ok hle, exec_ok_bind, exec_ok_bind, hbuf, hread, exec_ok_bind]

/-- A range of entries is read as at once if and only if the pieces leave its bytes as they are.
SOURCE: level/segment.rs:226-242 -/
theorem readTableEntriesIn_iff {front rear : Bytes} {es : List SsTableEntry}
    (hfile : file = front ++ dataBlock es ++ rear) (hsize : file.length < 2 ^ 63)
    (hfits : ∀ e ∈ es, EntryFits e) :
    Sst.Segment.readTableEntriesIn schedule file front.length
        (front.length + (dataBlock es).length) = .ok es ↔
      RangeFilled schedule (dataBlock es) := by
  have hin : front.length + (dataBlock es).length ≤ file.length := by
    rw [hfile, List.length_append, List.length_append]
    exact Nat.le_add_right ..
  have hdrop : file.drop front.length = dataBlock es ++ rear := by
    rw [hfile, List.append_assoc, List.drop_left]
  obtain ⟨hwithin, hover⟩ := fillBuf_spec schedule hin hsize
  unfold Sst.Segment.readTableEntriesIn
  rw [checkedSub_ok (Nat.le_add_right ..), exec_ok_bind, Nat.add_sub_cancel_left]
  by_cases h : Within schedule (dataBlock es).length
  · obtain ⟨n, curr, hbuf⟩ := hwithin h
    rw [hbuf, hdrop, exec_ok_bind]
    dsimp only
    rw [vecFromBytes_gapped hfits (gapped_filled rfl rear), filled_eq_iff rfl]
    exact ⟨fun hskipped => ⟨h, hskipped⟩, fun hfilled => hfilled.skipped⟩
  · rw [hover h, exec_error_bind]
    constructor
    · intro hok
      cases hok
    · exact fun hfilled => absurd hfilled.within h

end

/-! ## One entry -/

section
variable {header : Sst.Schedule}

/-- INTERNAL: a length is shifted by at most three bytes. -/
theorem headerShift_le {shift : ℕ} (h : headerShift header = some shift) : shift ≤ 3 := by
  unfold headerShift at h
  split_ifs at h <;> cases h <;> omega

/-- INTERNAL: the places of the first calls for the length of an entry. -/
theorem header_places (header : Sst.Schedule) :
    bytesBefore header 4 1 = min 4 (header 0 + 1) ∧ place header 4 1 = min 4 (header 0 + 1) ∧
    bytesBefore header 4 2 = min 4 (header 0 + 1) +
      min (4 - min 4 (header 0 + 1)) (header 1 + 1) ∧
    place header 4 2 = min 4 (header 0 + 1) + bytesBefore header 4 2 := by
  have hpiece : piece header 4 0 = min 4 (header 0 + 1) := rfl
  have hbytes : bytesBefore header 4 1 = min 4 (header 0 + 1) := by
    rw [bytesBefore_succ, bytesBefore_zero, Nat.zero_add, hpiece]
  have hplace : place header 4 1 = min 4 (header 0 + 1) := by
    rw [place_succ, place_zero, Nat.zero_add, hbytes]
  refine ⟨hbytes, hplace, ?_, ?_⟩
  · rw [bytesBefore_succ, hbytes]
    unfold piece
    rw [hplace]
  · rw [place_succ, hplace]

/-- INTERNAL: where the loop for the length of an entry ends.
SOURCE: level/segment.rs:246-258 -/
theorem header_stop (header : Sst.Schedule) : ∃ n, 4 ≤ place header 4 n ∧
    (∀ i < n, place header 4 i < 4) ∧
    (headerShift header = none → bytesBefore header 4 n < 4 ∧ 4 < place header 4 n) ∧
    ∀ shift, headerShift header = some shift →
      ¬(bytesBefore header 4 n < 4 ∧ 4 < place header 4 n) ∧
      place header 4 n + (if bytesBefore header 4 n < 4 then bytesBefore header 4 n else 0) =
        4 + shift := by
  obtain ⟨hbytes₁, hplace₁, hbytes₂, hplace₂⟩ := header_places header
  have hplace₀ := place_zero header 4
  have hone : ∀ i < 1, place header 4 i < 4 := by
    intro i hi
    rw [Nat.lt_one_iff.mp hi, hplace₀]
    exact Nat.zero_lt_succ 3
  have htwo : place header 4 1 < 4 → ∀ i < 2, place header 4 i < 4 := by
    intro hlt i hi
    obtain hi | rfl := Nat.lt_succ_iff_lt_or_eq.mp hi
    · exact hone i hi
    · exact hlt
  unfold headerShift
  by_cases hfirst : 3 ≤ header 0
  · -- one call
    have hmin : min 4 (header 0 + 1) = 4 := by omega
    rw [hmin] at hbytes₁ hplace₁
    refine ⟨1, hplace₁.ge, hone, ?_, ?_⟩
    · rw [if_pos hfirst]
      intro h
      cases h
    · rw [if_pos hfirst, hbytes₁, hplace₁]
      intro shift h
      cases h
      exact ⟨by omega, rfl⟩
  have hmin : min 4 (header 0 + 1) = header 0 + 1 := by omega
  rw [hmin] at hplace₁ hbytes₂ hplace₂
  rw [if_neg hfirst]
  by_cases hsecond : 2 ≤ header 0 + header 1
  · -- two calls
    have hall : bytesBefore header 4 2 = 4 := by omega
    rw [hall] at hplace₂
    refine ⟨2, by omega, htwo (by omega), ?_, ?_⟩
    · rw [if_pos hsecond]
      intro h
      cases h
    · rw [if_pos hsecond, hall, hplace₂]
      intro shift h
      cases h
      rw [if_neg (lt_irrefl 4)]
      exact ⟨by omega, by omega⟩
  rw [if_neg hsecond]
  have hread : bytesBefore header 4 2 = header 0 + header 1 + 2 := by omega
  rw [hread] at hplace₂
  by_cases hcut : header 0 = 0 ∧ header 1 = 1
  · -- the second call gets to the end of the buffer but for the byte in front of it
    rw [hcut.1, hcut.2] at hread hplace₂
    refine ⟨2, hplace₂.ge, htwo (by omega), ?_, ?_⟩
    · rw [if_pos hcut]
      intro h
      cases h
    · rw [if_pos hcut, hread, hplace₂]
      intro shift h
      cases h
      exact ⟨by omega, rfl⟩
  rw [if_neg hcut]
  by_cases hlast : header 0 = 0
  · have hthree : bytesBefore header 4 3 = 3 := by
      rw [bytesBefore_succ, hread]
      unfold piece
      omega
    have hplace₃ : place header 4 3 = 6 := by
      rw [place_succ, hthree, hplace₂]
      omega
    refine ⟨3, by omega, fun i hi => ?_, fun _ => ⟨by omega, by omega⟩, fun _ h => nomatch h⟩
    obtain hi | rfl := Nat.lt_succ_iff_lt_or_eq.mp hi
    · exact htwo (by omega) i hi
    · omega
  · exact ⟨2, by omega, htwo (by omega), fun _ => ⟨by omega, by omega⟩, fun _ h => nomatch h⟩

/-- The length of an entry is read by at most three calls, and the loop ends as far behind its place as
the shift says.
SOURCE: level/segment.rs:246-258 -/
theorem header_spec {file : Bytes} {offset : ℕ} (hfile : offset + 4 ≤ file.length)
    (hsize : file.length < 2 ^ 63) :
    (headerShift header = none →
      Sst.fillBuf Sst.byTotal header file offset 4 = .error .panic) ∧
    ∀ shift, headerShift header = some shift → ∃ n,
      Sst.fillBuf Sst.byTotal header file offset 4 =
        .ok (filled header 4 (file.drop offset), n, offset + 4 + shift) := by
  obtain ⟨n, hstop, hbefore, heq⟩ := @fillBuf_eq header 4 file offset hfile hsize
  obtain ⟨m, hstop', hbefore', hnone, hsome⟩ := header_stop header
  obtain rfl := stop_unique hstop hbefore hstop' hbefore'
  rw [heq]
  constructor
  · intro h
    rw [if_pos (hnone h)]
  · intro shift h
    obtain ⟨hin, hend⟩ := hsome shift h
    rw [if_neg hin, Nat.add_assoc, hend, Nat.add_assoc]
    exact ⟨_, rfl⟩

/-- INTERNAL: only the last byte of the length can be left out. -/
theorem not_covered_header {shift p : ℕ} (h : headerShift header = some shift) (hp : p < 4) :
    ¬Covered header 4 p ↔ header 0 = 0 ∧ header 1 = 1 ∧ p = 3 := by
  obtain ⟨-, hplace₁, hbytes₂, hplace₂⟩ := header_places header
  constructor
  · intro hnot
    have hfirst : ¬p < min 4 (header 0 + 1) := fun hlt =>
      hnot ⟨0, by omega, Nat.zero_le _, by rw [place_zero, Nat.zero_add]; exact hlt⟩
    have hsecond : ¬(place header 4 1 ≤ p ∧
        p < place header 4 1 + min (4 - place header 4 1) (header 1 + 1)) := fun hin =>
      hnot ⟨1, by omega, hin⟩
    rw [hplace₁] at hsecond
    clear hplace₁ hbytes₂ hplace₂ hnot
    unfold headerShift at h
    split_ifs at h <;> omega
  · rintro ⟨hzero, hone, rfl⟩ ⟨call, hcall, hlow, hhigh⟩
    have hmono := @place_mono header 4 2 call
    have hpiece : piece header 4 call ≤ 4 - place header 4 call := Nat.min_le_left ..
    have hpiece₀ : piece header 4 0 = min 4 (header 0 + 1) := rfl
    have hpiece₁ : piece header 4 1 = min (4 - place header 4 1) (header 1 + 1) := rfl
    have hplace₀ := place_zero header 4
    rw [hzero] at hpiece₀ hplace₁ hbytes₂ hplace₂
    rw [hone] at hpiece₁ hbytes₂
    obtain rfl | rfl | htwo : call = 0 ∨ call = 1 ∨ 2 ≤ call := by omega
    · omega
    · omega
    · have hle := hmono htwo
      omega

/-- INTERNAL: the length that is read is not larger, and is right unless its last byte is left out.
SOURCE: level/segment.rs:246-259 -/
theorem header_value {shift len : ℕ} (rear : Bytes) (h : headerShift header = some shift)
    (hlen : len < 2 ^ 32) :
    leValue (filled header 4 (leBytes 4 len ++ rear)) ≤ len ∧
      (leValue (filled header 4 (leBytes 4 len ++ rear)) = len ↔
        (header 0 = 0 → header 1 = 1 → len < 2 ^ 24)) := by
  have hfour : (leBytes 4 len).length = 4 := leBytes_length 4 len
  have hgapped := @gapped_filled header 4 (leBytes 4 len) hfour rear
  have hexact := @filled_eq_iff header 4 (leBytes 4 len) hfour rear
  have hvalue : leValue (leBytes 4 len) = len := leValue_leBytes hlen
  refine ⟨hgapped.leValue_le.trans_eq hvalue, ?_⟩
  have hbytes : leValue (filled header 4 (leBytes 4 len ++ rear)) = len ↔
      filled header 4 (leBytes 4 len ++ rear) = leBytes 4 len := by
    constructor
    · intro heq
      have hback := leBytes_leValue (filled header 4 (leBytes 4 len ++ rear))
      rw [filled_length, heq] at hback
      exact hback.symm
    · intro heq
      rw [heq, hvalue]
  rw [hbytes, hexact]
  have hlast : ∀ hthree : 3 < (leBytes 4 len).length, (leBytes 4 len)[3] = 0 ↔ len < 2 ^ 24 := by
    intro hthree
    have hbyte : (leBytes 4 len)[3] = UInt8.ofNat (len / 256 / 256 / 256) := rfl
    rw [hbyte, ← UInt8.toNat_inj, UInt8.toNat_ofNat']
    change len / 256 / 256 / 256 % 256 = 0 ↔ _
    omega
  constructor
  · intro hskipped hzero hone
    exact (hlast (by omega)).mp
      (hskipped 3 (by omega) ((not_covered_header h (by omega)).mpr ⟨hzero, hone, rfl⟩))
  · intro hshort p hp hnot
    obtain ⟨hzero, hone, rfl⟩ := (not_covered_header h (by omega)).mp hnot
    exact (hlast hp).mpr (hshort hzero hone)

/-- An entry is read as at once if and only if the pieces make it out of the bytes they are read from.
SOURCE: level/segment.rs:245-276 -/
theorem readTableEntryIn_iff {body : Sst.Schedule} {file front rear : Bytes} {e : SsTableEntry}
    (hfile : file = front ++ frame e ++ rear) (hrear : 3 ≤ rear.length)
    (hsize : file.length < 2 ^ 63) (hfits : EntryFits e) :
    Sst.Segment.readTableEntryIn header body file front.length = .ok e ↔
      EntryFilled header body file front.length e := by
  have hlength : file.length = front.length + (e.len + 4) + rear.length := by
    rw [hfile, List.length_append, List.length_append, frame_length]
  have hdrop : file.drop front.length = leBytes 4 e.len ++ (e.toBytes ++ rear) := by
    rw [hfile, List.append_assoc, List.drop_left]
    simp [frame]
  obtain ⟨hnone, hsome⟩ := @header_spec header file front.length (by omega) hsize
  unfold Sst.Segment.readTableEntryIn
  cases hshift : headerShift header with
  | none =>
    rw [hnone hshift, exec_error_bind]
    constructor
    · intro hok
      cases hok
    · rintro ⟨-, -, shift, hsome', -⟩
      rw [hshift] at hsome'
      cases hsome'
  | some shift =>
    obtain ⟨n, hbuf⟩ := hsome shift hshift
    obtain ⟨hle, hexact⟩ := header_value (e.toBytes ++ rear) hshift hfits.len_lt
    rw [hbuf, hdrop, exec_ok_bind]
    dsimp only
    generalize leValue (filled header 4 (leBytes 4 e.len ++ (e.toBytes ++ rear))) = len
      at hle hexact
    have hshiftLe := headerShift_le hshift
    obtain ⟨hwithin, hover⟩ := @fillBuf_spec len file (front.length + 4 + shift) body (by omega) hsize
    constructor
    · intro hok
      by_cases h : Within body len
      · obtain ⟨m, curr, hread⟩ := hwithin h
        rw [hread, exec_ok_bind] at hok
        have hresembles := resembles_of_fromBytes hok (by rw [filled_length]; exact hle)
        obtain rfl : len = e.len := by
          obtain ⟨mark, hmarked, -⟩ := hresembles
          have hcount := congrArg List.length hmarked
          rwa [filled_length, markedBytes_length] at hcount
        exact ⟨h, hexact.mp rfl, shift, hshift, hresembles⟩
      · rw [hover h, exec_error_bind] at hok
        cases hok
    · rintro ⟨h, hheader, shift', hshift', mark, hmarked, hmark⟩
      cases hshift.symm.trans hshift'
      obtain rfl := hexact.mpr hheader
      obtain ⟨m, curr, hread⟩ := hwithin h
      rw [hread, exec_ok_bind]
      dsimp only
      rw [hmarked]
      exact fromBytes_markedBytes hfits hmark

end

/-! ## As many bytes as fit -/

section
variable {schedule : Sst.Schedule} {file : Bytes} {offset len : ℕ}

/-- INTERNAL: the loop that moves on by its pieces has read a front part at every time.
SOURCE: level/segment.rs:190-202 -/
theorem readLoop_byPiece (hsize : file.length < 2 ^ 63) (hoffset : offset ≤ file.length)
    (hlen : len < 2 ^ 64) {fuel call read : ℕ} (hfuel : len < fuel + read) (hread : read ≤ len)
    (hin : offset + read ≤ file.length) :
    ∃ buf n curr, Sst.readLoop Sst.byPiece schedule file fuel call
        ((file.drop offset).take read ++ List.replicate (len - read) 0) read read (offset + read) =
      .ok (buf, n, curr) ∧ buf.take n = (file.drop offset).take len := by
  induction fuel generalizing call read with
  | zero => omega
  | succ fuel ih =>
    have htake : ((file.drop offset).take read).length = read := by
      rw [List.length_take, List.length_drop]
      omega
    have hbuf : ((file.drop offset).take read ++ List.replicate (len - read) 0).length = len := by
      rw [List.length_append, htake, List.length_replicate]
      omega
    by_cases hmore : read < len
    swap
    · obtain rfl : read = len := by omega
      refine ⟨_, _, _, by rw [Sst.readLoop, hbuf, if_neg hmore]; rfl, ?_⟩
      rw [List.take_left' htake]
    obtain ⟨bytes, hbytes⟩ : ∃ bytes,
        Sst.deliver schedule call file (offset + read) (len - read) = bytes := ⟨_, rfl⟩
    have hcount : bytes.length = min (min (len - read) (schedule call + 1))
        (file.length - (offset + read)) := by
      rw [← hbytes]
      unfold Sst.deliver
      rw [List.length_take, List.length_drop]
    rw [readLoop_call hbuf hmore hmore.le hbytes (by omega)
      (by unfold Sst.byPiece; omega) (by unfold Sst.byPiece; omega)]
    have hnext : Dir.overwrite ((file.drop offset).take read ++ List.replicate (len - read) 0) read
        bytes = (file.drop offset).take (read + bytes.length) ++
          List.replicate (len - (read + bytes.length)) 0 := by
      have hprefix : bytes = ((file.drop offset).drop read).take bytes.length := by
        rw [List.drop_drop]
        exact List.prefix_iff_eq_take.mp (hbytes ▸ List.take_prefix ..)
      have hfront : (file.drop offset).take (read + bytes.length) =
          (file.drop offset).take read ++ bytes := by
        rw [List.take_add, ← hprefix]
      unfold Dir.overwrite
      rw [List.take_left' htake, ← List.drop_drop, List.drop_left' htake, List.drop_replicate,
        hfront, Nat.sub_sub]
    by_cases hnone : bytes.length = 0
    · rw [if_pos hnone]
      refine ⟨_, _, _, rfl, ?_⟩
      rw [hnext, hnone, Nat.add_zero, List.take_left' htake]
      rw [List.take_of_length_le (by rw [List.length_drop]; omega),
        List.take_of_length_le (by rw [List.length_drop]; omega)]
    · rw [if_neg hnone, hnext]
      unfold Sst.byPiece
      rw [Nat.add_assoc]
      exact ih (by omega) (by omega) (by omega)

/-- As many entries as fit are read whatever the pieces are.
SOURCE: level/segment.rs:180-205 -/
theorem readAtMostIn_eq (schedule : Sst.Schedule) {segment : Sst.Segment}
    (hsize : segment.file.length < 2 ^ 63) (hend : segment.dataBlockEnd ≤ segment.file.length)
    (offset maxBytes : ℕ) :
    Sst.Segment.readAtMostIn schedule segment offset maxBytes =
      segment.readAtMost offset maxBytes := by
  unfold Sst.Segment.readAtMostIn Sst.Segment.readAtMost
  by_cases hoffset : offset ≤ segment.dataBlockEnd
  swap
  · unfold checkedSub
    rw [if_neg hoffset]
    rfl
  rw [checkedSub_ok hoffset, exec_ok_bind, exec_ok_bind, checkedAdd_ok (by omega), exec_ok_bind,
    exec_ok_bind]
  dsimp only
  obtain ⟨buf, n, curr, hread, htake⟩ := @readLoop_byPiece schedule segment.file offset
    (min (segment.dataBlockEnd - offset + 1) maxBytes) hsize (by omega) (by omega)
    (min (segment.dataBlockEnd - offset + 1) maxBytes + 1) 0 0 (by omega) (by omega) (by omega)
  rw [List.take_zero, List.nil_append, Nat.sub_zero, Nat.add_zero offset] at hread
  unfold Sst.fillBuf
  rw [hread, exec_ok_bind]
  dsimp only
  rw [htake]

end

/-! ## All three -/

/-- INTERNAL: the three reads of a range of entries. -/
theorem readsSame_iff {schedule header body : Sst.Schedule} {file front rear : Bytes}
    {e : SsTableEntry} {es : List SsTableEntry}
    (hfile : file = front ++ dataBlock (e :: es) ++ rear)
    (hrear : Sst.SEGMENT_FOOTER_LEN ≤ rear.length) (hsize : file.length < 2 ^ 63)
    (hfits : ∀ f ∈ e :: es, EntryFits f) :
    ReadsSame schedule header body file front.length (e :: es) ↔
      RangeFilled schedule (dataBlock (e :: es)) ∧
        EntryFilled header body file front.length e := by
  have hfirst : file = front ++ frame e ++ (dataBlock es ++ rear) := by
    rw [hfile, dataBlock_cons]
    simp only [List.append_assoc]
  have hthree : 3 ≤ (dataBlock es ++ rear).length := by
    have hfooter : Sst.SEGMENT_FOOTER_LEN = 12 := rfl
    rw [List.length_append]
    omega
  have hfit := hfits e (List.mem_cons_self ..)
  have hentries := @readTableEntriesIn_iff schedule file front rear _ hfile hsize hfits
  have hentry := @readTableEntryIn_iff header body file front _ e hfirst hthree hsize hfit
  constructor
  · intro h
    refine ⟨hentries.mp (h.entries.trans ?_), hentry.mp (h.entry.trans ?_)⟩
    · exact readTableEntries_ok front rear hfits hfile rfl rfl
    · exact readTableEntry_ok front _ hfit hfirst rfl
  · rintro ⟨hrange, hone⟩
    refine ⟨(hentries.mpr hrange).trans ?_, (hentry.mpr hone).trans ?_, ?_⟩
    · exact (readTableEntries_ok front rear hfits hfile rfl rfl).symm
    · exact (readTableEntry_ok front _ hfit hfirst rfl).symm
    · rintro segment rfl hend offset maxBytes
      exact readAtMostIn_eq schedule hsize hend offset maxBytes

/-- Pieces do not change what is read of a range of entries if and only if they leave the bytes of the
range as they are and make the entry out of the bytes that they are read from. For any other range
the first of the two is enough.
SOURCE: level/segment.rs:180-205, 226-276 -/
theorem short_reads_iff {schedule header body : Sst.Schedule} {file front rear : Bytes}
    {e : SsTableEntry} {es : List SsTableEntry}
    (hfile : file = front ++ dataBlock (e :: es) ++ rear)
    (hrear : Sst.SEGMENT_FOOTER_LEN ≤ rear.length) (hsize : file.length < 2 ^ 63)
    (hfits : ∀ f ∈ e :: es, EntryFits f) :
    (ReadsSame schedule header body file front.length (e :: es) ↔
      RangeFilled schedule (dataBlock (e :: es)) ∧
        EntryFilled header body file front.length e) ∧
    ∀ start stop, start ≤ stop → stop ≤ file.length →
      RangeFilled schedule ((file.drop start).take (stop - start)) →
      Sst.Segment.readTableEntriesIn schedule file start stop =
        Sst.Segment.readTableEntries file start stop := by
  refine ⟨readsSame_iff hfile hrear hsize hfits, ?_⟩
  intro start stop hle hstop hfilled
  exact readTableEntriesIn_of_filled hle hstop hsize hfilled

section
variable {schedule : Sst.Schedule} {len : ℕ}

/-- INTERNAL: two calls that deliver everything stay in the buffer and read all of it. -/
theorem within_of_two (h : len ≤ piece schedule len 0 + piece schedule len 1) :
    Within schedule len ∧ ∀ p < len, Covered schedule len p := by
  have hbytes₁ : bytesBefore schedule len 1 = piece schedule len 0 := by
    rw [bytesBefore_succ, bytesBefore_zero, Nat.zero_add]
  have hplace₁ : place schedule len 1 = piece schedule len 0 := by
    rw [place_succ, place_zero, hbytes₁, Nat.zero_add]
  have hbytes₂ : bytesBefore schedule len 2 =
      bytesBefore schedule len 1 + piece schedule len 1 := rfl
  have hplace₂ := bytesBefore_le_place schedule len 2
  have hplace₀ := place_zero schedule len
  constructor
  · intro call hroom hnext
    obtain rfl | rfl | htwo : call = 0 ∨ call = 1 ∨ 2 ≤ call := by omega
    · exact Or.inl (hnext.trans_eq (hplace₁.trans hbytes₁.symm))
    · exact Or.inl (h.trans_eq (by rw [hbytes₂, hbytes₁]))
    · have hmono := place_mono schedule len htwo
      omega
  · intro p hp
    have hpos : 0 < piece schedule len 0 := by
      unfold piece
      omega
    by_cases hfirst : p < piece schedule len 0
    · exact ⟨0, by omega, by omega, by omega⟩
    · exact ⟨1, by omega, by omega, by omega⟩

/-- INTERNAL: two calls that read everything leave no gap. -/
theorem rangeFilled_of_two {bytes : Bytes} (hlen : bytes.length = len)
    (h : len ≤ piece schedule len 0 + piece schedule len 1) : RangeFilled schedule bytes := by
  subst hlen
  obtain ⟨hwithin, hcovered⟩ := within_of_two h
  exact ⟨hwithin, fun p hp hnot => absurd (hcovered p hp) hnot⟩

/-- Two pieces, behind a length that comes in one, make an entry. -/
theorem entryFilled_of_two {header : Sst.Schedule} {file front rear : Bytes} {e : SsTableEntry}
    (hfile : file = front ++ frame e ++ rear) (hheader : 3 ≤ header 0)
    (h : e.len ≤ piece schedule e.len 0 + piece schedule e.len 1) :
    EntryFilled header schedule file front.length e := by
  obtain ⟨hwithin, hcovered⟩ := within_of_two h
  refine ⟨hwithin, fun hzero => by omega, 0, if_pos hheader,
    if e.value = none then 1 else 0, ?_, ?_⟩
  · have hdrop : file.drop (front.length + 4 + 0) = e.toBytes ++ rear := by
      rw [hfile, Nat.add_zero, ← List.drop_drop, List.append_assoc, List.drop_left]
      simp [frame]
    rw [hdrop, ← toBytes_eq_markedBytes]
    exact (filled_eq_iff (toBytes_length e) rear).mpr
      fun p hp hnot => absurd (hcovered p (by rwa [toBytes_length] at hp)) hnot
  · cases e.value <;> simp

end

/-- INTERNAL: a file with one short entry. -/
theorem oneShort_file : segmentBytes [⟨"a", some "v", 3⟩] [] =
      [] ++ dataBlock [⟨"a", some "v", 3⟩] ++ Sst.footerToBytes 23 ∧
    Sst.SEGMENT_FOOTER_LEN ≤ (Sst.footerToBytes 23).length ∧
    (segmentBytes [⟨"a", some "v", 3⟩] []).length < 2 ^ 63 ∧
    ∀ f ∈ [(⟨"a", some "v", 3⟩ : SsTableEntry)], EntryFits f := by
  refine ⟨by decide, by decide, by decide, fun f hf => ?_⟩
  rw [List.mem_singleton.mp hf]
  exact ⟨by decide, by decide⟩

/-- The range in pieces of 12 and 11 bytes, the entry in pieces of 10 and 9 bytes. -/
theorem short_reads_two : ReadsSame (fun _ => 11) (fun _ => 3) (fun _ => 9)
    (segmentBytes [⟨"a", some "v", 3⟩] []) 0 [⟨"a", some "v", 3⟩] := by
  obtain ⟨hfile, hrear, hsize, hfits⟩ := oneShort_file
  refine (short_reads_iff hfile hrear hsize hfits).1.mpr ⟨rangeFilled_of_two rfl ?_, ?_⟩
  · decide
  · refine @entryFilled_of_two _ _ _ [] (Sst.footerToBytes 23) _ ?_ (le_refl 3) ?_
    · decide
    · decide

/-- The same range in pieces of 10, 10 and 3 bytes. -/
theorem third_piece_panics : ¬∀ {schedule header body : Sst.Schedule} {file front rear : Bytes}
    {e : SsTableEntry} {es : List SsTableEntry}, file = front ++ dataBlock (e :: es) ++ rear →
    Sst.SEGMENT_FOOTER_LEN ≤ rear.length → file.length < 2 ^ 63 →
    (∀ f ∈ e :: es, EntryFits f) →
    ReadsSame schedule header body file front.length (e :: es) := by
  intro h
  obtain ⟨hfile, hrear, hsize, hfits⟩ := oneShort_file
  have hsame := (@h (fun _ => 9) (fun _ => 3) (fun _ => 9) _ _ _ _ _ hfile hrear hsize hfits).entries
  have hpanics : Sst.Segment.readTableEntriesIn (fun _ => 9) (segmentBytes [⟨"a", some "v", 3⟩] [])
      0 (0 + (dataBlock [⟨"a", some "v", 3⟩]).length) = .error .panic := by decide
  have hreads := readTableEntries_ok [] (Sst.footerToBytes 23) hfits hfile rfl rfl
  rw [hreads] at hsame
  cases hpanics.symm.trans hsame

end Rkvs.Analysis
