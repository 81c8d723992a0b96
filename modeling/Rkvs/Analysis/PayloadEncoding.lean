import Rkvs.Analysis.FrameParser

/-!
# The encoding of a payload

A payload that is accepted begins with its own encoding, and a get or a delete ends there. Behind
the value of a put the parser does not look.
-/

set_option autoImplicit false

namespace Rkvs.Analysis

open Rkvs.Library Rkvs.Model Rkvs.Interface

section
variable {Uuid : Type} {requestType : RequestType} {id : Uuid} {buf : Bytes}

/-- INTERNAL: a string with its length in front of it stands in a payload. -/
theorem split_network_string (offset : ℕ) {s : String}
    (hin : offset + 4 + beValue ((buf.drop offset).take 4) ≤ buf.length)
    (hs : fromUtf8 ((buf.drop (offset + 4)).take (beValue ((buf.drop offset).take 4))) = some s) :
    buf.drop offset = beBytes 4 (asBytes s).length ++ asBytes s ++
      buf.drop (offset + 4 + beValue ((buf.drop offset).take 4)) := by
  obtain ⟨hsplit, hlen, hfour⟩ := split_field hin hs
  have hnumber := beBytes_beValue ((buf.drop offset).take 4)
  rw [hfour, ← hlen] at hnumber
  rw [hnumber]
  exact hsplit

/-- INTERNAL: the last field ends behind the key. -/
theorem key_le_fieldsEnd (requestType : RequestType) (buf : Bytes) :
    4 + beValue (buf.take 4) ≤ fieldsEnd requestType buf := by
  unfold fieldsEnd
  dsimp only
  split_ifs <;> omega

/-- What the parser makes of a payload that reaches to the end of its last field.
SOURCE: protocol.rs:109-148 -/
theorem parsePayload_inside (h : fieldsEnd requestType buf ≤ buf.length) :
    parsePayload buf requestType id =
      let keyLen := beValue (buf.take 4)
      match fromUtf8 ((buf.drop 4).take keyLen) with
      | none => .error (.error (.parse (.invalidKey id)))
      | some key =>
        if requestType = .put then
          match fromUtf8 ((buf.drop (8 + keyLen)).take
            (beValue ((buf.drop (4 + keyLen)).take 4))) with
          | none => .error (.error (.parse (.invalidValue id)))
          | some value => .ok ⟨key, some value⟩
        else if fieldsEnd requestType buf < buf.length then
          .error (.error (.parse (.malformedPayload id)))
        else .ok ⟨key, none⟩ := by
  have hkey := Nat.le_trans (key_le_fieldsEnd requestType buf) h
  unfold parsePayload
  rw [slice_ok (Nat.zero_le _) (by omega), checked_ok, exec_ok_bind, List.drop_zero, Nat.sub_zero]
  dsimp only
  rw [slice_ok (by omega) (by omega), checked_ok, exec_ok_bind, Nat.add_sub_cancel,
    checkedSub_ok (by omega), checked_ok]
  cases fromUtf8 ((buf.drop 4).take (beValue (buf.take 4))) with
  | none => rfl
  | some key =>
    unfold fieldsEnd at h ⊢
    cases requestType with
    | get => simp [exec_ok_bind, Nat.lt_sub_iff_add_lt']
    | delete => simp [exec_ok_bind, Nat.lt_sub_iff_add_lt']
    | put =>
      simp only [if_true] at h ⊢
      simp only [exec_ok_bind]
      rw [Nat.add_comm (beValue (buf.take 4)) 4, Nat.add_comm (beValue (buf.take 4)) 8,
        if_neg (by omega), slice_ok (by omega) (by omega), checked_ok, exec_ok_bind,
        Nat.add_sub_add_right, slice_ok (by omega) h, checked_ok, exec_ok_bind,
        Nat.add_sub_cancel_left]
      rfl

/-- INTERNAL: an accepted payload reaches to the end of its last field. -/
theorem fieldsEnd_le {p : Payload} (h : parsePayload buf requestType id = .ok p) :
    fieldsEnd requestType buf ≤ buf.length := by
  have hrange : PayloadInRange requestType buf := by
    by_contra hnot
    rw [(parsePayload_panic_iff requestType id buf).mpr hnot] at h
    cases h
  obtain ⟨hkeyIn, hvalueIn⟩ := hrange
  unfold fieldsEnd
  dsimp only
  split_ifs with hput
  · subst hput
    -- a put that ends behind its key is refused
    unfold parsePayload at h
    rw [slice_ok (Nat.zero_le _) (by omega), checked_ok, exec_ok_bind, List.drop_zero,
      Nat.sub_zero] at h
    dsimp only at h
    rw [slice_ok (by omega) (by omega), checked_ok, exec_ok_bind, Nat.add_sub_cancel,
      checkedSub_ok (by omega), checked_ok] at h
    cases hkey : fromUtf8 ((buf.drop 4).take (beValue (buf.take 4))) with
    | none =>
      rw [hkey] at h
      cases h
    | some key =>
      rw [hkey] at h
      simp only [exec_ok_bind] at h
      split_ifs at h with hmissing
      exact (hvalueIn rfl (by rw [hkey]; rfl) (by omega)).2
  · exact hkeyIn

/-- An accepted payload has readable fields, and begins with the encoding of what the parser
returns. It ends there unless it is that of a put.
SOURCE: protocol.rs:109-148 298-314 -/
theorem accepted_encoding {p : Payload} (h : parsePayload buf requestType id = .ok p) :
    buf = p.toBytes ++ buf.drop (fieldsEnd requestType buf) ∧
      (p.value.isSome ↔ requestType = .put) ∧ ReadableFields requestType buf ∧
      (requestType ≠ .put → buf.length ≤ fieldsEnd requestType buf) := by
  have hend := fieldsEnd_le h
  have hkeyIn := Nat.le_trans (key_le_fieldsEnd requestType buf) hend
  rw [parsePayload_inside hend] at h
  dsimp only at h
  cases hkey : fromUtf8 ((buf.drop 4).take (beValue (buf.take 4))) with
  | none =>
    rw [hkey] at h
    cases h
  | some key =>
    rw [hkey] at h
    have hsplit := split_network_string 0 (by simpa using hkeyIn) hkey
    rw [List.drop_zero, Nat.zero_add] at hsplit
    unfold ReadableFields Payload.toBytes
    dsimp only at h ⊢
    rw [hkey]
    by_cases hput : requestType = .put
    · subst hput
      rw [if_pos rfl] at h
      have hlast : 8 + beValue (buf.take 4) +
          beValue ((buf.drop (4 + beValue (buf.take 4))).take 4) ≤ buf.length := hend
      cases hvalue : fromUtf8 ((buf.drop (8 + beValue (buf.take 4))).take
          (beValue ((buf.drop (4 + beValue (buf.take 4))).take 4))) with
      | none =>
        rw [hvalue] at h
        cases h
      | some value =>
        rw [hvalue] at h
        cases h
        have hrest := @split_network_string buf (4 + beValue (buf.take 4)) value (by omega)
          (by rw [← hvalue, Nat.add_right_comm])
        refine ⟨?_, by simp, by simp, fun h => absurd rfl h⟩
        have hfields : fieldsEnd .put buf = 4 + beValue (buf.take 4) + 4 +
            beValue ((buf.drop (4 + beValue (buf.take 4))).take 4) := by
          rw [Nat.add_right_comm 4]
          rfl
        rw [hfields, List.append_assoc, ← hrest, ← hsplit]
    · rw [if_neg hput] at h
      split_ifs at h with hmore
      cases h
      have hfields : fieldsEnd requestType buf = 4 + beValue (buf.take 4) := if_neg hput
      refine ⟨?_, by simp [hput], ⟨rfl, fun h => absurd h hput⟩, fun _ => by omega⟩
      rw [hfields, List.append_nil, ← hsplit]

/-- The parser accepts only the encodings of payloads, and refuses bytes behind the last field,
exactly when they do not follow the value of a put. SOURCE: protocol.rs:109-148 298-314 -/
theorem one_encoding_iff (requestType : RequestType) (id : Uuid) (buf : Bytes) :
    OneEncoding requestType id buf ↔
      ¬(requestType = .put ∧ ReadableFields .put buf ∧ fieldsEnd .put buf < buf.length) := by
  constructor
  · rintro ⟨-, hrefuses⟩ ⟨rfl, ⟨hkey, hvalue⟩, hmore⟩
    obtain ⟨e, herror, -⟩ := hrefuses hmore
    obtain ⟨key, hkey⟩ := Option.isSome_iff_exists.mp hkey
    obtain ⟨value, hvalue⟩ := Option.isSome_iff_exists.mp (hvalue rfl)
    rw [parsePayload_inside (Nat.le_of_lt hmore)] at herror
    simp [hkey, hvalue] at herror
  · intro hnot
    refine ⟨fun p hp => ?_, fun hmore => ?_⟩
    · obtain ⟨hbytes, hsome, hreadable, hother⟩ := accepted_encoding hp
      have hend : buf.length ≤ fieldsEnd requestType buf := by
        by_cases hput : requestType = .put
        · subst hput
          exact Nat.le_of_not_lt fun hmore => hnot ⟨rfl, hreadable, hmore⟩
        · exact hother hput
      rw [List.drop_eq_nil_of_le hend, List.append_nil] at hbytes
      exact ⟨hbytes, hsome⟩
    · rw [parsePayload_inside (Nat.le_of_lt hmore)]
      unfold ReadableFields
      dsimp only
      cases hkey : fromUtf8 ((buf.drop 4).take (beValue (buf.take 4))) with
      | none => exact ⟨_, rfl, by simp⟩
      | some key =>
        dsimp only
        by_cases hput : requestType = .put
        · subst hput
          rw [if_pos rfl]
          cases hvalue : fromUtf8 ((buf.drop (8 + beValue (buf.take 4))).take
              (beValue ((buf.drop (4 + beValue (buf.take 4))).take 4))) with
          | none => exact ⟨_, rfl, by simp⟩
          | some value =>
            refine absurd ⟨rfl, ?_, hmore⟩ hnot
            exact ⟨by rw [hkey]; rfl, fun _ => by rw [hvalue]; rfl⟩
        · rw [if_neg hput, if_pos hmore]
          exact ⟨_, rfl, fun _ => rfl⟩

/-- A put of the key `k` and the value `v` with another byte behind them is accepted. -/
theorem put_with_more : ¬∀ (requestType : RequestType) (id : PlainId) (buf : Bytes),
    OneEncoding requestType id buf := by
  intro h
  have hencodes := (h .put plainIds.nil (Payload.toBytes ⟨"k", some "v"⟩ ++ [0])).encodes
    ⟨"k", some "v"⟩ rfl
  exact absurd hencodes.1 (by decide)

end

end Rkvs.Analysis
