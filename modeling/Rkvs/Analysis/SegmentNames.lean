import Mathlib.Order.Bounds.Basic
import Rkvs.Model.WalSegment

/-!
# The names of segment files

A segment starts at a multiple of the segment size, and its name spells that LSN: the number
of the logical log and the number of the segment in it. The name gives the LSN back, names
are ordered as the LSNs are, and `final_entry_after` compares with the end that it computes
from the name and the length of the file.
-/

set_option autoImplicit false

namespace Rkvs.Analysis

open Rkvs.Library Rkvs.Model

/-- A segment size that divides the size of a logical log. -/
structure SegmentSize where
  val : ℕ
  dvd : val ∣ 2 ^ 32
  lt : val < 2 ^ 32

namespace SegmentSize

variable (s : SegmentSize)

/-- INTERNAL: a segment has room for something. -/
theorem pos : 0 < s.val := Nat.pos_of_dvd_of_pos s.dvd (by norm_num)

/-- INTERNAL: so it can be divided by. -/
theorem assert_val : assert (s.val ≠ 0) = .ok () := assert_true s.pos.ne'

/-- The LSN at which the segment that holds `lsn` starts. -/
def baseOf (lsn : ℕ) : ℕ := lsn / s.val * s.val

/-- The name of the segment that holds `lsn`. -/
def fileName (lsn : ℕ) : String := determineSegmentFilename 0 lsn s.val

/-- INTERNAL: whole logical logs are whole segments. -/
theorem div_mod_mul (lsn : ℕ) :
    lsn / 2 ^ 32 * 2 ^ 32 + lsn % 2 ^ 32 / s.val * s.val = s.baseOf lsn := by
  obtain ⟨q, hq⟩ := s.dvd
  have hs := s.pos
  unfold baseOf
  have hsplit : lsn = s.val * (q * (lsn / 2 ^ 32)) + lsn % 2 ^ 32 := by
    rw [← Nat.mul_assoc, ← hq]
    exact (Nat.div_add_mod lsn (2 ^ 32)).symm
  have hdiv : lsn / s.val = q * (lsn / 2 ^ 32) + lsn % 2 ^ 32 / s.val := by
    conv_lhs => rw [hsplit]
    exact Nat.mul_add_div hs _ _
  rw [hdiv, Nat.add_mul]
  congr 1
  calc lsn / 2 ^ 32 * 2 ^ 32 = lsn / 2 ^ 32 * (s.val * q) := by rw [← hq]
    _ = q * (lsn / 2 ^ 32) * s.val := by ring

/-- INTERNAL: a segment starts by the LSN in it. -/
theorem baseOf_le (lsn : ℕ) : s.baseOf lsn ≤ lsn := Nat.div_mul_le_self lsn s.val

/-- INTERNAL: and ends behind it. -/
theorem lt_baseOf_add (lsn : ℕ) : lsn < s.baseOf lsn + s.val := by
  have h := Nat.lt_div_mul_add (a := lsn) s.pos
  unfold baseOf
  omega

/-- INTERNAL: segments start at multiples of their size. -/
theorem dvd_baseOf (lsn : ℕ) : s.val ∣ s.baseOf lsn := Dvd.intro_left _ rfl

/-- INTERNAL: at a multiple a segment starts. -/
theorem baseOf_of_dvd {base : ℕ} (h : s.val ∣ base) : s.baseOf base = base :=
  Nat.div_mul_cancel h

/-- INTERNAL: an LSN less than a segment past a start belongs to it. -/
theorem baseOf_eq {base lsn : ℕ} (h : s.val ∣ base) (hle : base ≤ lsn)
    (hlt : lsn < base + s.val) : s.baseOf lsn = base := by
  obtain ⟨q, rfl⟩ := h
  unfold baseOf
  have hdiv : lsn / s.val = q := by
    apply Nat.div_eq_of_lt_le
    · rw [Nat.mul_comm]
      exact hle
    · rw [Nat.succ_mul, Nat.mul_comm]
      exact hlt
  rw [hdiv, Nat.mul_comm]

/-! ## Names as digits -/

/-- INTERNAL: the characters of a name. -/
def nameChars (logicalLogNo segmentNo : ℕ) : List Char :=
  hexFixed 8 0 ++ hexFixed 8 logicalLogNo ++ hexFixed 8 segmentNo ++ ['.', 'w', 'a', 'l']

/-- INTERNAL: a name spells the number of the logical log and of the segment. -/
theorem fileName_toList {lsn : ℕ} (h : lsn < 2 ^ 64) :
    (s.fileName lsn).toList = nameChars (lsn / 2 ^ 32) (lsn % 2 ^ 32 / s.val) := by
  have hno : lsn % 2 ^ 32 / s.val < 16 ^ 16 :=
    lt_of_le_of_lt (Nat.div_le_self _ _) (by omega)
  have htake : (hexFixed 16 lsn).take 8 = hexFixed 8 (lsn / 2 ^ 32) := by
    rw [show 16 = 8 + 8 from rfl, hexFixed_add, List.take_left' (by simp)]
    norm_num
  have hdrop : ∀ n, (hexFixed 16 n).drop 8 = hexFixed 8 n := by
    intro n
    rw [show 16 = 8 + 8 from rfl, hexFixed_add, List.drop_left' (by simp)]
  have htimeline : hexPad 8 0 = hexFixed 8 0 := hexPad_eq_hexFixed (by omega) (by omega)
  have hlsn : hexPad 16 lsn = hexFixed 16 lsn := hexPad_eq_hexFixed (by omega) (by omega)
  have hsegment : hexPad 16 (lsn % 2 ^ 32 / s.val) = hexFixed 16 (lsn % 2 ^ 32 / s.val) :=
    hexPad_eq_hexFixed (by omega) hno
  unfold fileName determineSegmentFilename nameChars
  dsimp only
  rw [htimeline, hlsn, hsegment, htake, hdrop, String.toList_ofList]

/-- INTERNAL: a numeral of fewer than 17 digits is read as it stands. -/
theorem fromStrRadix16_hexFixed {w n : ℕ} (hw : 0 < w) (hn : n < 16 ^ w) (h : n < 2 ^ 64) :
    fromStrRadix16 (hexFixed w n) = some n := by
  have hparse : parseHex (hexFixed w n) = some n := by
    rw [parseHex_hexFixed, Nat.mod_eq_of_lt hn]
  have hne : hexFixed w n ≠ [] := by
    intro hnil
    have hlen := hexFixed_length w n
    rw [hnil, List.length_nil] at hlen
    omega
  unfold fromStrRadix16
  dsimp only
  split
  · -- a plus sign is not a digit
    rename_i rest heq
    have hdigit : hexDigit? '+' = none := by decide
    rw [heq] at hparse
    simp [parseHex, hdigit] at hparse
  · rw [if_neg hne, hparse, Option.bind_some, if_pos h]

/-- INTERNAL: the two numbers are found at their places, with or without the extension. -/
theorem numberInName_digits (hi lo : ℕ) (hhi : hi < 2 ^ 32) (hlo : lo < 2 ^ 32)
    (rest : List Char) :
    numberInName (hexFixed 8 0 ++ hexFixed 8 hi ++ hexFixed 8 lo ++ rest) 8 16 = .ok hi ∧
      numberInName (hexFixed 8 0 ++ hexFixed 8 hi ++ hexFixed 8 lo ++ rest) 16 24 = .ok lo := by
  constructor
  · unfold numberInName
    rw [slice_middle (hexFixed 8 0) (hexFixed 8 hi) (hexFixed 8 lo ++ rest) (by simp) (by simp)
      (by simp)]
    simp only [exec_ok_bind]
    rw [fromStrRadix16_hexFixed (by norm_num) (by omega) (by omega)]
    rfl
  · unfold numberInName
    rw [slice_middle (hexFixed 8 0 ++ hexFixed 8 hi) (hexFixed 8 lo) rest (by simp) (by simp)
      (by simp)]
    simp only [exec_ok_bind]
    rw [fromStrRadix16_hexFixed (by norm_num) (by omega) (by omega)]
    rfl

/-- INTERNAL: the file stem is the 24 digits. -/
theorem fileStem_fileName {lsn : ℕ} (h : lsn < 2 ^ 64) :
    fileStem (s.fileName lsn) =
      hexFixed 8 0 ++ hexFixed 8 (lsn / 2 ^ 32) ++ hexFixed 8 (lsn % 2 ^ 32 / s.val) := by
  have hlen : (hexFixed 8 0 ++ hexFixed 8 (lsn / 2 ^ 32) ++
      hexFixed 8 (lsn % 2 ^ 32 / s.val)).length = 24 := by simp
  unfold fileStem
  rw [fileName_toList s h]
  unfold nameChars
  generalize hexFixed 8 0 ++ hexFixed 8 (lsn / 2 ^ 32) ++ hexFixed 8 (lsn % 2 ^ 32 / s.val) =
    stem at hlen
  have hne : stem.reverse ≠ [] := by
    intro hnil
    rw [List.reverse_eq_nil_iff.mp hnil] at hlen
    simp at hlen
  have hdrop : ((stem ++ ['.', 'w', 'a', 'l']).reverse.dropWhile (· ≠ '.')).drop 1 =
      stem.reverse := by simp
  simp only [hdrop]
  rw [if_neg hne, List.reverse_reverse]

/-- The name of a segment gives the LSN at which it starts. -/
theorem parseBaseLsn_fileName {lsn : ℕ} (h : lsn < 2 ^ 64) :
    parseBaseLsn (s.fileName lsn) s.val = .ok (s.baseOf lsn) := by
  have hno : lsn % 2 ^ 32 / s.val < 2 ^ 32 :=
    lt_of_le_of_lt (Nat.div_le_self _ _) (Nat.mod_lt _ (by norm_num))
  have hle := Nat.div_mul_le_self (lsn % 2 ^ 32) s.val
  obtain ⟨hhi, hlo⟩ := numberInName_digits (lsn / 2 ^ 32)
    (lsn % 2 ^ 32 / s.val) (by omega) hno []
  rw [List.append_nil] at hhi hlo
  unfold parseBaseLsn
  simp only [fileStem_fileName s h]
  rw [assert_true (by simp)]
  simp only [exec_ok_bind, hhi, List.length_append, hexFixed_length, hlo]
  rw [checkedMul_ok (by omega), exec_ok_bind, checkedMul_ok (by omega), exec_ok_bind,
    checkedAdd_ok (by omega), div_mod_mul]

/-- INTERNAL: the name only depends on the segment. -/
theorem fileName_baseOf {lsn : ℕ} (h : lsn < 2 ^ 64) :
    s.fileName (s.baseOf lsn) = s.fileName lsn := by
  have hbase := s.div_mod_mul lsn
  have hle := Nat.div_mul_le_self (lsn % 2 ^ 32) s.val
  have hmod : lsn % 2 ^ 32 < 2 ^ 32 := Nat.mod_lt _ (by norm_num)
  have hhi : s.baseOf lsn / 2 ^ 32 = lsn / 2 ^ 32 := by omega
  have hrem : s.baseOf lsn % 2 ^ 32 = lsn % 2 ^ 32 / s.val * s.val := by omega
  apply String.toList_injective
  rw [fileName_toList s (by omega), fileName_toList s h, hhi, hrem,
    Nat.mul_div_cancel _ s.pos]

/-- Names are ordered as the LSNs at which the segments start. -/
theorem fileName_lt {base base' : ℕ} (hdvd : s.val ∣ base) (hdvd' : s.val ∣ base')
    (hlt : base < base') (h : base' < 2 ^ 64) : s.fileName base < s.fileName base' := by
  have hbase := s.div_mod_mul base
  have hbase' := s.div_mod_mul base'
  rw [s.baseOf_of_dvd hdvd] at hbase
  rw [s.baseOf_of_dvd hdvd'] at hbase'
  have hno' : base' % 2 ^ 32 / s.val < 16 ^ 8 :=
    lt_of_le_of_lt (Nat.div_le_self _ _) (by omega)
  rw [String.lt_iff_toList_lt, fileName_toList s (by omega), fileName_toList s h]
  unfold nameChars
  simp only [List.append_assoc]
  apply append_left_lt
  rcases Nat.lt_or_ge (base / 2 ^ 32) (base' / 2 ^ 32) with hhi | hhi
  · exact append_lt_append (hexFixed_lt hhi (by omega)) (by simp) _ _
  · have hhi_eq : base / 2 ^ 32 = base' / 2 ^ 32 := by omega
    rw [hhi_eq] at hbase ⊢
    apply append_left_lt
    have hno : base % 2 ^ 32 / s.val < base' % 2 ^ 32 / s.val := by
      by_contra hge
      have hmul := Nat.mul_le_mul_right s.val (Nat.not_lt.mp hge)
      omega
    exact append_lt_append (hexFixed_lt hno hno') (by simp) _ _

/-- INTERNAL: names compare as the LSNs at which the segments start. -/
theorem fileName_lt_iff {lsn lsn' : ℕ} (h : lsn < 2 ^ 64) (h' : lsn' < 2 ^ 64) :
    s.fileName lsn < s.fileName lsn' ↔ s.baseOf lsn < s.baseOf lsn' := by
  have hmono : ∀ {m n : ℕ}, m < 2 ^ 64 → n < 2 ^ 64 → s.baseOf m < s.baseOf n →
      s.fileName m < s.fileName n := by
    intro m n hm hn hlt
    have hle := s.baseOf_le n
    have hnames := s.fileName_lt (s.dvd_baseOf m) (s.dvd_baseOf n) hlt (by omega)
    rwa [s.fileName_baseOf hm, s.fileName_baseOf hn] at hnames
  refine ⟨fun hlt => ?_, hmono h h'⟩
  obtain hbase | hbase | hbase := Nat.lt_trichotomy (s.baseOf lsn) (s.baseOf lsn')
  · exact hbase
  · have hname : s.fileName lsn = s.fileName lsn' := by
      rw [← s.fileName_baseOf h, ← s.fileName_baseOf h', hbase]
    rw [hname] at hlt
    exact absurd hlt (lt_irrefl _)
  · exact absurd hlt (lt_asymm (hmono h' h hbase))

/-- INTERNAL: two LSNs have one file exactly if they have one segment. -/
theorem fileName_eq_iff {lsn lsn' : ℕ} (h : lsn < 2 ^ 64) (h' : lsn' < 2 ^ 64) :
    s.fileName lsn = s.fileName lsn' ↔ s.baseOf lsn = s.baseOf lsn' := by
  have hlt := s.fileName_lt_iff h h'
  have hgt := s.fileName_lt_iff h' h
  constructor
  · intro hname
    rw [hname, iff_false_left (lt_irrefl _)] at hlt
    rw [hname, iff_false_left (lt_irrefl _)] at hgt
    omega
  · intro hbase
    rw [← s.fileName_baseOf h, ← s.fileName_baseOf h', hbase]

/-- A segment starts at the greatest multiple of its size up to the LSN. -/
theorem baseOf_isGreatest (lsn : ℕ) : IsGreatest {base | s.val ∣ base ∧ base ≤ lsn} (s.baseOf lsn) := by
  refine ⟨⟨s.dvd_baseOf lsn, s.baseOf_le lsn⟩, ?_⟩
  rintro base ⟨⟨q, rfl⟩, hle⟩
  unfold baseOf
  rw [Nat.mul_comm]
  exact Nat.mul_le_mul_right _ ((Nat.le_div_iff_mul_le s.pos).mpr (by rwa [Nat.mul_comm]))

/-- The name of a segment gives the largest multiple of the segment size that is not above the
LSN, and names compare as these LSNs do.
SOURCE: wal/segment.rs:64-91, 115-145 -/
theorem names_agree {lsn : ℕ} (h : lsn < 2 ^ 64) :
    (∃ base, IsGreatest {b | s.val ∣ b ∧ b ≤ lsn} base ∧
      (∀ dir, ∃ seg, Segment.new dir (determineSegmentFilename 0 lsn s.val) s.val = .ok seg ∧
        seg.baseLsn = base) ∧
      ∀ fileSize, ∃ seg, Segment.fromFile (determineSegmentFilename 0 lsn s.val) fileSize s.val =
        .ok seg ∧ seg.baseLsn = base) ∧
    ∀ lsn' base base', lsn' < 2 ^ 64 → IsGreatest {b | s.val ∣ b ∧ b ≤ lsn} base →
      IsGreatest {b | s.val ∣ b ∧ b ≤ lsn'} base' →
      (determineSegmentFilename 0 lsn s.val < determineSegmentFilename 0 lsn' s.val ↔
        base < base') ∧
      (determineSegmentFilename 0 lsn s.val = determineSegmentFilename 0 lsn' s.val ↔
        base = base') := by
  have hparse := s.parseBaseLsn_fileName h
  unfold fileName at hparse
  refine ⟨⟨s.baseOf lsn, s.baseOf_isGreatest lsn, fun dir => ?_, fun fileSize => ?_⟩, ?_⟩
  · unfold Segment.new
    rw [hparse]
    exact ⟨_, rfl, rfl⟩
  · unfold Segment.fromFile
    rw [hparse]
    exact ⟨_, rfl, rfl⟩
  · intro lsn' base base' h' hbase hbase'
    rw [hbase.unique (s.baseOf_isGreatest lsn), hbase'.unique (s.baseOf_isGreatest lsn')]
    exact ⟨s.fileName_lt_iff h h', s.fileName_eq_iff h h'⟩

/-- The last segment of 64 KiB in a logical log, and the first one of the next log. -/
theorem names_agree_next_log :
    determineSegmentFilename 0 4294967295 65536 < determineSegmentFilename 0 4294967296 65536 := by
  have hagree := (@names_agree ⟨65536, by norm_num, by norm_num⟩ 4294967295 (by norm_num)).2
    4294967296 _ _ (by norm_num) (baseOf_isGreatest _ _) (baseOf_isGreatest _ _)
  apply hagree.1.mpr
  norm_num [baseOf]

/-! ## The end of a file as `final_entry_after` sees it -/

/-- The LSN that `final_entry_after` takes for the end of a file.
SOURCE: wal/segment.rs:93-99 -/
def endSeen (base fileSize : ℕ) : ℕ :=
  base / 2 ^ 32 * 2 ^ 32 + fileSize * (base % 2 ^ 32 / s.val + 1)

/-- `final_entry_after` compares with the end it sees, if that does not overflow. -/
theorem finalEntryAfter_fileName {base fileSize : ℕ} (h : base < 2 ^ 64)
    (hsize : fileSize ≤ s.val) (n : ℕ) :
    finalEntryAfter (s.fileName base) fileSize n =
      if s.endSeen base fileSize < 2 ^ 64 then .ok (decide (n < s.endSeen base fileSize))
      else .error .panic := by
  have hno : base % 2 ^ 32 / s.val < 2 ^ 32 :=
    lt_of_le_of_lt (Nat.div_le_self _ _) (Nat.mod_lt _ (by norm_num))
  obtain ⟨hhi, hlo⟩ := numberInName_digits (base / 2 ^ 32)
    (base % 2 ^ 32 / s.val) (by omega) hno ['.', 'w', 'a', 'l']
  have hlt := s.lt
  have hmul : fileSize * (base % 2 ^ 32 / s.val + 1) < 2 ^ 64 := by
    calc fileSize * (base % 2 ^ 32 / s.val + 1) ≤ s.val * 2 ^ 32 :=
          Nat.mul_le_mul hsize hno
      _ < 2 ^ 64 := by omega
  unfold finalEntryAfter
  rw [fileName_toList s h]
  unfold nameChars
  simp only [hhi, hlo, exec_ok_bind]
  rw [checkedMul_ok (by omega), exec_ok_bind, checkedAdd_ok (by omega), exec_ok_bind,
    checkedMul_ok hmul, exec_ok_bind]
  unfold endSeen checkedAdd
  split
  · rfl
  · rfl

/-- INTERNAL: the end seen is not past the end of the data. -/
theorem endSeen_le {base fileSize : ℕ} (hdvd : s.val ∣ base) (hsize : fileSize ≤ s.val) :
    s.endSeen base fileSize ≤ base + fileSize := by
  have hbase := s.div_mod_mul base
  rw [s.baseOf_of_dvd hdvd] at hbase
  have hmul : fileSize * (base % 2 ^ 32 / s.val) ≤ base % 2 ^ 32 / s.val * s.val := by
    rw [Nat.mul_comm]
    exact Nat.mul_le_mul_left _ hsize
  unfold endSeen
  rw [Nat.mul_succ]
  omega

/-- INTERNAL: a file with data in it is listed from sequence number 0 on. -/
theorem endSeen_pos (base : ℕ) {fileSize : ℕ} (h : 0 < fileSize) : 0 < s.endSeen base fileSize := by
  unfold endSeen
  rw [Nat.mul_succ]
  omega

/-- A full segment ends where its name says. -/
theorem endSeen_full {base : ℕ} (hdvd : s.val ∣ base) : s.endSeen base s.val = base + s.val := by
  have hbase := s.div_mod_mul base
  rw [s.baseOf_of_dvd hdvd] at hbase
  unfold endSeen
  rw [Nat.mul_succ, Nat.mul_comm s.val]
  omega

end SegmentSize

end Rkvs.Analysis
