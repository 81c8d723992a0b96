import Rkvs.Library.LittleEndian
import Mathlib.Data.String.Basic
import Mathlib.Data.List.Nodup

/-!
# What the Rust code runs on

Panics, checked machine arithmetic, slices, UTF-8, and one directory of files.

A call either returns, fails with an I/O error, or panics (a failed assertion, an overflow, a
slice out of range, `unwrap` on `None`). Overflow is checked, as in the default build profile.
Code that changes a file runs in `EStateM Fault σ`, so that what was done before a failing
operation stays done. A directory carries the outcomes of the file operations to come; with
none left every operation succeeds.
-/

set_option autoImplicit false

namespace Rkvs.Model

open Rkvs.Library

/-- The I/O errors the storage engine tells apart. -/
inductive ErrorKind
  | notFound
  | fileTooLarge
  | invalidInput
  | notConnected
  | other
  deriving DecidableEq, Repr

/-- How a call can end other than by returning. -/
inductive Fault
  | io (kind : ErrorKind)
  | panic
  deriving DecidableEq, Repr

/-- The result of code without a state that outlives its failure. -/
abbrev Exec := Except Fault

/-- Bytes, as in a `Vec<u8>`. -/
abbrev Bytes := List UInt8

/-- INTERNAL: going on with a result. -/
@[simp] theorem exec_ok_bind {ε α β : Type} (a : α) (f : α → Except ε β) :
    (Except.ok a >>= f) = f a := (rfl)

/-- INTERNAL: going no further after a failure. -/
@[simp] theorem exec_error_bind {ε α β : Type} (e : ε) (f : α → Except ε β) :
    ((Except.error e : Except ε α) >>= f) = .error e := (rfl)

/-- INTERNAL: a function of a result. -/
@[simp] theorem map_ok {ε α β : Type} (f : α → β) (a : α) :
    f <$> (Except.ok a : Except ε α) = .ok (f a) := (rfl)

/-- INTERNAL: returning is a result. -/
@[simp] theorem exec_pure {ε α : Type} (a : α) : (pure a : Except ε α) = .ok a := (rfl)

/-- INTERNAL: a sequence returns exactly when both parts do. -/
theorem exec_bind_eq_ok {ε α β : Type} {x : Except ε α} {f : α → Except ε β} {b : β} :
    (x >>= f) = .ok b ↔ ∃ a, x = .ok a ∧ f a = .ok b := by
  cases x with
  | error e => simp
  | ok a => simp

/-- INTERNAL: where the result of a function comes from. -/
theorem exec_map_eq_ok {ε α β : Type} {x : Except ε α} {f : α → β} {b : β} :
    f <$> x = .ok b ↔ ∃ a, x = .ok a ∧ f a = b := by
  cases x with
  | error e => simp [Functor.map, Except.map]
  | ok a => simp

/-- A computation without state, run inside one that has a state. -/
def liftExec {σ α : Type} (x : Exec α) : EStateM Fault σ α := fun s =>
  match x with
  | .ok a => .ok a s
  | .error e => .error e s

/-- INTERNAL: a result leaves the state as it is. -/
@[simp] theorem run_liftExec_ok {σ α : Type} (a : α) (s : σ) :
    (liftExec (.ok a : Exec α)).run s = .ok a s := (rfl)

/-- INTERNAL: so does a failure. -/
@[simp] theorem run_liftExec_error {σ α : Type} (e : Fault) (s : σ) :
    (liftExec (.error e : Exec α)).run s = .error e s := (rfl)

/-- INTERNAL: a sequence goes on from where its first part ends. -/
theorem run_bind_ok {ε σ α β : Type} {x : EStateM ε σ α} {f : α → EStateM ε σ β}
    {s s' : σ} {a : α} (h : x.run s = .ok a s') : (x >>= f).run s = (f a).run s' := by
  rw [EStateM.run_bind, h]

/-- INTERNAL: a sequence ends where its first part fails. -/
theorem run_bind_error {ε σ α β : Type} {x : EStateM ε σ α} {f : α → EStateM ε σ β}
    {s s' : σ} {e : ε} (h : x.run s = .error e s') : (x >>= f).run s = .error e s' := by
  rw [EStateM.run_bind, h]

/-- INTERNAL: a sequence that returns has gone through both parts. -/
theorem run_bind_eq_ok {ε σ α β : Type} {x : EStateM ε σ α} {f : α → EStateM ε σ β}
    {s s' : σ} {b : β} (h : (x >>= f).run s = .ok b s') :
    ∃ a mid, x.run s = .ok a mid ∧ (f a).run mid = .ok b s' := by
  rw [EStateM.run_bind] at h
  cases hx : x.run s with
  | ok a mid =>
    rw [hx] at h
    exact ⟨a, mid, rfl, h⟩
  | error e mid =>
    rw [hx] at h
    cases h

/-- INTERNAL: a sequence that fails does so in one of its parts. -/
theorem run_bind_eq_error {ε σ α β : Type} {x : EStateM ε σ α} {f : α → EStateM ε σ β}
    {s s' : σ} {e : ε} (h : (x >>= f).run s = .error e s') :
    x.run s = .error e s' ∨ ∃ a mid, x.run s = .ok a mid ∧ (f a).run mid = .error e s' := by
  rw [EStateM.run_bind] at h
  cases hx : x.run s with
  | ok a mid =>
    rw [hx] at h
    exact Or.inr ⟨a, mid, rfl, h⟩
  | error e mid =>
    rw [hx] at h
    exact Or.inl (by simpa using h)

/-- INTERNAL: a changed result comes from a result. -/
theorem run_map_eq_ok {ε σ α β : Type} {x : EStateM ε σ α} {f : α → β} {s s' : σ} {b : β}
    (h : (f <$> x).run s = .ok b s') : ∃ a, x.run s = .ok a s' ∧ f a = b := by
  change EStateM.map f x s = _ at h
  unfold EStateM.map at h
  cases hx : x s with
  | ok a mid =>
    rw [hx] at h
    cases h
    exact ⟨a, hx, rfl⟩
  | error e mid =>
    rw [hx] at h
    cases h

/-- INTERNAL: a computation without state that returns leaves the state alone. -/
theorem run_liftExec_eq_ok {σ α : Type} {x : Exec α} {s s' : σ} {a : α}
    (h : (liftExec x).run s = .ok a s') : x = .ok a ∧ s' = s := by
  cases x with
  | ok b =>
    cases h
    exact ⟨rfl, rfl⟩
  | error e => cases h

/-- INTERNAL: and so does one that fails. -/
theorem run_liftExec_eq_error {σ α : Type} {x : Exec α} {s s' : σ} {e : Fault}
    (h : (liftExec x).run s = .error e s') : x = .error e ∧ s' = s := by
  cases x with
  | ok b => cases h
  | error e =>
    cases h
    exact ⟨rfl, rfl⟩

/-! ## Parts of the state -/

/-- A part of a state that calls can be made on. -/
structure StatePart (σ τ : Type) where
  get : σ → τ
  set : σ → τ → σ

section
variable {ε σ τ α : Type} (part : StatePart σ τ) {x : EStateM ε τ α} {s s' : σ}

/-- A call on a part of the state. -/
def onPart (x : EStateM ε τ α) : EStateM ε σ α := fun s =>
  match x.run (part.get s) with
  | .ok a t => .ok a (part.set s t)
  | .error e t => .error e (part.set s t)

/-- INTERNAL: a result on the part is one on the whole. -/
theorem run_onPart_ok {a : α} {t : τ} (h : x.run (part.get s) = .ok a t) :
    (onPart part x).run s = .ok a (part.set s t) := by
  show (match x.run (part.get s) with
    | .ok a t => EStateM.Result.ok a (part.set s t)
    | .error e t => .error e (part.set s t)) = _
  rw [h]

/-- INTERNAL: a failure on the part is one on the whole. -/
theorem run_onPart_error {e : ε} {t : τ} (h : x.run (part.get s) = .error e t) :
    (onPart part x).run s = .error e (part.set s t) := by
  show (match x.run (part.get s) with
    | .ok a t => EStateM.Result.ok a (part.set s t)
    | .error e t => .error e (part.set s t)) = _
  rw [h]

variable {part}

/-- INTERNAL: a call on a part that returns changes that part only. -/
theorem run_onPart_eq_ok {a : α} (h : (onPart part x).run s = .ok a s') :
    ∃ t, x.run (part.get s) = .ok a t ∧ s' = part.set s t := by
  cases hx : x.run (part.get s) with
  | ok b t =>
    rw [run_onPart_ok part hx] at h
    cases h
    exact ⟨t, rfl, rfl⟩
  | error e t =>
    rw [run_onPart_error part hx] at h
    cases h

/-- INTERNAL: and so does one that fails. -/
theorem run_onPart_eq_error {e : ε} (h : (onPart part x).run s = .error e s') :
    ∃ t, x.run (part.get s) = .error e t ∧ s' = part.set s t := by
  cases hx : x.run (part.get s) with
  | ok a t =>
    rw [run_onPart_ok part hx] at h
    cases h
  | error f t =>
    rw [run_onPart_error part hx] at h
    cases h
    exact ⟨t, rfl, rfl⟩

end

/-! ## What panics -/

/-- `assert!`. -/
def assert (p : Prop) [Decidable p] : Exec Unit := if p then .ok () else .error .panic

/-- `Option::unwrap`. -/
def unwrap {α : Type} : Option α → Exec α
  | some a => .ok a
  | none => .error .panic

/-- Addition of unsigned integers of `w` bits. -/
def checkedAdd (w a b : ℕ) : Exec ℕ := if a + b < 2 ^ w then .ok (a + b) else .error .panic

/-- Multiplication of unsigned integers of `w` bits. -/
def checkedMul (w a b : ℕ) : Exec ℕ := if a * b < 2 ^ w then .ok (a * b) else .error .panic

/-- Subtraction of unsigned integers. -/
def checkedSub (a b : ℕ) : Exec ℕ := if b ≤ a then .ok (a - b) else .error .panic

/-- Remainder of unsigned integers. -/
def checkedMod (a b : ℕ) : Exec ℕ := if b = 0 then .error .panic else .ok (a % b)

/-- `&l[start..stop]`. -/
def slice {α : Type} (l : List α) (start stop : ℕ) : Exec (List α) :=
  if start ≤ stop ∧ stop ≤ l.length then .ok ((l.drop start).take (stop - start))
  else .error .panic

/-- `u32::from_le_bytes` of `&l[start..start + 4]`. -/
def sliceU32 (l : Bytes) (start : ℕ) : Exec ℕ := leValue <$> slice l start (start + 4)

/-- INTERNAL: an assertion that holds. -/
@[simp] theorem assert_true {p : Prop} [Decidable p] (h : p) : assert p = .ok () := if_pos h

/-- INTERNAL: unwrapping a value. -/
@[simp] theorem unwrap_some {α : Type} (a : α) : unwrap (some a) = .ok a := rfl

/-- INTERNAL: unwrapping no value. -/
@[simp] theorem unwrap_none {α : Type} : unwrap (none : Option α) = .error .panic := rfl

/-- INTERNAL: what was unwrapped. -/
theorem unwrap_eq_ok {α : Type} {o : Option α} {a : α} : unwrap o = .ok a ↔ o = some a := by
  cases o <;> simp

/-- INTERNAL: an addition without an overflow. -/
theorem checkedAdd_ok {w a b : ℕ} (h : a + b < 2 ^ w) : checkedAdd w a b = .ok (a + b) :=
  if_pos h

/-- INTERNAL: a multiplication without an overflow. -/
theorem checkedMul_ok {w a b : ℕ} (h : a * b < 2 ^ w) : checkedMul w a b = .ok (a * b) :=
  if_pos h

/-- INTERNAL: a subtraction without an overflow. -/
theorem checkedSub_ok {a b : ℕ} (h : b ≤ a) : checkedSub a b = .ok (a - b) := if_pos h

/-- INTERNAL: a sum that does not overflow. -/
theorem checkedAdd_eq_ok {w a b n : ℕ} (h : checkedAdd w a b = .ok n) :
    a + b = n ∧ a + b < 2 ^ w := by
  by_cases hlt : a + b < 2 ^ w
  · rw [checkedAdd_ok hlt] at h
    exact ⟨Except.ok.inj h, hlt⟩
  · rw [checkedAdd, if_neg hlt] at h
    cases h

/-- INTERNAL: arithmetic fails with a panic only. -/
theorem checkedAdd_ne_io {w a b : ℕ} {kind : ErrorKind} : checkedAdd w a b ≠ .error (.io kind) := by
  unfold checkedAdd
  split <;> simp

/-- INTERNAL: an assertion that passed holds. -/
theorem of_assert {p : Prop} [Decidable p] {u : Unit} (h : assert p = .ok u) : p := by
  by_contra hnot
  rw [assert, if_neg hnot] at h
  cases h

/-- INTERNAL: an assertion fails with a panic. -/
theorem assert_ne_io {p : Prop} [Decidable p] {kind : ErrorKind} :
    assert p ≠ .error (.io kind) := by
  unfold assert
  split <;> simp

/-- INTERNAL: a product that does not overflow. -/
theorem checkedMul_eq_ok {w a b n : ℕ} (h : checkedMul w a b = .ok n) :
    a * b = n ∧ a * b < 2 ^ w := by
  by_cases hlt : a * b < 2 ^ w
  · rw [checkedMul_ok hlt] at h
    exact ⟨Except.ok.inj h, hlt⟩
  · rw [checkedMul, if_neg hlt] at h
    cases h

/-- INTERNAL: a difference that does not underflow. -/
theorem checkedSub_eq_ok {a b n : ℕ} (h : checkedSub a b = .ok n) : b ≤ a ∧ a - b = n := by
  by_cases hle : b ≤ a
  · rw [checkedSub_ok hle] at h
    exact ⟨hle, Except.ok.inj h⟩
  · rw [checkedSub, if_neg hle] at h
    cases h

/-- INTERNAL: a remainder of a division not by zero. -/
theorem checkedMod_ok {a b : ℕ} (h : 0 < b) : checkedMod a b = .ok (a % b) :=
  if_neg (Nat.pos_iff_ne_zero.mp h)

/-- INTERNAL: a slice within its bounds. -/
theorem slice_ok {α : Type} {l : List α} {start stop : ℕ} (h : start ≤ stop)
    (hlen : stop ≤ l.length) : slice l start stop = .ok ((l.drop start).take (stop - start)) :=
  if_pos ⟨h, hlen⟩

/-- INTERNAL: what was sliced was within its bounds. -/
theorem slice_eq_ok {α : Type} {l r : List α} {start stop : ℕ} (h : slice l start stop = .ok r) :
    start ≤ stop ∧ stop ≤ l.length ∧ r = (l.drop start).take (stop - start) := by
  unfold slice at h
  split at h
  · rename_i hin
    exact ⟨hin.1, hin.2, (Except.ok.inj h).symm⟩
  · cases h

/-- INTERNAL: a number of 32 bits is read from anywhere in the buffer. -/
theorem sliceU32_ok {l : Bytes} {start : ℕ} (h : start + 4 ≤ l.length) :
    sliceU32 l start = .ok (leValue ((l.drop start).take 4)) := by
  unfold sliceU32
  rw [slice_ok (by omega) h, Nat.add_sub_cancel_left]
  rfl

/-- INTERNAL: a number of 32 bits stands in its place. -/
theorem sliceU32_eq_ok {l : Bytes} {start n : ℕ} (h : sliceU32 l start = .ok n) :
    start + 4 ≤ l.length ∧ n = leValue ((l.drop start).take 4) := by
  unfold sliceU32 at h
  obtain ⟨r, hr, hn⟩ := exec_map_eq_ok.mp h
  obtain ⟨-, hlen, rfl⟩ := slice_eq_ok hr
  rw [Nat.add_sub_cancel_left] at hn
  exact ⟨hlen, hn.symm⟩

/-- INTERNAL: a slice that lies between a front and a rear part is the middle part. -/
theorem slice_middle {α : Type} {l : List α} (front middle rear : List α)
    (h : l = front ++ middle ++ rear) {start stop : ℕ} (hstart : start = front.length)
    (hstop : stop = front.length + middle.length) : slice l start stop = .ok middle := by
  subst h hstart hstop
  rw [slice_ok (by omega) (by simp)]
  simp

/-- INTERNAL: a number of 32 bits is read back from its place. -/
theorem sliceU32_middle {l : Bytes} (front rear : Bytes) {n : ℕ}
    (h : l = front ++ leBytes 4 n ++ rear) {start : ℕ} (hstart : start = front.length)
    (hn : n < 2 ^ 32) : sliceU32 l start = .ok n := by
  unfold sliceU32
  rw [slice_middle front (leBytes 4 n) rear h hstart (by simp [hstart])]
  show Except.ok (leValue (leBytes 4 n)) = _
  rw [leValue_leBytes (by omega)]

/-- The UTF-8 bytes of a string. -/
def asBytes (s : String) : Bytes := s.toUTF8.data.toList

/-- `String::from_utf8`. -/
def fromUtf8 (bytes : Bytes) : Option String := String.fromUTF8? ⟨bytes.toArray⟩

/-- INTERNAL: a string is read back from its bytes. -/
@[simp] theorem fromUtf8_asBytes (s : String) : fromUtf8 (asBytes s) = some s := by
  have harr : (⟨(asBytes s).toArray⟩ : ByteArray) = s.toByteArray := by simp [asBytes]
  unfold fromUtf8 String.fromUTF8?
  rw [harr]
  have hvalid : s.toByteArray.IsValidUTF8 := s.isValidUTF8
  simp [hvalid, String.fromUTF8]

/-- INTERNAL: bytes that are taken for a string are its bytes. -/
theorem asBytes_of_fromUtf8 {bytes : Bytes} {s : String} (h : fromUtf8 bytes = some s) :
    asBytes s = bytes := by
  unfold fromUtf8 String.fromUTF8? at h
  split at h
  · obtain rfl := Option.some.inj h
    simp [asBytes, String.fromUTF8, String.toUTF8]
  · cases h

/-- INTERNAL: a string stands in a buffer behind a field of 4 bytes. -/
theorem split_field {bytes : Bytes} {offset n : ℕ} {s : String}
    (hin : offset + 4 + n ≤ bytes.length)
    (hs : fromUtf8 ((bytes.drop (offset + 4)).take n) = some s) :
    bytes.drop offset = (bytes.drop offset).take 4 ++ asBytes s ++ bytes.drop (offset + 4 + n) ∧
      (asBytes s).length = n ∧ ((bytes.drop offset).take 4).length = 4 := by
  have hbytes := asBytes_of_fromUtf8 hs
  have hlen : (asBytes s).length = n := by
    rw [hbytes, List.length_take, List.length_drop]
    omega
  have hfour : ((bytes.drop offset).take 4).length = 4 := by
    rw [List.length_take, List.length_drop]
    omega
  have hbehind : bytes.drop (offset + 4 + n) = (bytes.drop (offset + 4)).drop n :=
    List.drop_drop.symm
  have hrest : bytes.drop (offset + 4) = (bytes.drop offset).drop 4 := List.drop_drop.symm
  refine ⟨?_, hlen, hfour⟩
  rw [hbytes, hbehind, List.append_assoc, List.take_append_drop, hrest, List.take_append_drop]

/-- INTERNAL: a string with its length in front of it stands in a buffer. -/
theorem split_string {bytes : Bytes} {offset : ℕ} {s : String}
    (hin : offset + 4 + leValue ((bytes.drop offset).take 4) ≤ bytes.length)
    (hs : fromUtf8 ((bytes.drop (offset + 4)).take (leValue ((bytes.drop offset).take 4))) =
      some s) :
    bytes.drop offset = leBytes 4 (asBytes s).length ++ asBytes s ++
        bytes.drop (offset + 4 + leValue ((bytes.drop offset).take 4)) ∧
      (asBytes s).length = leValue ((bytes.drop offset).take 4) := by
  obtain ⟨hsplit, hlen, hfour⟩ := split_field hin hs
  have hnumber := leBytes_leValue ((bytes.drop offset).take 4)
  rw [hfour, ← hlen] at hnumber
  rw [hnumber]
  exact ⟨hsplit, hlen⟩

/-- INTERNAL: only the empty string has no bytes. -/
theorem asBytes_eq_nil {s : String} : asBytes s = [] ↔ s = "" := by
  constructor
  · intro h
    have hsome := fromUtf8_asBytes s
    rw [h] at hsome
    exact (Option.some.inj hsome).symm
  · rintro rfl
    rfl

end Rkvs.Model
