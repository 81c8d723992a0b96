import Rkvs.Interface.Recovery

/-!
# Which segments a selection takes

The number that the selection looks for starts with the highest one and gets smaller with every
segment it looks at. So round `r` takes the segment at place `j` of `n` segments if its number is
`r * n + j` below the highest.
-/

set_option autoImplicit false

namespace Rkvs.Interface

open Rkvs.Model

/-- The segment at a place is taken in a round. -/
def TakenIn (segments : List Sst.Segment) (round : ℕ) (place : Sst.Segment × ℕ) : Prop :=
  place.1.number + (round * segments.length + place.2) = Sst.highestNumber segments

instance (segments : List Sst.Segment) (round : ℕ) : DecidablePred (TakenIn segments round) :=
  fun _ => inferInstanceAs (Decidable (_ = _))

/-- The segments of a round. -/
def takenIn (segments : List Sst.Segment) (round : ℕ) : List Sst.Segment :=
  (segments.zipIdx.filter (TakenIn segments round ·)).map Prod.fst

/-- The segments that no round before takes. -/
def leftBefore (segments : List Sst.Segment) (round : ℕ) : List Sst.Segment :=
  (segments.zipIdx.filter fun place => ∀ r < round, ¬TakenIn segments r place).map Prod.fst

/-- After some number of rounds that the highest number is high enough for, what is left is within
the target. -/
def RoundsSuffice (segments : List Sst.Segment) (targetSize : ℕ) : Prop :=
  ∃ rounds, rounds * segments.length ≤ Sst.highestNumber segments ∧
    fileSizes (leftBefore segments rounds) ≤ targetSize

/-- A selection returns different segments of the level, and those it does not return are within
the target. -/
def ChoosesEnough (selection : Exec (List Sst.Segment)) (segments : List Sst.Segment)
    (targetSize : ℕ) : Prop :=
  ∃ selected, selection = .ok selected ∧ (∀ s ∈ selected, s ∈ segments) ∧ selected.Nodup ∧
    fileSizes (segments.filter (· ∉ selected)) ≤ targetSize

end Rkvs.Interface
