import Mathlib.Data.Finmap

/-!
# Tables filled by a sequence of writes

Inserting one write after the other into a finite map leaves, for every key, the last value
written to it, or what was there before if there was no such write.
-/

set_option autoImplicit false

namespace Rkvs.Library

section
variable {ω α β : Type} [DecidableEq α] (key : ω → α) (value : ω → β)

/-- The table after the writes. -/
def writeAll (table : Finmap fun _ : α => β) (ws : List ω) : Finmap fun _ : α => β :=
  ws.foldl (fun table w => table.insert (key w) (value w)) table

/-- The last of the writes to a key. -/
def lastTo (ws : List ω) (a : α) : Option ω := ws.reverse.find? fun w => key w = a

variable {key value}

/-- INTERNAL: a later write hides the earlier ones. -/
theorem lastTo_append (ws ws' : List ω) (a : α) :
    lastTo key (ws ++ ws') a = (lastTo key ws' a).or (lastTo key ws a) := by
  simp [lastTo]

/-- INTERNAL: the last write to a key is one of the writes and writes that key. -/
theorem lastTo_some {ws : List ω} {a : α} {w : ω} (h : lastTo key ws a = some w) :
    w ∈ ws ∧ key w = a := by
  unfold lastTo at h
  have hkey := List.find?_some h
  exact ⟨List.mem_reverse.mp (List.mem_of_find?_eq_some h), of_decide_eq_true hkey⟩

/-- INTERNAL: a key without a write has no last one. -/
theorem lastTo_eq_none {ws : List ω} {a : α} :
    lastTo key ws a = none ↔ ∀ w ∈ ws, key w ≠ a := by
  simp [lastTo]

/-- The table holds the last write to every key. -/
theorem lookup_writeAll (table : Finmap fun _ : α => β) (ws : List ω) (a : α) :
    (writeAll key value table ws).lookup a =
      ((lastTo key ws a).map value).or (table.lookup a) := by
  induction ws generalizing table with
  | nil => simp [writeAll, lastTo]
  | cons w ws ih =>
    have hstep : writeAll key value table (w :: ws) =
        writeAll key value (table.insert (key w) (value w)) ws := rfl
    have hlast : lastTo key (w :: ws) a = (lastTo key ws a).or (lastTo key [w] a) :=
      lastTo_append [w] ws a
    rw [hstep, ih, hlast]
    by_cases hkey : key w = a
    · have hone : lastTo key [w] a = some w := by simp [lastTo, hkey]
      rw [hone, hkey, Finmap.lookup_insert]
      cases lastTo key ws a <;> rfl
    · have hone : lastTo key [w] a = none := by simp [lastTo, hkey]
      rw [hone, Finmap.lookup_insert_of_ne _ (Ne.symm hkey), Option.or_none]

end

end Rkvs.Library
