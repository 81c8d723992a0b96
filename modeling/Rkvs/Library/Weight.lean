import Mathlib.Data.Finmap
import Mathlib.Algebra.BigOperators.Group.Multiset.Basic

/-!
# Weights of finite maps

The sum of a weight over the entries of a finite map. An insert under a new key adds the weight of
the entry; under a key that is there it also takes that of the old one away.
-/

set_option autoImplicit false

namespace Rkvs.Library

variable {κ β : Type} (f : κ → β → ℕ)

/-- The sum of the weights of the entries. -/
def weight (table : Finmap fun _ : κ => β) : ℕ :=
  (table.entries.map fun entry => f entry.1 entry.2).sum

@[simp] theorem weight_empty : weight f (∅ : Finmap fun _ : κ => β) = 0 := rfl

variable [DecidableEq κ] {table : Finmap fun _ : κ => β} {key : κ}

theorem weight_insert_of_notMem (h : key ∉ table) (value : β) :
    weight f (table.insert key value) = f key value + weight f table := by
  unfold weight
  rw [Finmap.entries_insert_of_notMem h, Multiset.map_cons, Multiset.sum_cons]

/-- INTERNAL: an insert replaces what was there. -/
theorem insert_erase (value : β) :
    (table.erase key).insert key value = table.insert key value := by
  apply Finmap.ext_lookup
  intro other
  by_cases hother : other = key
  · rw [hother, Finmap.lookup_insert, Finmap.lookup_insert]
  · rw [Finmap.lookup_insert_of_ne _ hother, Finmap.lookup_insert_of_ne _ hother,
      Finmap.lookup_erase_ne hother]

/-- INTERNAL: an insert of what is there changes nothing. -/
theorem insert_lookup {old : β} (h : table.lookup key = some old) :
    table.insert key old = table := by
  apply Finmap.ext_lookup
  intro other
  by_cases hother : other = key
  · rw [hother, Finmap.lookup_insert, h]
  · rw [Finmap.lookup_insert_of_ne _ hother]

theorem weight_insert_of_lookup {old : β} (h : table.lookup key = some old) (value : β) :
    weight f (table.insert key value) + f key old = f key value + weight f table := by
  have hnew := @weight_insert_of_notMem κ β f _ (table.erase key) key Finmap.notMem_erase_self
  have hvalue := hnew value
  have hold := hnew old
  rw [insert_erase] at hvalue hold
  rw [insert_lookup h] at hold
  omega

/-- An insert adds at most the weight of its entry. -/
theorem weight_insert_le (table : Finmap fun _ : κ => β) (key : κ) (value : β) :
    weight f (table.insert key value) ≤ weight f table + f key value := by
  cases hlookup : table.lookup key with
  | none =>
    rw [weight_insert_of_notMem f (Finmap.lookup_eq_none.mp hlookup)]
    omega
  | some old =>
    have hreplaced := weight_insert_of_lookup f hlookup value
    omega

end Rkvs.Library
