import Lox.Tree

/-!
# Distances

A distance says how many scopes out from its use the binding of a variable lies. `Distances` records
them by node. A node without a distance refers to a global variable. Node identities are handed out
in order, so the table is an array.
-/

namespace Lox

/-- The recorded distances, by node. -/
structure Distances where
  entries : Array (Option Nat) := #[]
  deriving DecidableEq, Inhabited

namespace Distances

/-- The distance recorded for a node. -/
def find? (d : Distances) (id : NodeId) : Option Nat := (d.entries[id.toNat]?).join

/-- Record the distance of a node, in place of an earlier one. -/
def record (d : Distances) (id : NodeId) (distance : Nat) : Distances :=
  if id.toNat < d.entries.size then ⟨d.entries.setIfInBounds id.toNat (some distance)⟩
  else ⟨(d.entries ++ Array.replicate (id.toNat - d.entries.size) none).push (some distance)⟩

@[simp] theorem find?_empty (id : NodeId) : find? {} id = none := by simp [find?]

theorem size_padded (d : Distances) {id : Nat} (h : ¬id < d.entries.size) :
    (d.entries ++ Array.replicate (id - d.entries.size) none).size = id := by
  rw [Array.size_append, Array.size_replicate]
  exact Nat.add_sub_cancel' (Nat.le_of_not_lt h)

theorem find?_record_self (d : Distances) (id : NodeId) (distance : Nat) :
    (d.record id distance).find? id = some distance := by
  unfold record find?
  split
  · simp_all
  · rw [Array.getElem?_push, size_padded d ‹_›, if_pos rfl, Option.join_some]

theorem find?_record_ne (d : Distances) {id other : NodeId} (h : other ≠ id) (distance : Nat) :
    (d.record id distance).find? other = d.find? other := by
  have hindex : other.toNat ≠ id.toNat := fun heq => h (UInt32.toNat_inj.mp heq)
  unfold record find?
  split
  · rw [Array.getElem?_setIfInBounds_ne hindex.symm]
  · rw [Array.getElem?_push, size_padded d ‹_›, if_neg hindex, Array.getElem?_append]
    split
    · rfl
    · rw [Array.getElem?_replicate, Array.getElem?_eq_none (Nat.le_of_not_lt ‹_›)]
      split <;> rfl

end Distances

end Lox
