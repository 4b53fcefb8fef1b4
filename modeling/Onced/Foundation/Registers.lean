import Mathlib

/-! # Registers that only rise

Each key has a register and a rank, and an observed key raises its register to its rank.
A register ends up with the least upper bound of what it started with and of the ranks of
its keys, so only the set of the observed keys matters.
-/

namespace Onced.Foundation

universe u v w

variable {κ : Type u} {ι : Type v} {α : Type w} [DecidableEq ι] [SemilatticeSup α]
  (place : κ → ι) (rank : κ → α)

/-- Raise the register of a key to its rank. -/
def raise (registers : ι → α) (key : κ) : ι → α := fun index =>
  if place key = index then registers index ⊔ rank key else registers index

theorem isLUB_foldl_raise (registers : ι → α) (keys : List κ) (index : ι) :
    IsLUB (insert (registers index) {value | ∃ key ∈ keys, place key = index ∧ rank key = value})
      (keys.foldl (raise place rank) registers index) := by
  induction keys generalizing registers with
  | nil => simp
  | cons key keys ih =>
      -- the first key moves from the observed keys to the start of its register
      rw [isLUB_iff_le_iff]
      intro bound
      rw [List.foldl_cons, isLUB_le_iff (ih (raise place rank registers key))]
      simp only [mem_upperBounds, Set.forall_mem_insert, Set.mem_ofPred_eq,
        List.exists_mem_cons_iff,
        raise, forall_exists_index, and_imp, or_imp, forall_and]
      split
      next hplace => simp [hplace, and_assoc]
      next hplace => simp [hplace]

/-- No key lowers a register. -/
theorem le_foldl_raise (registers : ι → α) (keys : List κ) (index : ι) :
    registers index ≤ keys.foldl (raise place rank) registers index :=
  (isLUB_foldl_raise place rank registers keys index).1 (Set.mem_insert _ _)

/-- Which keys were observed matters, but neither their order nor how often. -/
theorem foldl_raise_congr (registers : ι → α) {keys other : List κ}
    (hsame : ∀ key, key ∈ keys ↔ key ∈ other) :
    keys.foldl (raise place rank) registers = other.foldl (raise place rank) registers := by
  funext index
  have hone := isLUB_foldl_raise place rank registers keys index
  have hother := isLUB_foldl_raise place rank registers other index
  simp only [hsame] at hone
  exact hone.unique hother

theorem foldl_raise_le {registers : ι → α} {bound : α}
    (hregisters : ∀ index, registers index ≤ bound)
    (hrank : ∀ key, rank key ≤ bound) (keys : List κ) (index : ι) :
    keys.foldl (raise place rank) registers index ≤ bound := by
  apply (isLUB_le_iff (isLUB_foldl_raise place rank registers keys index)).mpr
  rintro value (rfl | ⟨key, _, _, rfl⟩)
  · exact hregisters index
  · exact hrank key

end Onced.Foundation
