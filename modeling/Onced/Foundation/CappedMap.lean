import Mathlib

/-! # Maps with a cap on their keys

A map that may hold at most a given number of keys makes room for a new key, once it is
full, by giving up one that it holds. Fed with keys one after the other it holds all the
keys it has seen until it is full, and from then on it stays full.
-/

namespace Onced.Foundation.CappedMap

open Std

variable {κ : Type u} {cmp : κ → κ → Ordering} [TransCmp cmp] {α : Type v}

/-- A new key takes the place of one that is held, once the map is full. The map is iterated
in this order. -/
def makeRoom (cap : Nat) (order : List κ → List κ) (key : κ) (map : ExtTreeMap κ α cmp) :
    ExtTreeMap κ α cmp :=
  if map.size ≥ cap ∧ ¬ map.contains key then
    match (order map.keys).head? with
    | some victim => map.erase victim
    | none => map
  else map

/-- The map has been fed with these keys: it holds some of them, and as many as it may. -/
structure Fed [DecidableEq κ] (cap : Nat) (seen : List κ) (map : ExtTreeMap κ α cmp) : Prop where
  held : ∀ key ∈ map, key ∈ seen
  size : map.size = min seen.dedup.length cap

theorem fed_empty [DecidableEq κ] (cap : Nat) : Fed cap [] (∅ : ExtTreeMap κ α cmp) where
  held key hkey := absurd hkey ExtTreeMap.not_mem_empty
  size := by simp

section Feeding

variable {cap : Nat} {order : List κ → List κ} {map : ExtTreeMap κ α cmp} {key : κ}

/-- A key that is held, or for which there is room, drives nobody out. -/
theorem makeRoom_eq (hroom : map.size < cap ∨ key ∈ map) : makeRoom cap order key map = map := by
  apply if_neg
  rintro ⟨hfull, hnew⟩
  rcases hroom with hroom | hheld
  · omega
  · exact hnew (ExtTreeMap.contains_iff_mem.mpr hheld)

theorem size_insert_of_mem (hheld : key ∈ map) (value : α) :
    (map.insert key value).size = map.size := by
  simp [ExtTreeMap.size_insert, hheld]

theorem size_insert_of_notMem (hnew : key ∉ map) (value : α) :
    (map.insert key value).size = map.size + 1 := by
  simp [ExtTreeMap.size_insert, hnew]

/-- Making room takes keys out, and puts none in. -/
theorem mem_of_mem_makeRoom {other : κ} (hother : other ∈ makeRoom cap order key map) :
    other ∈ map := by
  unfold makeRoom at hother
  split at hother
  · split at hother
    · exact (ExtTreeMap.mem_erase.mp hother).2
    · exact hother
  · exact hother

variable [LawfulEqCmp cmp]

/-- A new key drives out one key of a full map. -/
theorem makeRoom_full (hcap : 0 < cap) (horder : (order map.keys).Perm map.keys)
    (hfull : cap ≤ map.size) (hnew : key ∉ map) :
    ∃ victim ∈ map, makeRoom cap order key map = map.erase victim := by
  have hlength : 0 < (order map.keys).length := by
    rw [horder.length_eq, ExtTreeMap.length_keys]
    omega
  obtain ⟨victim, rest, horders⟩ := List.exists_cons_of_length_pos hlength
  have hvictim : victim ∈ map := by
    apply ExtTreeMap.mem_keys.mp
    rw [← horder.mem_iff, horders]
    exact List.mem_cons_self
  refine ⟨victim, hvictim, ?_⟩
  have hcontains : ¬ map.contains key := fun hmem => hnew (ExtTreeMap.contains_iff_mem.mp hmem)
  rw [makeRoom, if_pos ⟨hfull, hcontains⟩, horders]
  rfl

variable [DecidableEq κ]

theorem card_keys (map : ExtTreeMap κ α cmp) : map.keys.toFinset.card = map.size := by
  have hnodup : map.keys.Nodup := by
    refine ExtTreeMap.distinct_keys.imp ?_
    rintro one _ hdistinct rfl
    exact hdistinct (LawfulEqCmp.compare_eq_iff_eq.mpr rfl)
  rw [List.toFinset_card_of_nodup hnodup, ExtTreeMap.length_keys]

/-- A map that holds all the keys it has seen has not seen a key that it does not hold. -/
theorem Fed.not_mem {seen : List κ} (hfed : Fed cap seen map) (hroom : map.size < cap)
    (hnew : key ∉ map) : key ∉ seen := by
  intro hseen
  have hsubset : map.keys.toFinset ⊂ seen.toFinset := by
    rw [Finset.ssubset_iff_of_subset]
    · refine ⟨key, List.mem_toFinset.mpr hseen, ?_⟩
      rw [List.mem_toFinset, ExtTreeMap.mem_keys]
      exact hnew
    · intro other hother
      rw [List.mem_toFinset, ExtTreeMap.mem_keys] at hother
      exact List.mem_toFinset.mpr (hfed.held other hother)
  have hless := Finset.card_lt_card hsubset
  have hsize := hfed.size
  rw [card_keys, List.card_toFinset] at hless
  omega

/-- A map that is fed with one more key. -/
theorem Fed.insert {seen : List κ} (hfed : Fed cap seen map) (hcap : 0 < cap)
    (horder : (order map.keys).Perm map.keys) (key : κ) (value : α) :
    Fed cap (seen ++ [key]) ((makeRoom cap order key map).insert key value) := by
  have hsize := hfed.size
  have hseen : (seen ++ [key]).dedup.length = (Insert.insert key seen.toFinset).card := by
    rw [← List.card_toFinset]
    congr 1
    ext other
    simp
  refine ⟨?_, ?_⟩
  · intro other hother
    rcases ExtTreeMap.mem_insert.mp hother with hsame | hold
    · rw [LawfulEqCmp.compare_eq_iff_eq.mp hsame]
      exact List.mem_append_right _ List.mem_cons_self
    · exact List.mem_append_left _ (hfed.held other (mem_of_mem_makeRoom hold))
  · rw [hseen]
    by_cases hheld : key ∈ map
    · have hmem : key ∈ seen.toFinset := List.mem_toFinset.mpr (hfed.held key hheld)
      rw [makeRoom_eq (Or.inr hheld), size_insert_of_mem hheld, Finset.insert_eq_of_mem hmem,
        List.card_toFinset, hsize]
    by_cases hroom : map.size < cap
    · have hmem : key ∉ seen.toFinset := fun hmem =>
        hfed.not_mem hroom hheld (List.mem_toFinset.mp hmem)
      rw [makeRoom_eq (Or.inl hroom), size_insert_of_notMem hheld,
        Finset.card_insert_of_notMem hmem, List.card_toFinset]
      omega
    · obtain ⟨victim, hvictim, hroomy⟩ := makeRoom_full hcap horder (Nat.not_lt.mp hroom) hheld
      have hgone : key ∉ map.erase victim := fun hmem => hheld (ExtTreeMap.mem_erase.mp hmem).2
      have hmore := Finset.card_le_card (Finset.subset_insert key seen.toFinset)
      rw [List.card_toFinset] at hmore
      have hfewer : (map.erase victim).size = map.size - 1 := by
        simp [ExtTreeMap.size_erase, hvictim]
      rw [hroomy, size_insert_of_notMem hgone, hfewer]
      omega

end Feeding

end Onced.Foundation.CappedMap
