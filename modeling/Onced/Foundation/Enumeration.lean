import Mathlib

/-! # Rebuilding an ordered map from an enumeration

Inserting the entries of a map one by one, in whatever order they are
enumerated, gives the map back. A key determines its entry in the map, so no
insertion overwrites another.
-/

namespace Onced.Foundation

open Std

universe u v

variable {α : Type u} {β : Type v} {cmp : α → α → Ordering} [TransCmp cmp]

/-- Insert a list of entries from left to right; later entries win. -/
def insertAll (entries : List (α × β)) (start : ExtTreeMap α β cmp) : ExtTreeMap α β cmp :=
  entries.foldl (fun collected entry => collected.insert entry.1 entry.2) start

@[simp] theorem insertAll_nil (start : ExtTreeMap α β cmp) : insertAll [] start = start := rfl

@[simp] theorem insertAll_cons (entry : α × β) (entries : List (α × β))
    (start : ExtTreeMap α β cmp) :
    insertAll (entry :: entries) start = insertAll entries (start.insert entry.1 entry.2) := rfl

@[simp] theorem insertAll_append (first second : List (α × β)) (start : ExtTreeMap α β cmp) :
    insertAll (first ++ second) start = insertAll second (insertAll first start) := by
  simp [insertAll]

variable [LawfulEqCmp cmp]

/-- A key that no inserted entry carries keeps its value. -/
theorem getElem?_insertAll_of_forall_ne {entries : List (α × β)} {key : α}
    (hentries : ∀ entry ∈ entries, entry.1 ≠ key) (start : ExtTreeMap α β cmp) :
    (insertAll entries start)[key]? = start[key]? := by
  induction entries generalizing start with
  | nil => rfl
  | cons entry entries ih =>
      have hentry : entry.1 ≠ key := hentries entry List.mem_cons_self
      rw [insertAll_cons, ih (fun other hother => hentries other (List.mem_cons_of_mem _ hother)),
        ExtTreeMap.getElem?_insert, if_neg (mt LawfulEqCmp.eq_of_compare hentry)]

/-- Every value of the result was there before or was inserted. -/
theorem mem_of_getElem?_insertAll {entries : List (α × β)} {start : ExtTreeMap α β cmp}
    {key : α} {value : β} (hvalue : (insertAll entries start)[key]? = some value) :
    start[key]? = some value ∨ (key, value) ∈ entries := by
  induction entries generalizing start with
  | nil => exact Or.inl hvalue
  | cons entry entries ih =>
      rcases ih hvalue with hstart | hmem
      · rw [ExtTreeMap.getElem?_insert] at hstart
        split at hstart
        next heq =>
          obtain rfl := LawfulEqCmp.eq_of_compare heq
          obtain rfl := Option.some.inj hstart
          exact Or.inr List.mem_cons_self
        next => exact Or.inl hstart
      · exact Or.inr (List.mem_cons_of_mem _ hmem)

/-- Any enumeration of a map rebuilds it from the empty map. -/
theorem insertAll_of_perm {entries : List (α × β)} {target : ExtTreeMap α β cmp}
    (hperm : entries.Perm target.toList) : insertAll entries ∅ = target := by
  have hdistinct : entries.Pairwise (fun a b => ¬ cmp a.1 b.1 = .eq) := by
    apply (hperm.pairwise_iff ?_).mpr ExtTreeMap.distinct_keys_toList
    intro a b hne heq
    exact hne (OrientedCmp.eq_symm heq)
  have hfold : insertAll entries ∅ = ExtTreeMap.ofList entries cmp :=
    ExtTreeMap.ofList_eq_foldl.symm
  rw [hfold]
  apply ExtTreeMap.ext_getElem?
  intro key
  cases hvalue : target[key]? with
  | some value =>
      apply ExtTreeMap.getElem?_ofList_of_mem ReflCmp.compare_self hdistinct
      exact hperm.mem_iff.mpr (ExtTreeMap.mem_toList_iff_getElem?_eq_some.mpr hvalue)
  | none =>
      rw [← hfold, getElem?_insertAll_of_forall_ne ?_ ∅]
      · simp
      · rintro ⟨other, value⟩ hentry rfl
        have hsome := ExtTreeMap.mem_toList_iff_getElem?_eq_some.mp (hperm.mem_iff.mp hentry)
        rw [hvalue] at hsome
        contradiction

omit [TransCmp cmp] in
theorem pairwise_ne_iff_nodup {entries : List (α × β)} :
    entries.Pairwise (fun one other => ¬ cmp one.1 other.1 = .eq) ↔
      (entries.map Prod.fst).Nodup := by
  rw [List.Nodup, List.pairwise_map]
  refine List.Pairwise.iff fun one other => not_congr ⟨LawfulEqCmp.eq_of_compare, fun hsame => ?_⟩
  rw [hsame]
  exact ReflCmp.compare_self

/-- Collecting entries into a map loses none exactly if no two have the same key. -/
theorem toList_insertAll_perm_iff {entries : List (α × β)} :
    (insertAll entries (∅ : ExtTreeMap α β cmp)).toList.Perm entries ↔
      (entries.map Prod.fst).Nodup := by
  have hkeys := pairwise_ne_iff_nodup.mp
    (@ExtTreeMap.distinct_keys_toList _ _ _ (insertAll entries (∅ : ExtTreeMap α β cmp)) _)
  constructor
  · intro hperm
    exact (hperm.map Prod.fst).nodup_iff.mp hkeys
  · intro hnodup
    have hfold : insertAll entries ∅ = ExtTreeMap.ofList entries cmp :=
      ExtTreeMap.ofList_eq_foldl.symm
    apply (List.perm_ext_iff_of_nodup (List.Nodup.of_map Prod.fst hkeys)
      (List.Nodup.of_map Prod.fst hnodup)).mpr
    rintro ⟨key, value⟩
    rw [ExtTreeMap.mem_toList_iff_getElem?_eq_some]
    constructor
    · intro hvalue
      exact (mem_of_getElem?_insertAll hvalue).resolve_left (by simp)
    · intro hentry
      rw [hfold]
      exact ExtTreeMap.getElem?_ofList_of_mem ReflCmp.compare_self
        (pairwise_ne_iff_nodup.mpr hnodup) hentry

end Onced.Foundation
