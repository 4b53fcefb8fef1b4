import Mathlib

/-! # Hash chains

A chain hashes each link together with the value before it. Two lists of links
that end in one value are the same list, or comparing them exhibits two inputs
with one digest or an input whose digest is the value the chain starts from.
-/

namespace Onced.Foundation

universe u v w

/-- A digest, and how a link is joined to the value before it. -/
structure HashChain (χ : Type u) (ρ : Type v) (ι : Type w) where
  hash : ι → χ
  input : χ → ρ → ι
  input_injective : ∀ {before other : χ} {link otherLink : ρ},
    input before link = input other otherLink → before = other ∧ link = otherLink

namespace HashChain

variable {χ : Type u} {ρ : Type v} {ι : Type w} (chain : HashChain χ ρ ι)

/-- The value after one more link. -/
def next (before : χ) (link : ρ) : χ := chain.hash (chain.input before link)

/-- The value after a list of links. -/
def root (start : χ) (links : List ρ) : χ := links.foldl chain.next start

/-- Everything that is hashed along a list of links. -/
def inputs : χ → List ρ → List ι
  | _, [] => []
  | start, link :: links => chain.input start link :: inputs (chain.next start link) links

@[simp] theorem root_nil (start : χ) : chain.root start [] = start := rfl

@[simp] theorem root_cons (start : χ) (link : ρ) (links : List ρ) :
    chain.root start (link :: links) = chain.root (chain.next start link) links := rfl

@[simp] theorem root_concat (start : χ) (links : List ρ) (link : ρ) :
    chain.root start (links ++ [link]) = chain.next (chain.root start links) link := by
  simp [root]

@[simp] theorem inputs_append (start : χ) (links others : List ρ) :
    chain.inputs start (links ++ others) =
      chain.inputs start links ++ chain.inputs (chain.root start links) others := by
  induction links generalizing start with
  | nil => rfl
  | cons link links ih => simp [inputs, ih]

/-- Two inputs with one digest, one on each side, or an input on either side
whose digest is `start`. -/
def Broken (start : χ) (ones others : List ι) : Prop :=
  (∃ one ∈ ones, ∃ other ∈ others, one ≠ other ∧ chain.hash one = chain.hash other) ∨
    ∃ one ∈ ones ++ others, chain.hash one = start

variable {chain}

theorem Broken.mono {start : χ} {ones others moreOnes moreOthers : List ι}
    (hbroken : chain.Broken start ones others) (hones : ones ⊆ moreOnes)
    (hothers : others ⊆ moreOthers) : chain.Broken start moreOnes moreOthers := by
  rcases hbroken with ⟨one, hone, other, hother, hcollides⟩ | ⟨one, hone, hstart⟩
  · exact Or.inl ⟨one, hones hone, other, hothers hother, hcollides⟩
  · refine Or.inr ⟨one, ?_, hstart⟩
    rcases List.mem_append.mp hone with hone | hone
    · exact List.mem_append_left _ (hones hone)
    · exact List.mem_append_right _ (hothers hone)

/-- The last value commits to all links. -/
theorem root_injective {start : χ} {links others : List ρ}
    (hroot : chain.root start links = chain.root start others) :
    links = others ∨ chain.Broken start (chain.inputs start links) (chain.inputs start others) := by
  induction links using List.reverseRecOn generalizing others with
  | nil =>
      cases others using List.reverseRecOn with
      | nil => exact Or.inl rfl
      | append_singleton others other =>
          refine Or.inr (Or.inr ⟨chain.input (chain.root start others) other, by simp [inputs], ?_⟩)
          rw [root_nil, root_concat] at hroot
          exact hroot.symm
  | append_singleton links link ih =>
      cases others using List.reverseRecOn with
      | nil =>
          refine Or.inr (Or.inr ⟨chain.input (chain.root start links) link, by simp [inputs], ?_⟩)
          rw [root_nil, root_concat] at hroot
          exact hroot
      | append_singleton others other =>
          rw [root_concat, root_concat] at hroot
          by_cases hinput : chain.input (chain.root start links) link =
              chain.input (chain.root start others) other
          · obtain ⟨hbefore, rfl⟩ := chain.input_injective hinput
            rcases ih hbefore with rfl | hbroken
            · exact Or.inl rfl
            · exact Or.inr (hbroken.mono (by simp) (by simp))
          · exact Or.inr (Or.inl ⟨_, by simp [inputs], _, by simp [inputs], hinput, hroot⟩)

end HashChain

end Onced.Foundation
