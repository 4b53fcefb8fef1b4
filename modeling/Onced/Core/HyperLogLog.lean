import Onced.Core.Store
import Onced.Foundation.Bits
import Onced.Foundation.Registers

/-! # HyperLogLog

The number of distinct keys in fixed memory. The high bits of a key's hash choose one of
`2 ^ precision` registers, which keeps the longest run of zeros that any of its keys had
in the low bits.
-/

namespace Onced

open Foundation

structure HyperLogLog where
  precision : Nat
  precision_mem : 4 ≤ precision ∧ precision ≤ 16
  registers : Vector UInt8 (2 ^ precision)

/-- The numbers an estimate is computed in, and what it needs of them beyond arithmetic. -/
structure Numbers (K : Type) where
  ofNat : Nat → K
  ln : K → K
  /-- `2f64.powi(-r)`. -/
  powi : Nat → K

/-- The numbers of the source. -/
def Numbers.float : Numbers Float := ⟨Float.ofNat, Float.log, fun r => Float.scaleB 1.0 (-r)⟩

namespace HyperLogLog

/-- A sketch of `2 ^ precision` empty registers. -/
def new (precision : UInt8) (hprecision : 4 ≤ precision.toNat ∧ precision.toNat ≤ 16) :
    HyperLogLog :=
  ⟨precision.toNat, hprecision, Vector.replicate _ 0⟩

/-- The register of a hash. -/
def index (precision : Nat) (hash : UInt64) : Nat := (hash >>> UInt64.ofNat (64 - precision)).toNat

/-- One more than the zeros that the low bits of a hash begin with. A guard bit ends them. -/
def rank (precision : Nat) (hash : UInt64) : UInt8 :=
  let suffix := (hash <<< UInt64.ofNat precision) ||| (1 <<< UInt64.ofNat (precision - 1))
  UInt8.ofNat suffix.toBitVec.clz.toNat + 1

/-- Observe a key. -/
def add (hasher : String → UInt64) (sketch : HyperLogLog) (key : String) :
    Except Panic HyperLogLog :=
  let position := index sketch.precision (hasher key)
  let rank := rank sketch.precision (hasher key)
  match sketch.registers[position]? with
  | none => .error "index out of bounds"
  | some register =>
      if rank > register then
        .ok { sketch with registers := sketch.registers.setIfInBounds position rank }
      else .ok sketch

section Estimate

variable {K : Type} [OfScientific K] [Add K] [Mul K] [Div K] [LE K] [DecidableLE K]
  (numbers : Numbers K)

def alpha (m : Nat) : K :=
  match m with
  | 16 => 0.673
  | 32 => 0.697
  | 64 => 0.709
  | _ => 0.7213 / (1.0 + 1.079 / numbers.ofNat m)

/-- The sum of `2 ^ -r` over the registers. -/
def harmonic (registers : List UInt8) : K :=
  registers.foldl (fun sum r => sum + numbers.powi r.toNat) 0.0

def raw (registers : List UInt8) : K :=
  let m := numbers.ofNat registers.length
  alpha numbers registers.length * m * m / harmonic numbers registers

def zeros (registers : List UInt8) : Nat := registers.countP (· = 0)

/-- The estimate by the number of empty registers. -/
def linear (registers : List UInt8) : K :=
  let m := numbers.ofNat registers.length
  m * numbers.ln (m / numbers.ofNat (zeros registers))

/-- Whether empty registers are counted: the raw estimate is small and there are some. -/
def smallRange (registers : List UInt8) : Bool :=
  raw numbers registers ≤ 2.5 * numbers.ofNat registers.length ∧ zeros registers > 0

/-- Estimate the number of distinct keys observed. -/
def estimate (sketch : HyperLogLog) : K :=
  let registers := sketch.registers.toList
  if smallRange numbers registers then linear numbers registers else raw numbers registers

end Estimate

/-! ## Registers -/

section Registers

variable {precision : Nat} (hprecision : 4 ≤ precision ∧ precision ≤ 16) (hash : UInt64)

include hprecision

theorem index_lt : index precision hash < 2 ^ precision := by
  have hshift : (UInt64.ofNat (64 - precision)).toNat = 64 - precision :=
    UInt64.toNat_ofNat_of_lt' (Nat.lt_of_le_of_lt (Nat.sub_le _ _) (by decide))
  rw [index, UInt64.toNat_shiftRight, hshift, Nat.mod_eq_of_lt (by omega),
    Nat.shiftRight_eq_div_pow,
    Nat.div_lt_iff_lt_mul (Nat.two_pow_pos _), ← pow_add, Nat.add_sub_cancel' (by omega)]
  exact hash.toNat_lt

/-- The guard bit keeps the count of zeros from running to the end. -/
theorem rank_le : (rank precision hash).toNat ≤ 65 - precision := by
  have hshift : (UInt64.ofNat (precision - 1)).toNat = precision - 1 :=
    UInt64.toNat_ofNat_of_lt' (Nat.lt_of_le_of_lt (show precision - 1 ≤ 16 by omega) (by decide))
  have hguard : ((1 : UInt64) <<< UInt64.ofNat (precision - 1)).toNat = 2 ^ (precision - 1) := by
    rw [UInt64.toNat_shiftLeft, hshift, Nat.mod_eq_of_lt (show precision - 1 < 64 by omega),
      UInt64.toNat_one, Nat.one_shiftLeft]
    exact Nat.mod_eq_of_lt (Nat.pow_lt_pow_right (by decide) (by omega))
  set suffix := (hash <<< UInt64.ofNat precision) ||| (1 <<< UInt64.ofNat (precision - 1))
    with hsuffix
  have hlarge : 2 ^ (precision - 1) ≤ suffix.toNat := by
    rw [hsuffix, UInt64.toNat_or, hguard]
    exact Nat.right_le_or
  have hzeros : ¬ 65 - precision ≤ suffix.toBitVec.clz.toNat := by
    rw [le_clz_iff (by omega), show 64 - (65 - precision) = precision - 1 by omega]
    exact Nat.not_lt.mpr hlarge
  change (UInt8.ofNat suffix.toBitVec.clz.toNat + 1).toNat ≤ 65 - precision
  rw [UInt8.toNat_add, UInt8.toNat_ofNat', UInt8.toNat_one]
  omega

end Registers

section Observed

variable (hasher : String → UInt64) (sketch : HyperLogLog)

/-- The register of a key. -/
def place (key : String) : Fin (2 ^ sketch.precision) :=
  ⟨index sketch.precision (hasher key), index_lt sketch.precision_mem _⟩

/-- The registers as numbers. -/
def levels (register : Fin (2 ^ sketch.precision)) : Nat := (sketch.registers.get register).toNat

/-- Raise the register of a key. -/
def raiseRegister (registers : Vector UInt8 (2 ^ sketch.precision)) (key : String) :
    Vector UInt8 (2 ^ sketch.precision) :=
  let rank := rank sketch.precision (hasher key)
  if rank > registers.get (sketch.place hasher key) then
    registers.setIfInBounds (sketch.place hasher key) rank
  else registers

/-- The sketch after it observed keys. -/
def observe (keys : List String) : HyperLogLog :=
  { sketch with registers := keys.foldl (sketch.raiseRegister hasher) sketch.registers }

/-- The register of a key is always there. -/
theorem add_eq (key : String) : sketch.add hasher key = .ok (sketch.observe hasher [key]) := by
  have hlt := index_lt sketch.precision_mem (hasher key)
  rw [add, Vector.getElem?_eq_getElem hlt, observe, List.foldl_cons, List.foldl_nil, raiseRegister]
  change (if rank _ _ > sketch.registers.get (sketch.place hasher key) then _ else _) = _
  split <;> rfl

theorem observe_append (keys more : List String) :
    (sketch.observe hasher keys).observe hasher more = sketch.observe hasher (keys ++ more) := by
  rw [observe, observe, observe, List.foldl_append]
  rfl

/-- The rank of a key, as a number. -/
def rankOf (key : String) : Nat := (rank sketch.precision (hasher key)).toNat

theorem levels_raiseRegister (registers : Vector UInt8 (2 ^ sketch.precision)) (key : String) :
    levels { sketch with registers := sketch.raiseRegister hasher registers key } =
      raise (sketch.place hasher) (sketch.rankOf hasher)
        (levels { sketch with registers }) key := by
  funext register
  simp only [levels, raise, raiseRegister, rankOf, Vector.get_eq_getElem]
  by_cases hplace : sketch.place hasher key = register
  · subst hplace
    rw [if_pos rfl]
    split
    next hhigher =>
      rw [Vector.getElem_setIfInBounds_self]
      exact (max_eq_right (Nat.le_of_lt (UInt8.lt_iff_toNat_lt.mp hhigher))).symm
    next hlower =>
      exact (max_eq_left (UInt8.le_iff_toNat_le.mp (UInt8.not_lt.mp hlower))).symm
  · rw [if_neg hplace]
    split
    · rw [Vector.getElem_setIfInBounds_ne register.isLt fun heq => hplace (Fin.ext heq)]
    · rfl

/-- Observing keys raises their registers. -/
theorem levels_observe (keys : List String) :
    (sketch.observe hasher keys).levels =
      keys.foldl (raise (sketch.place hasher) (sketch.rankOf hasher)) sketch.levels := by
  have hfold : ∀ registers : Vector UInt8 (2 ^ sketch.precision),
      levels { sketch with registers := keys.foldl (sketch.raiseRegister hasher) registers } =
        keys.foldl (raise (sketch.place hasher) (sketch.rankOf hasher))
          (levels { sketch with registers }) := by
    induction keys with
    | nil => exact fun registers => rfl
    | cons key keys ih =>
        intro registers
        rw [List.foldl_cons, List.foldl_cons, ih, levels_raiseRegister]
  exact hfold sketch.registers

theorem registers_eq_of_levels {one other : Vector UInt8 (2 ^ sketch.precision)}
    (hlevels : levels { sketch with registers := one } =
      levels { sketch with registers := other }) :
    one = other := by
  apply Vector.ext
  intro register hregister
  exact UInt8.toNat_inj.mp (congrFun hlevels ⟨register, hregister⟩)

/-- The registers depend on the set of the observed keys. -/
theorem observe_congr {keys other : List String} (hsame : ∀ key, key ∈ keys ↔ key ∈ other) :
    sketch.observe hasher keys = sketch.observe hasher other := by
  have hlevels : (sketch.observe hasher keys).levels = (sketch.observe hasher other).levels := by
    rw [levels_observe, levels_observe]
    exact foldl_raise_congr _ _ _ hsame
  rw [observe, observe, sketch.registers_eq_of_levels hlevels]

/-- No register rises beyond the longest possible run of zeros. -/
theorem levels_observe_le (hlevels : ∀ register, sketch.levels register ≤ 65 - sketch.precision)
    (keys : List String) (register : Fin (2 ^ sketch.precision)) :
    (sketch.observe hasher keys).levels register ≤ 65 - sketch.precision := by
  rw [levels_observe]
  exact foldl_raise_le _ _ hlevels (fun key => rank_le sketch.precision_mem _) keys register

end Observed

end HyperLogLog

end Onced
