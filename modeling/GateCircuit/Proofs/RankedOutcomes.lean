/-
# The ranking of the outcomes

The words that store doubles stand in one strict order: by sign, and under a sign by the 63 bits after it,
the other way round for negative ones. It refines the order of the numbers they stand for, and the words of
no number have places in it as well, at the upper end or at the lower one by their sign. A basis state ranks
before another if its probability is greater in this order, or the same and its index lower. The outcomes
listed are the first in this ranking, as many as were asked for, and each bit string is the index of its
state in base two at the width of the register. This holds for all scalars that are stored as doubles.

Key definitions: `Double.Negative`, `Double.unsigned`, `Double.Unordered`, `Double.TotalLess`, `RanksBefore`,
`rankedStates`, `Outcome.index`, `StoredDouble`.
Key theorems: `Double.orderKey_lt_iff`, `Double.totalLess_of_lt`, `Double.totalLess_of_unordered`,
`Double.unordered_totalLess`, `likelier_iff`, `pairwise_rankedStates`, `bitstring_spec`,
`top_outcomes_ranked`.
-/
import Mathlib
import GateCircuit.StateVector.Outcomes
import GateCircuit.Proofs.State
import GateCircuit.Proofs.NearestDouble

namespace GateCircuit

/-! ### The order of stored doubles -/

namespace Double

/-- The sign bit is set. -/
def Negative (word : UInt64) : Prop := signBit ≤ word.toNat

/-- The bits after the sign. -/
def unsigned (word : UInt64) : ℕ := word.toNat % signBit

/-- The word stands for no number: its exponent field is that of the infinities, and its fraction is not
zero. -/
def Unordered (word : UInt64) : Prop := topField * leadingOne < unsigned word

/-- The total order on stored doubles, zeros of either sign and no numbers included. -/
inductive TotalLess (v w : UInt64) : Prop
  | signs (hv : Negative v) (hw : ¬ Negative w)
  | positive (hv : ¬ Negative v) (hw : ¬ Negative w) (h : unsigned v < unsigned w)
  | negative (hv : Negative v) (hw : Negative w) (h : unsigned w < unsigned v)

section Words

variable {v w : UInt64}

theorem totalLess_iff : TotalLess v w ↔ (Negative v ∧ ¬ Negative w) ∨
    (¬ Negative v ∧ ¬ Negative w ∧ unsigned v < unsigned w) ∨
      (Negative v ∧ Negative w ∧ unsigned w < unsigned v) := by
  constructor
  · rintro (⟨hv, hw⟩ | ⟨hv, hw, h⟩ | ⟨hv, hw, h⟩)
    · exact .inl ⟨hv, hw⟩
    · exact .inr (.inl ⟨hv, hw, h⟩)
    · exact .inr (.inr ⟨hv, hw, h⟩)
  · rintro (⟨hv, hw⟩ | ⟨hv, hw, h⟩ | ⟨hv, hw, h⟩)
    · exact .signs hv hw
    · exact .positive hv hw h
    · exact .negative hv hw h

/-- The key of a word counts up from the signs, and down from them if the word is negative. -/
theorem orderKey_eq (w : UInt64) : w.toNat < 2 * signBit ∧ orderKey w =
    if w.toNat < signBit then signBit + w.toNat else 2 * signBit - 1 - w.toNat := by
  refine ⟨w.toNat_lt, ?_⟩
  unfold orderKey
  rw [signBit_eq, maxWord]
  split <;> omega

/-- **The key of a word grows** along the total order. -/
theorem orderKey_lt_iff : orderKey v < orderKey w ↔ TotalLess v w := by
  obtain ⟨hv, hkey⟩ := orderKey_eq v
  obtain ⟨hw, hkey'⟩ := orderKey_eq w
  rw [totalLess_iff, hkey, hkey']
  unfold Negative unsigned
  rw [signBit_eq] at *
  split <;> split <;> omega

instance : Decidable (TotalLess v w) := decidable_of_iff _ orderKey_lt_iff

/-- No two words have one key. -/
theorem orderKey_injective : Function.Injective orderKey := by
  intro v w h
  obtain ⟨hv, hkey⟩ := orderKey_eq v
  obtain ⟨hw, hkey'⟩ := orderKey_eq w
  refine UInt64.toNat_inj.mp ?_
  rw [hkey, hkey'] at h
  split at h <;> split at h <;> omega

/-- **No number comes after every number** if its sign is not set. -/
theorem totalLess_of_unordered (hv : ¬ Unordered v) (hw : Unordered w) (hsign : ¬ Negative w) :
    TotalLess v w := by
  rw [Unordered, not_lt] at hv
  by_cases hvs : Negative v
  · exact .signs hvs hsign
  · exact .positive hvs hsign (hv.trans_lt hw)

/-- **No number comes before every number** if its sign is set. -/
theorem unordered_totalLess (hv : Unordered v) (hw : ¬ Unordered w) (hsign : Negative v) :
    TotalLess v w := by
  rw [Unordered, not_lt] at hw
  by_cases hws : Negative w
  · exact .negative hsign hws (hw.trans_lt hv)
  · exact .signs hsign hws

end Words

section Value

variable {m m' : ℕ} {q q' : ℤ}

/-- Magnitudes are ordered as the numbers they stand for. -/
theorem magnitude_lt_of_lt (hm : Canonical m q) (hm' : Canonical m' q')
    (h : (m : ℚ) * 2 ^ q < m' * 2 ^ q') : magnitude m q < magnitude m' q' := by
  have hleast := hm.least
  have hleast' := hm'.least
  have hmantissa := hm.mantissa
  have hpos : ∀ r : ℤ, (0 : ℚ) < 2 ^ r := fun r => zpow_pos two_pos r
  unfold magnitude
  rcases lt_trichotomy q q' with hq | rfl | hq
  · have hfull : leadingOne ≤ m' := hm'.full.resolve_left (by omega)
    obtain ⟨k, hk⟩ := Int.le.dest hq
    have hsteps : (q' - minExponent).toNat = (q - minExponent).toNat + k + 1 := by omega
    rw [hsteps]
    nlinarith [Nat.zero_le (k * leadingOne)]
  · have hlt : (m : ℚ) < m' := lt_of_mul_lt_mul_right h (hpos q).le
    have : m < m' := by exact_mod_cast hlt
    omega
  · -- the number with the greater exponent is not the smaller one
    have hfull : leadingOne ≤ m := hm.full.resolve_left (by omega)
    have hmantissa' : (m' : ℚ) < 2 * leadingOne := by exact_mod_cast hm'.mantissa
    have hfull' : (leadingOne : ℚ) ≤ m := by exact_mod_cast hfull
    have hpower : (2 : ℚ) * 2 ^ q' ≤ 2 ^ q := by
      rw [← zpow_one_add₀ two_ne_zero]
      exact zpow_le_zpow_right₀ one_le_two (by omega)
    have hreverse : (m' : ℚ) * 2 ^ q' < m * 2 ^ q :=
      calc (m' : ℚ) * 2 ^ q' < 2 * leadingOne * 2 ^ q' := by gcongr
        _ = leadingOne * (2 * 2 ^ q') := by ring
        _ ≤ m * 2 ^ q := by gcongr
    exact absurd h (lt_asymm hreverse)

variable {x y : Float} {negative negative' : Bool}

/-- What the bits of a finite double are under its sign. -/
theorem negative_of_finite (h : exact x = .finite negative m q) :
    (Negative x.toBits ↔ negative = true) ∧ unsigned x.toBits = magnitude m q := by
  obtain ⟨hm, hbits⟩ := exact_eq_finite h
  have hlt := magnitude_lt hm
  rw [leadingOne_eq, topField] at hlt
  unfold Negative unsigned
  rw [hbits, signBit_eq]
  cases negative with
  | false => exact ⟨by simp; omega, by simp; omega⟩
  | true => exact ⟨by simp, by simp; omega⟩

/-- **Greater numbers come later:** the total order refines the order of finite doubles. -/
theorem totalLess_of_lt (hx : exact x = .finite negative m q) (hy : exact y = .finite negative' m' q')
    (h : (if negative then -1 else 1) * (m * 2 ^ q : ℚ) < (if negative' then -1 else 1) * (m' * 2 ^ q')) :
    TotalLess x.toBits y.toBits := by
  have hcx := canonical_of_exact hx
  have hcy := canonical_of_exact hy
  obtain ⟨hxs, hxm⟩ := negative_of_finite hx
  obtain ⟨hys, hym⟩ := negative_of_finite hy
  have hsize : (0 : ℚ) ≤ m * 2 ^ q := by positivity
  have hsize' : (0 : ℚ) ≤ m' * 2 ^ q' := by positivity
  cases negative <;> cases negative'
  · refine .positive (by simp [hxs]) (by simp [hys]) ?_
    rw [hxm, hym]
    exact magnitude_lt_of_lt hcx hcy (by simpa using h)
  · simp only [Bool.false_eq_true, if_false, if_true] at h
    linarith
  · exact .signs (hxs.mpr rfl) (by simp [hys])
  · refine .negative (hxs.mpr rfl) (hys.mpr rfl) ?_
    rw [hxm, hym]
    exact magnitude_lt_of_lt hcy hcx (by simpa using h)

/-- A double is no number exactly if its word stands for none. -/
theorem exact_eq_nan : exact x = .nan ↔ Unordered x.toBits := by
  have hlt : x.toBits.toNat < 18446744073709551616 := x.toBits.toNat_lt
  unfold exact Unordered unsigned
  dsimp only
  rw [signBit_eq, leadingOne_eq, topField]
  split
  · split <;> simp only [reduceCtorEq, false_iff, true_iff] <;> omega
  · split <;> simp only [reduceCtorEq, false_iff] <;> omega

end Value

end Double

/-! ### The ranking -/

section Ranking

variable {R : Type} [Stored R]

/-- A probability and the index of its basis state come before another pair: the probability is greater, or
the same and the index lower. -/
def RanksBefore (a b : R × ℕ) : Prop :=
  Double.TotalLess (Stored.bits b.1) (Stored.bits a.1) ∨
    (Stored.bits a.1 = Stored.bits b.1 ∧ a.2 < b.2)

theorem ranksBefore_iff {a b : R × ℕ} : RanksBefore a b ↔
    Double.orderKey (Stored.bits b.1) < Double.orderKey (Stored.bits a.1) ∨
      (Double.orderKey (Stored.bits a.1) = Double.orderKey (Stored.bits b.1) ∧ a.2 < b.2) := by
  rw [RanksBefore, Double.orderKey_lt_iff, Double.orderKey_injective.eq_iff]

instance {a b : R × ℕ} : Decidable (RanksBefore a b) := decidable_of_iff _ ranksBefore_iff.symm

/-- The sort puts a pair in front of another if it ranks before it, or has the same index and is stored
alike, and only then. -/
theorem likelier_iff {a b : R × ℕ} : likelier a b = true ↔
    RanksBefore a b ∨ (Stored.bits a.1 = Stored.bits b.1 ∧ a.2 = b.2) := by
  rw [ranksBefore_iff, ← Double.orderKey_injective.eq_iff]
  simp only [likelier, Bool.or_eq_true, Bool.and_eq_true, decide_eq_true_eq, beq_iff_eq]
  omega

theorem RanksBefore.asymm {a b : R × ℕ} (hab : RanksBefore a b) : ¬ RanksBefore b a := by
  rw [ranksBefore_iff] at *
  omega

/-- The sort can put any pairs in order. -/
theorem likelier_trans {a b c : R × ℕ} (hab : likelier a b = true) (hbc : likelier b c = true) :
    likelier a c = true := by
  rw [likelier_iff, ranksBefore_iff, ← Double.orderKey_injective.eq_iff] at *
  omega

theorem likelier_total (a b : R × ℕ) : (likelier a b || likelier b a) = true := by
  rw [Bool.or_eq_true, likelier_iff, likelier_iff, ranksBefore_iff, ranksBefore_iff,
    ← Double.orderKey_injective.eq_iff, ← Double.orderKey_injective.eq_iff]
  omega

variable [Scalar R] {s : StateVector R}

/-- All basis states with their probabilities, in the order of the ranking. -/
def rankedStates (s : StateVector R) : List (R × ℕ) :=
  s.probabilities.toList.zipIdx.mergeSort likelier

theorem perm_rankedStates : List.Perm (rankedStates s) s.probabilities.toList.zipIdx :=
  List.mergeSort_perm _ _

theorem mem_rankedStates {p : R} {index : ℕ} :
    (p, index) ∈ rankedStates s ↔ s.probabilities[index]? = some p := by
  rw [perm_rankedStates.mem_iff, List.mem_zipIdx_iff_getElem?, Array.getElem?_toList]

/-- Every index is ranked once. -/
theorem nodup_rankedStates : ((rankedStates s).map Prod.snd).Nodup := by
  rw [(perm_rankedStates.map Prod.snd).nodup_iff, List.zipIdx_map_snd]
  exact List.nodup_range'

/-- **All states are ranked** in the strict order. -/
theorem pairwise_rankedStates : (rankedStates s).Pairwise RanksBefore := by
  have hsorted : (rankedStates s).Pairwise fun a b => likelier a b = true := by
    refine List.pairwise_mergeSort (fun a b c hab hbc => ?_) (fun a b => ?_) _
    · exact likelier_trans hab hbc
    · exact likelier_total a b
  have hindices := List.pairwise_map.mp (nodup_rankedStates (s := s))
  refine (hsorted.and hindices).imp fun ⟨h, hne⟩ => ?_
  exact (likelier_iff.mp h).resolve_right fun hsame => hne hsame.2

/-- There is only one ranking of the states. -/
theorem rankedStates_eq {list : List (R × ℕ)} (hperm : List.Perm list s.probabilities.toList.zipIdx)
    (hlist : list.Pairwise RanksBefore) : rankedStates s = list :=
  (perm_rankedStates.trans hperm.symm).eq_of_pairwise (fun _ _ _ _ h h' => absurd h' h.asymm)
    pairwise_rankedStates hlist

end Ranking

/-! ### Bit strings -/

theorem binary_toDigits (n : ℕ) : ∀ c ∈ Nat.toDigits 2 n, c = '0' ∨ c = '1' := by
  induction n using Nat.strongRecOn with
  | ind n ih =>
    have hdigit : ∀ d, d < 2 → Nat.digitChar d = '0' ∨ Nat.digitChar d = '1' := by decide
    intro c hc
    rw [Nat.toDigits_eq_if one_lt_two] at hc
    split at hc
    · next hn => rw [List.mem_singleton.mp hc]; exact hdigit n hn
    · rcases List.mem_append.mp hc with hc | hc
      · exact ih (n / 2) (by omega) c hc
      · rw [List.mem_singleton.mp hc]
        exact hdigit (n % 2) (Nat.mod_lt n two_pos)

/-- A string of a basis index has a digit for each qubit, and writes the index in base two. -/
theorem bitstring_spec {width index : ℕ} (hwidth : 1 ≤ width) (hindex : index < 2 ^ width) :
    (bitstring width index).length = width ∧
      (∀ c ∈ (bitstring width index).toList, c = '0' ∨ c = '1') ∧
      Nat.ofDigitChars 2 (bitstring width index).toList 0 = index := by
  have hlength : (Nat.toDigits 2 index).length ≤ width :=
    (Nat.length_toDigits_le_iff one_lt_two hwidth).mpr hindex
  unfold bitstring
  refine ⟨?_, ?_, ?_⟩
  · rw [String.length_ofList, List.length_append, List.length_replicate]
    omega
  · rw [String.toList_ofList]
    intro c hc
    rcases List.mem_append.mp hc with hc | hc
    · exact .inl (List.eq_of_mem_replicate hc)
    · exact binary_toDigits index c hc
  · rw [String.toList_ofList, Nat.ofDigitChars_append, Nat.ofDigitChars_replicate_zero, mul_zero,
      Nat.ofDigitChars_toDigits one_lt_two (by decide)]

/-- The basis index that an outcome shows, its last digit that of qubit zero. -/
def Outcome.index {R : Type} (o : Outcome R) : ℕ := Nat.ofDigitChars 2 o.bitstring.toList 0

/-! ### The outcomes listed -/

variable {R : Type} [Stored R] [Scalar R] {s : StateVector R}

/-- What is shown of a ranked state. -/
def shownAs (width : ℕ) (state : R × ℕ) : Outcome R := ⟨bitstring width state.2, state.1⟩

theorem topOutcomes_eq (hs : s.WellFormed) (limit : ℕ) :
    topOutcomes s limit = ((rankedStates s).take limit).map (shownAs s.qubitCount) := by
  have hwidth : s.amplitudes.size.log2 = s.qubitCount := by
    rw [show s.amplitudes.size = 2 ^ s.qubitCount from hs.trans (dimension_eq _), Nat.log2_two_pow]
  rw [topOutcomes, hwidth]
  rfl

theorem fits_of_mem_rankedStates (hs : s.WellFormed) {state : R × ℕ} (h : state ∈ rankedStates s) :
    state.2 < 2 ^ s.qubitCount := by
  obtain ⟨hlt, -⟩ := Array.getElem?_eq_some_iff.mp (mem_rankedStates.mp h)
  rw [StateVector.probabilities, Array.size_map] at hlt
  exact hlt.trans_eq (hs.trans (dimension_eq _))

theorem index_shownAs (hs : s.WellFormed) (hn : 1 ≤ s.qubitCount) {state : R × ℕ}
    (h : state ∈ rankedStates s) : (shownAs s.qubitCount state).index = state.2 :=
  (bitstring_spec hn (fits_of_mem_rankedStates hs h)).2.2

theorem map_index_topOutcomes (hs : s.WellFormed) (hn : 1 ≤ s.qubitCount) (limit : ℕ) :
    (topOutcomes s limit).map Outcome.index = ((rankedStates s).take limit).map Prod.snd := by
  rw [topOutcomes_eq hs, List.map_map]
  exact List.map_congr_left fun state hmem => index_shownAs hs hn (List.mem_of_mem_take hmem)

/-- What is not among the first states ranks after all of them. -/
theorem ranksBefore_of_take {limit : ℕ} {state other : R × ℕ}
    (hstate : state ∈ (rankedStates s).take limit) (hother : other ∈ rankedStates s)
    (hlater : other ∉ (rankedStates s).take limit) : RanksBefore state other := by
  have hsplit := pairwise_rankedStates (s := s)
  rw [← List.take_append_drop limit (rankedStates s), List.pairwise_append] at hsplit
  rw [← List.take_append_drop limit (rankedStates s), List.mem_append] at hother
  exact hsplit.2.2 state hstate other (hother.resolve_left hlater)

/-- **The outcomes listed are the most likely ones,** for all scalars that are stored as doubles. There are as
many as asked for, or all; each shows the bits of another basis index, at the width of the register, and the
probability that the state has there; they are ranked, and whatever is not listed ranks after all of them. -/
theorem top_outcomes_ranked (hs : s.WellFormed) (hn : 1 ≤ s.qubitCount) (limit : ℕ) :
    (topOutcomes s limit).length = min limit (2 ^ s.qubitCount) ∧
    (∀ o ∈ topOutcomes s limit, o.bitstring.length = s.qubitCount ∧
      (∀ c ∈ o.bitstring.toList, c = '0' ∨ c = '1') ∧ o.index < 2 ^ s.qubitCount ∧
      s.probabilities[o.index]? = some o.probability) ∧
    ((topOutcomes s limit).map Outcome.index).Nodup ∧
    (topOutcomes s limit).Pairwise
      (fun o o' => RanksBefore (o.probability, o.index) (o'.probability, o'.index)) ∧
    ∀ index p, s.probabilities[index]? = some p → index ∉ (topOutcomes s limit).map Outcome.index →
      ∀ o ∈ topOutcomes s limit, RanksBefore (o.probability, o.index) (p, index) := by
  have hlisted : ∀ state ∈ (rankedStates s).take limit, state ∈ rankedStates s :=
    fun state hmem => List.mem_of_mem_take hmem
  refine ⟨?_, ?_, ?_, ?_, ?_⟩
  · have hsize : s.amplitudes.size = 2 ^ s.qubitCount := hs.trans (dimension_eq _)
    rw [topOutcomes_eq hs, List.length_map, List.length_take, perm_rankedStates.length_eq,
      List.length_zipIdx, Array.length_toList, StateVector.probabilities, Array.size_map, hsize]
  · intro o ho
    rw [topOutcomes_eq hs] at ho
    obtain ⟨state, hmem, rfl⟩ := List.mem_map.mp ho
    have hfits := fits_of_mem_rankedStates hs (hlisted state hmem)
    obtain ⟨hlength, hbinary, -⟩ := bitstring_spec hn hfits
    rw [index_shownAs hs hn (hlisted state hmem)]
    exact ⟨hlength, hbinary, hfits, mem_rankedStates.mp (hlisted state hmem)⟩
  · rw [map_index_topOutcomes hs hn, List.map_take]
    exact nodup_rankedStates.sublist (List.take_sublist _ _)
  · rw [topOutcomes_eq hs, List.pairwise_map]
    refine (pairwise_rankedStates.sublist (List.take_sublist _ _)).imp_of_mem fun ha hb h => ?_
    rwa [index_shownAs hs hn (hlisted _ ha), index_shownAs hs hn (hlisted _ hb)]
  · intro index p hget hunlisted o ho
    rw [map_index_topOutcomes hs hn] at hunlisted
    rw [topOutcomes_eq hs] at ho
    obtain ⟨state, hmem, rfl⟩ := List.mem_map.mp ho
    rw [index_shownAs hs hn (hlisted state hmem)]
    exact ranksBefore_of_take hmem (mem_rankedStates.mpr hget)
      fun htaken => hunlisted (List.mem_map_of_mem htaken)

/-! ### No numbers of both signs -/

/-- A double as it is stored. -/
structure StoredDouble where
  word : UInt64
  deriving DecidableEq

namespace StoredDouble

instance : Stored StoredDouble where
  bits := word

/-- The number that a word stands for, if it is one. -/
def value (x : StoredDouble) : Float := Float.ofBits x.word

/-- What a result is stored as. A new one that is no number has its sign set. -/
def ofResult (x : Float) : StoredDouble := ⟨if x.isNaN then 0xFFF8000000000000 else x.toBits⟩

/-- The word of an operand that is no number, with the first bit of its fraction set. -/
def quiet (x : StoredDouble) : StoredDouble := ⟨x.word ||| 0x0008000000000000⟩

/-- An operation on one operand; if it is no number, its word is kept. -/
def map (f : Float → Float) (x : StoredDouble) : StoredDouble :=
  if x.value.isNaN then x.quiet else ofResult (f x.value)

/-- An operation on two operands; if one is no number, its word is kept, the first one of two. -/
def map₂ (f : Float → Float → Float) (x y : StoredDouble) : StoredDouble :=
  if x.value.isNaN then x.quiet
  else if y.value.isNaN then y.quiet
  else ofResult (f x.value y.value)

instance : Scalar StoredDouble where
  zero := ofResult 0.0
  one := ofResult 1.0
  add := map₂ (· + ·)
  sub := map₂ (· - ·)
  mul := map₂ (· * ·)
  div := map₂ (· / ·)
  neg x := ⟨x.word ^^^ 0x8000000000000000⟩
  beq x y := x.value == y.value
  ofNat n := ofResult (Float.ofNat n)
  pi := ofResult Scalar.pi
  sqrt := map Float.sqrt
  sin := map Float.sin
  cos := map Float.cos
  abs x := ⟨x.word &&& 0x7FFFFFFFFFFFFFFF⟩
  hypotenuse x y := ofResult (Double.hypotenuse x.value y.value)
  less x y := x.value < y.value
  atMost x y := x.value ≤ y.value
  isNaN x := x.value.isNaN
  ceil := map Float.ceil
  toCount x := x.value.toUInt32.toNat
  tolerance := ofResult 1e-12

end StoredDouble

/-- Two basis states are equally likely, and the amplitudes of the others are no numbers, of either sign. -/
def unmeasurable : StateVector StoredDouble :=
  ⟨#[⟨⟨0xFFF8000000000000⟩, 0⟩, ⟨.ofResult 0.5, 0⟩, ⟨⟨0x7FF8000000000000⟩, 0⟩, ⟨0, .ofResult 0.5⟩], 2⟩

/-- The state whose probability is a positive no number ranks first, the one with a negative no number
last. -/
theorem rankedStates_unmeasurable : rankedStates unmeasurable =
    [(⟨0x7FF8000000000000⟩, 2), (.ofResult 0.25, 1), (.ofResult 0.25, 3), (⟨0xFFF8000000000000⟩, 0)] :=
  rankedStates_eq (by decide +kernel) (by decide +kernel)

/-- Three of four states: what is no number stands in front if it is positive, and is left out if it is
negative. -/
theorem top_outcomes_ranked_unmeasurable :
    unmeasurable.WellFormed ∧ 1 ≤ unmeasurable.qubitCount ∧
      (topOutcomes unmeasurable 3).length = 3 ∧
      (topOutcomes unmeasurable 3).Pairwise
        (fun o o' => RanksBefore (o.probability, o.index) (o'.probability, o'.index)) ∧
      (∀ index p, unmeasurable.probabilities[index]? = some p →
        index ∉ (topOutcomes unmeasurable 3).map Outcome.index →
        ∀ o ∈ topOutcomes unmeasurable 3, RanksBefore (o.probability, o.index) (p, index)) ∧
      (topOutcomes unmeasurable 3).map Outcome.bitstring = ["10", "01", "11"] := by
  have hs : unmeasurable.WellFormed := rfl
  obtain ⟨hlength, -, -, hranked, hrest⟩ := top_outcomes_ranked hs one_le_two 3
  refine ⟨hs, one_le_two, hlength, hranked, hrest, ?_⟩
  rw [topOutcomes_eq hs, rankedStates_unmeasurable]
  decide

end GateCircuit
