import Mathlib.Tactic

/-!
# Sets of numbers packed into words

Bit `n` of a sequence of 64-bit words is bit `n % 64` of word `n / 64`. Setting, clearing and testing a
bit by masks is insertion, removal and membership; the number of members below a bound changes by one
with each of them that has an effect.
-/

namespace FermiOs.Library

/-- A sequence of words. -/
def BitWords : Type := Nat → BitVec 64

namespace BitWords

/-- The mask of a bit in its word. -/
def mask (n : Nat) : BitVec 64 := 1#64 <<< (n % 64)

section
variable (w : BitWords) (n : Nat)

/-- The word is or-ed with the mask. -/
def setBit : BitWords :=
  fun i => if i = n / 64 then w i ||| mask n else w i

/-- The word is and-ed with the complement of the mask. -/
def clearBit : BitWords :=
  fun i => if i = n / 64 then w i &&& ~~~ mask n else w i

/-- The word is shifted and its lowest bit taken. -/
def test : Bool := (w (n / 64) >>> (n % 64)) &&& 1#64 ≠ 0#64

end

/-- The bits below a bound that are set. -/
def count (w : BitWords) (bound : Nat) : Nat := ((Finset.range bound).filter fun n => w.test n = true).card

section
variable (w : BitWords)

lemma test_eq (n : Nat) : w.test n = (w (n / 64)).getLsbD (n % 64) := by
  have hbit : ((w (n / 64) >>> (n % 64)) &&& 1#64 = 0#64) ↔ (w (n / 64)).getLsbD (n % 64) = false := by
    constructor
    · intro h
      have h0 := congrArg (fun x => x.getLsbD 0) h
      simpa using h0
    intro h
    refine BitVec.eq_of_getLsbD_eq fun j hj => ?_
    by_cases hj0 : j = 0
    · subst hj0
      simpa using h
    · simp [BitVec.getLsbD_one, hj0]
  rw [test]
  cases hb : (w (n / 64)).getLsbD (n % 64) with
  | false =>
    rw [hb] at hbit
    simpa using hbit.mpr rfl
  | true =>
    rw [hb] at hbit
    simpa using fun h => Bool.noConfusion (hbit.mp h)

lemma getLsbD_mask (n j : Nat) : (mask n).getLsbD j = decide (j = n % 64) := by
  rw [mask, BitVec.getLsbD_shiftLeft, BitVec.getLsbD_one]
  by_cases h : j = n % 64
  · simp [h, Nat.mod_lt]
  simp only [h, decide_false]
  by_cases hlt : j < n % 64
  · simp [hlt]
  · simp
    omega

@[simp] lemma test_setBit (n q : Nat) : (w.setBit n).test q = (decide (q = n) || w.test q) := by
  rw [test_eq, test_eq, setBit]
  have hlt : q % 64 < 64 := Nat.mod_lt _ (by decide)
  split_ifs with hword
  · rw [BitVec.getLsbD_or, getLsbD_mask n, Bool.or_comm]
    congr 1
    exact decide_eq_decide.mpr (by omega)
  · rw [decide_eq_false (by rintro rfl; exact hword rfl), Bool.false_or]

@[simp] lemma test_clearBit (n q : Nat) : (w.clearBit n).test q = (!decide (q = n) && w.test q) := by
  rw [test_eq, test_eq, clearBit]
  have hlt : q % 64 < 64 := Nat.mod_lt _ (by decide)
  split_ifs with hword
  · rw [BitVec.getLsbD_and, BitVec.getLsbD_not, getLsbD_mask n, Bool.and_comm]
    have hdec : decide (q % 64 = n % 64) = decide (q = n) := decide_eq_decide.mpr (by omega)
    simp [hlt, hdec]
  · rw [decide_eq_false (by rintro rfl; exact hword rfl), Bool.not_false, Bool.true_and]

/-- A word is all ones exactly if its bits are set. -/
lemma eq_allOnes_iff (i : Nat) :
    w i = BitVec.allOnes 64 ↔ ∀ n, i * 64 ≤ n → n < i * 64 + 64 → w.test n = true := by
  constructor
  · intro h n hlo hhi
    have hi : n / 64 = i := by omega
    have hlt : n % 64 < 64 := Nat.mod_lt _ (by decide)
    rw [test_eq, hi, h, BitVec.getLsbD_allOnes]
    exact decide_eq_true hlt
  intro h
  refine BitVec.eq_of_getLsbD_eq fun j hj => ?_
  have hbit := h (i * 64 + j) (by omega) (by omega)
  have hi : (i * 64 + j) / 64 = i := by omega
  have hj' : (i * 64 + j) % 64 = j := by omega
  rw [test_eq, hi, hj'] at hbit
  rw [hbit, BitVec.getLsbD_allOnes]
  exact (decide_eq_true hj).symm

/-- Setting a clear bit below the bound counts one more. -/
lemma count_setBit {n bound : Nat} (hn : n < bound) (hclear : w.test n = false) :
    (w.setBit n).count bound = w.count bound + 1 := by
  have hset : (Finset.range bound).filter (fun q => (w.setBit n).test q = true) =
      insert n ((Finset.range bound).filter fun q => w.test q = true) := by
    ext q
    simp only [Finset.mem_filter, Finset.mem_range, Finset.mem_insert, test_setBit, Bool.or_eq_true,
      decide_eq_true_eq]
    constructor
    · rintro ⟨hq, rfl | ht⟩
      · exact .inl rfl
      · exact .inr ⟨hq, ht⟩
    · rintro (rfl | ⟨hq, ht⟩)
      · exact ⟨hn, .inl rfl⟩
      · exact ⟨hq, .inr ht⟩
  rw [count, hset, Finset.card_insert_of_notMem, count]
  simp [hclear]

/-- Clearing a set bit below the bound counts one less. -/
lemma count_clearBit {n bound : Nat} (hn : n < bound) (hset : w.test n = true) :
    (w.clearBit n).count bound = w.count bound - 1 := by
  have heq : (Finset.range bound).filter (fun q => (w.clearBit n).test q = true) =
      ((Finset.range bound).filter fun q => w.test q = true).erase n := by
    ext q
    simp only [Finset.mem_filter, Finset.mem_range, Finset.mem_erase, test_clearBit, Bool.and_eq_true,
      Bool.not_eq_true', decide_eq_false_iff_not]
    tauto
  rw [count, heq, Finset.card_erase_of_mem, count]
  simp [hn, hset]

end
end BitWords
end FermiOs.Library
