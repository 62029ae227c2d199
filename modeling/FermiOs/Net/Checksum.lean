import Mathlib.Tactic

/-!
# The internet checksum

`inet_csum` of `pci/virtio/net/net.c` adds the 16-bit words of a byte string in a 32-bit accumulator and
folds the carries back in at the end. The one's-complement sum puts every carry back as it occurs. Both
are the remainder modulo `2 ^ 16 - 1`, of which only the empty sum is `0`.
-/

namespace FermiOs.Net
open List
variable {data : List UInt8} {n : Nat}

/-- The words the loop of `inet_csum` reads, an odd last byte in the upper half. -/
def words : List UInt8 → List Nat
  | a :: b :: data => (a.toNat <<< 8 ||| b.toNat) :: words data
  | [a] => [a.toNat <<< 8]
  | [] => []

/-- The folding loop of `inet_csum`. -/
def fold (sum : Nat) : Nat :=
  if sum / 2 ^ 16 = 0 then sum else fold (sum % 2 ^ 16 + sum / 2 ^ 16)
termination_by sum
decreasing_by omega

/-- `inet_csum`. -/
def inetCsum (data : List UInt8) : Nat :=
  (0xFFFFFFFF - fold ((words data).foldl (fun sum w => (sum + w) % 2 ^ 32) 0)) % 2 ^ 16

/-- How a checksum is stored: the upper byte first. -/
def store16 (data : List UInt8) (i v : Nat) : List UInt8 :=
  (data.set i (.ofNat (v / 2 ^ 8 % 2 ^ 8))).set (i + 1) (.ofNat (v % 2 ^ 8))

/-- One's-complement addition: a carry out of the word is added at its other end. -/
def onesAdd (a b : Nat) : Nat := if a + b < 2 ^ 16 then a + b else a + b - 2 ^ 16 + 1

/-- The representative of a sum: `2 ^ 16 - 1` stands for the multiples other than `0`. -/
def residue (n : Nat) : Nat := if n = 0 then 0 else (n - 1) % 0xFFFF + 1

lemma residue_of_lt (h : n < 2 ^ 16) : residue n = n := by
  cases n with
  | zero => rfl
  | succ n => exact congrArg (· + 1) (Nat.mod_eq_of_lt (Nat.lt_of_succ_lt_succ h))

lemma onesAdd_residue (m : Nat) (h : n < 2 ^ 16) : onesAdd (residue m) n = residue (m + n) := by
  rw [onesAdd]
  unfold residue
  by_cases hm : m = 0
  · subst hm
    simp only [if_true, zero_add]
    split_ifs <;> omega
  · rw [if_neg hm, if_neg (by omega : m + n ≠ 0)]
    split_ifs <;> omega

lemma fold_eq (n : Nat) : fold n = residue n := by
  induction n using fold.induct with
  | case1 n h => rw [fold, if_pos h, residue_of_lt (by omega)]
  | case2 n h ih =>
    rw [fold, if_neg h, ih]
    unfold residue
    split_ifs <;> omega

lemma word_eq (a b : UInt8) : a.toNat <<< 8 ||| b.toNat = a.toNat * 2 ^ 8 + b.toNat := by
  rw [← Nat.shiftLeft_add_eq_or_of_lt b.toNat_lt, Nat.shiftLeft_eq]

lemma words_spec (data : List UInt8) :
    (∀ w ∈ words data, w < 2 ^ 16) ∧ (words data).length = (data.length + 1) / 2 := by
  induction data using words.induct with
  | case1 a b data ih =>
    have ha := a.toNat_lt
    have hb := b.toNat_lt
    rw [words, word_eq, forall_mem_cons, length_cons, ih.2, length_cons, length_cons]
    exact ⟨⟨by omega, ih.1⟩, by omega⟩
  | case2 a =>
    have ha := a.toNat_lt
    rw [words, Nat.shiftLeft_eq]
    exact ⟨forall_mem_singleton.mpr (by omega), by rw [length_singleton, length_singleton]⟩
  | case3 => exact ⟨forall_mem_nil _, rfl⟩

/-- Short of 32 bits the accumulator holds the sum. -/
lemma foldl_sum (ws : List Nat) : ∀ s, s + ws.sum < 2 ^ 32 →
    ws.foldl (fun sum w => (sum + w) % 2 ^ 32) s = s + ws.sum := by
  induction ws with
  | nil => exact fun s _ => rfl
  | cons w ws ih =>
    intro s h
    rw [sum_cons] at h ⊢
    rw [foldl_cons, Nat.mod_eq_of_lt (by omega), ih _ (by omega), add_assoc]

lemma foldl_onesAdd (ws : List Nat) : ∀ m, (∀ w ∈ ws, w < 2 ^ 16) →
    ws.foldl onesAdd (residue m) = residue (m + ws.sum) := by
  induction ws with
  | nil => exact fun m _ => rfl
  | cons w ws ih =>
    intro m h
    rw [forall_mem_cons] at h
    rw [foldl_cons, onesAdd_residue m h.1, ih _ h.2, sum_cons, add_assoc]

lemma inetCsum_eq (h : data.length < 2 ^ 17) : inetCsum data = 0xFFFF - residue (words data).sum := by
  obtain ⟨hlt, hlen⟩ := words_spec data
  have hsum : (words data).sum ≤ (words data).length * 0xFFFF :=
    sum_le_card_nsmul _ _ fun w hw => Nat.le_pred_of_lt (hlt w hw)
  have hres : residue (words data).sum < 2 ^ 16 := by
    unfold residue
    split_ifs <;> omega
  rw [inetCsum, foldl_sum _ 0 (by omega), zero_add, fold_eq]
  omega

/-- A word stored over a zero word is added to the sum. -/
lemma sum_store16 {v : Nat} (hv : v < 2 ^ 16) (data : List UInt8) : ∀ i, data[2 * i]? = some 0 →
    data[2 * i + 1]? = some 0 → (words (store16 data (2 * i) v)).sum = (words data).sum + v := by
  induction data using words.induct with
  | case1 a b data ih =>
    intro i h0 h1
    cases i with
    | zero =>
      cases h0
      cases h1
      have hbyte : ∀ n, (UInt8.ofNat (n % 2 ^ 8)).toNat = n % 2 ^ 8 :=
        fun n => UInt8.toNat_ofNat_of_lt (Nat.mod_lt n (by decide))
      show (words (_ :: _ :: data)).sum = _
      rw [words, words, sum_cons, sum_cons, word_eq, word_eq, hbyte, hbyte, UInt8.toNat_zero]
      omega
    | succ i =>
      have hstore : store16 (a :: b :: data) (2 * (i + 1)) v = a :: b :: store16 data (2 * i) v := rfl
      rw [hstore, words, words, sum_cons, sum_cons, ih i h0 h1, add_assoc]
  | case2 a => exact fun i _ h1 => absurd h1 (by simp)
  | case3 => exact fun i h0 => absurd h0 (by simp)

/-- **The checksum is the complement of the one's-complement sum**, and a string that carries its own
checksum has checksum `0`. -/
theorem inetCsum_correct (h : data.length < 2 ^ 17) :
    inetCsum data = 0xFFFF - (words data).foldl onesAdd 0 ∧
      ∀ i, i % 2 = 0 → data[i]? = some 0 → data[i + 1]? = some 0 →
        inetCsum (store16 data i (inetCsum data)) = 0 := by
  have hsum : (words data).foldl onesAdd 0 = residue (words data).sum :=
    (foldl_onesAdd _ 0 (words_spec data).1).trans (by rw [zero_add])
  refine ⟨by rw [inetCsum_eq h, hsum], fun i hi h0 h1 => ?_⟩
  obtain ⟨j, rfl⟩ : ∃ j, i = 2 * j := ⟨i / 2, by omega⟩
  have hlen : (store16 data (2 * j) (inetCsum data)).length < 2 ^ 17 := by
    rw [store16, length_set, length_set]
    exact h
  have hv : inetCsum data < 2 ^ 16 := Nat.mod_lt _ (by decide)
  rw [inetCsum_eq hlen, sum_store16 hv data j h0 h1, inetCsum_eq h]
  generalize (words data).sum = n
  unfold residue
  split_ifs <;> omega

/-- The header of a datagram from `10.0.2.15` to `255.255.255.255`, its checksum field still zero. -/
theorem inetCsum_correct_header :
    inetCsum (store16 [0x45, 0, 1, 60, 0, 0, 0, 0, 64, 17, 0, 0, 10, 0, 2, 15, 255, 255, 255, 255] 10
      (inetCsum [0x45, 0, 1, 60, 0, 0, 0, 0, 64, 17, 0, 0, 10, 0, 2, 15, 255, 255, 255, 255])) = 0 :=
  (inetCsum_correct (by decide)).2 10 rfl rfl rfl

end FermiOs.Net
