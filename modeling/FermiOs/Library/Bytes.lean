import Mathlib.Tactic

/-!
# Byte memory

A memory is a function from addresses to bytes. Numbers are stored little-endian in a given number of
bytes. Every operation says where it writes; a load depends on the bytes it reads only, so that loads
and stores of disjoint ranges commute (`load_store_of_apart`).
-/

namespace FermiOs.Library

/-- The contents of a memory. -/
abbrev Bytes := Nat → UInt8

namespace Bytes

/-- The number in the `n` bytes from `a` on. -/
def load (m : Bytes) (a : Nat) : Nat → Nat
  | 0 => 0
  | n + 1 => (m a).toNat + 256 * load m (a + 1) n

/-- `v` in the `n` bytes from `a` on. -/
def store (m : Bytes) (a n v : Nat) : Bytes := fun x =>
  if a ≤ x ∧ x < a + n then UInt8.ofNat (v / 256 ^ (x - a)) else m x

/-- `memset`. -/
def fill (m : Bytes) (a n : Nat) (c : UInt8) : Bytes := fun x =>
  if a ≤ x ∧ x < a + n then c else m x

/-- `memcpy`. -/
def copy (m : Bytes) (dst src n : Nat) : Bytes := fun x =>
  if dst ≤ x ∧ x < dst + n then m (src + (x - dst)) else m x

variable {m m' : Bytes} {a b n k v x : Nat} {c : UInt8}

lemma store_outside (h : x < a ∨ a + n ≤ x) : m.store a n v x = m x := if_neg (by omega)

lemma fill_outside (h : x < a ∨ a + n ≤ x) : m.fill a n c x = m x := if_neg (by omega)

lemma fill_inside (hlo : a ≤ x) (hhi : x < a + n) : m.fill a n c x = c := if_pos ⟨hlo, hhi⟩

lemma copy_outside (h : x < a ∨ a + n ≤ x) : m.copy a b n x = m x := if_neg (by omega)

/-- A load depends on the bytes it reads. -/
lemma load_congr (h : ∀ x, a ≤ x → x < a + n → m' x = m x) : m'.load a n = m.load a n := by
  induction n generalizing a with
  | zero => rfl
  | succ n ih =>
    rw [load, load, h a (le_refl a) (by omega), ih fun x hlo hhi => h x (by omega) (by omega)]

/-- A stored number is read back. -/
lemma load_store (m : Bytes) (a n : Nat) (h : v < 256 ^ n) : (m.store a n v).load a n = v := by
  -- byte by byte: each step reads one digit and goes on with the quotient
  have hdigits : ∀ (n a v : Nat) (m' : Bytes),
      (∀ i, i < n → m' (a + i) = UInt8.ofNat (v / 256 ^ i)) → m'.load a n = v % 256 ^ n := by
    intro n
    induction n with
    | zero =>
      intro a v m' _
      rw [load, pow_zero, Nat.mod_one]
    | succ n ih =>
      intro a v m' hm
      have hfirst := hm 0 (Nat.succ_pos n)
      rw [add_zero, pow_zero, Nat.div_one] at hfirst
      have hrest : m'.load (a + 1) n = v / 256 % 256 ^ n := by
        refine ih (a + 1) (v / 256) m' fun i hi => ?_
        have hnext := hm (i + 1) (by omega)
        rw [Nat.div_div_eq_div_mul, ← pow_succ']
        rw [show a + 1 + i = a + (i + 1) by omega]
        exact hnext
      rw [load, hfirst, hrest, pow_succ', Nat.mod_mul, UInt8.toNat_ofNat']
  have hload := hdigits n a v (m.store a n v) fun i hi => by
    rw [store, if_pos (by omega), Nat.add_sub_cancel_left]
  rw [hload, Nat.mod_eq_of_lt h]

/-- Loads and stores of disjoint ranges commute. -/
lemma load_store_of_apart (h : b + k ≤ a ∨ a + n ≤ b) : (m.store a n v).load b k = m.load b k :=
  load_congr fun x hlo hhi => store_outside (by omega)

lemma load_lt (m : Bytes) (a n : Nat) : m.load a n < 256 ^ n := by
  induction n generalizing a with
  | zero => exact Nat.one_pos
  | succ n ih =>
    have hbyte := (m a).toNat_lt
    have hrest := ih (a + 1)
    rw [load, pow_succ']
    omega

end Bytes
end FermiOs.Library
