import FermiOs.Library.Bytes
import Mathlib.Data.List.Sort

/-!
# `qsort`

The insertion sort of the user library, over the bytes of memory. An array lies inside the address
space, so that no address of it wraps. Read from its end, the array after the loops is Mathlib's
`insertionSort` of the array before them; sortedness, permutation and stability follow from there.
-/

namespace FermiOs.Qsort
open Library List Function

/-- An element of `size` bytes. -/
abbrev Elem (size : Nat) := Fin size → UInt8

/-- Element `j` of the array at `base`. -/
def elemAt (m : Bytes) (base size j : Nat) : Elem size := fun k => m (base + j * size + k)

/-- The first `n` elements of the array at `base`. -/
def elems (m : Bytes) (base size n : Nat) : List (Elem size) := (range n).map (elemAt m base size)

/-- The loop that swaps `n` bytes at `prev` with those at `cur`. -/
def swapLoop (prev cur n : Nat) (m : Bytes) : Bytes :=
  (range n).foldl (fun m k => update (update m (prev + k) (m (cur + k))) (cur + k) (m (prev + k))) m

/-- The inner loop of `qsort`, from `j` down. -/
def sinkLoop {size : Nat} (cmp : Elem size → Elem size → Int) (base : Nat) : Nat → Bytes → Bytes
  | 0, m => m
  | j + 1, m =>
    if cmp (elemAt m base size j) (elemAt m base size (j + 1)) ≤ 0 then m
    else sinkLoop cmp base j (swapLoop (base + j * size) (base + (j + 1) * size) size m)

/-- `qsort`. -/
def qsort {size : Nat} (cmp : Elem size → Elem size → Int) (base count : Nat) (m : Bytes) : Bytes :=
  if count < 2 ∨ size = 0 then m
  else (range (count - 1)).foldl (fun m i => sinkLoop cmp base (i + 1) m) m

/-- A comparator that is a consistent total preorder. -/
structure TotalPreorder {size : Nat} (cmp : Elem size → Elem size → Int) : Prop where
  swap : ∀ x y, cmp x y < 0 ↔ 0 < cmp y x
  trans : ∀ x y z, cmp x y ≤ 0 → cmp y z ≤ 0 → cmp x z ≤ 0

/-! ## The loops -/

section
variable {size : Nat} (cmp : Elem size → Elem size → Int) (m : Bytes) (base : Nat)

lemma swapLoop_apply (prev n : Nat) (hn : n ≤ size) (x : Nat) : swapLoop prev (prev + size) n m x =
      if prev ≤ x ∧ x < prev + n then m (x + size)
      else if prev + size ≤ x ∧ x < prev + size + n then m (x - size) else m x := by
  induction n generalizing x with
  | zero => rw [if_neg (by omega), if_neg (by omega)]; rfl
  | succ n ih =>
    rw [swapLoop] at ih ⊢
    rw [range_succ, foldl_append, foldl_cons, foldl_nil, update_apply, update_apply,
      ih (by omega) (prev + n), ih (by omega) (prev + size + n), ih (by omega) x]
    by_cases hc : x = prev + size + n
    · rw [if_pos hc, if_neg (by omega), if_neg (by omega), if_neg (by omega), if_pos (by omega), hc]
      congr 1
      omega
    by_cases hp : x = prev + n
    · rw [if_neg hc, if_pos hp, if_neg (by omega), if_neg (by omega), if_pos (by omega), hp]
      congr 1
      omega
    · rw [if_neg hc, if_neg hp]
      split_ifs <;> first | rfl | omega

lemma elems_succ (n : Nat) :
    (elems m base size (n + 1)).reverse = elemAt m base size n :: (elems m base size n).reverse := by
  rw [elems, range_succ, map_append, reverse_append]
  rfl

lemma elemAt_congr {m m' : Bytes} {j : Nat}
    (h : ∀ x, base + j * size ≤ x → x < base + (j + 1) * size → m' x = m x) :
    elemAt m' base size j = elemAt m base size j := by
  funext k
  have hk := k.2
  exact h _ (by omega) (by rw [Nat.succ_mul]; omega)

lemma sinkLoop_outside (j x : Nat) (h : x < base ∨ base + (j + 1) * size ≤ x) :
    sinkLoop cmp base j m x = m x := by
  induction j generalizing m with
  | zero => rfl
  | succ j ih =>
    rw [Nat.succ_mul] at h
    rw [sinkLoop]
    split
    · rfl
    rw [ih _ (by omega), Nat.succ_mul, ← add_assoc, swapLoop_apply m _ size le_rfl x]
    rw [Nat.succ_mul] at h
    rw [if_neg (by omega), if_neg (by omega)]

/-- Read from its end, the inner loop inserts element `j` into the elements before it. -/
lemma sinkLoop_elems (j : Nat) : (elems (sinkLoop cmp base j m) base size (j + 1)).reverse =
      orderedInsert (fun a b => cmp b a ≤ 0) (elemAt m base size j) (elems m base size j).reverse := by
  induction j generalizing m with
  | zero => rfl
  | succ j ih =>
    rw [elems_succ m, orderedInsert_cons, sinkLoop]
    split
    · rw [elems_succ, elems_succ]
    generalize hm : swapLoop (base + j * size) (base + (j + 1) * size) size m = m'
    have happly := swapLoop_apply m (base + j * size) size le_rfl
    rw [add_assoc base, ← Nat.succ_mul, hm] at happly
    have hlast : elemAt m' base size (j + 1) = elemAt m base size j := by
      funext k
      have hk := k.2
      rw [elemAt, happly, Nat.succ_mul, if_neg (by omega), if_pos (by omega), elemAt]
      congr 1
      omega
    have hmoved : elemAt m' base size j = elemAt m base size (j + 1) := by
      funext k
      have hk := k.2
      rw [elemAt, happly, if_pos (by rw [Nat.succ_mul]; omega), elemAt, Nat.succ_mul]
      congr 1
      omega
    have hbefore : elems m' base size j = elems m base size j := by
      refine map_congr_left fun i hi => elemAt_congr base fun x _ hx => ?_
      have hle : (i + 1) * size ≤ j * size := Nat.mul_le_mul_right size (mem_range.mp hi)
      rw [happly, if_neg (by omega), if_neg (by rw [Nat.succ_mul]; omega)]
    have hkept : elemAt (sinkLoop cmp base j m') base size (j + 1) = elemAt m' base size (j + 1) :=
      elemAt_congr base fun x hx _ => sinkLoop_outside cmp m' base j x (.inr hx)
    rw [elems_succ _ _ (j + 1), hkept, hlast, ih m', hmoved, hbefore]

/-- Read from its end, the array after `n` rounds is the insertion sort of its first elements. -/
lemma rounds_elems (n : Nat) :
    (elems ((range n).foldl (fun m i => sinkLoop cmp base (i + 1) m) m) base size (n + 1)).reverse =
        insertionSort (fun a b => cmp b a ≤ 0) (elems m base size (n + 1)).reverse ∧
      ∀ x, x < base ∨ base + (n + 1) * size ≤ x →
        (range n).foldl (fun m i => sinkLoop cmp base (i + 1) m) m x = m x := by
  induction n with
  | zero => exact ⟨rfl, fun _ _ => rfl⟩
  | succ n ih =>
    obtain ⟨ih, hout⟩ := ih
    rw [range_succ, foldl_append, foldl_cons, foldl_nil]
    generalize (range n).foldl (fun m i => sinkLoop cmp base (i + 1) m) m = m' at ih hout ⊢
    constructor
    · have hnext : elemAt m' base size (n + 1) = elemAt m base size (n + 1) :=
        elemAt_congr base fun x hx _ => hout x (.inr hx)
      rw [sinkLoop_elems, ih, hnext, elems_succ m base (n + 1), insertionSort_cons]
    · intro x hx
      rw [sinkLoop_outside cmp m' base (n + 1) x hx]
      rw [Nat.succ_mul] at hx
      exact hout x (by omega)

end

/-! ## The sort -/

section
variable {size : Nat} {cmp : Elem size → Elem size → Int}

section
variable (h : TotalPreorder cmp)
include h

lemma TotalPreorder.refl (x : Elem size) : cmp x x = 0 := by
  have := h.swap x x
  omega

lemma TotalPreorder.total (x y : Elem size) : cmp x y ≤ 0 ∨ cmp y x ≤ 0 := by
  have := h.swap y x
  omega

/-- Elements that compare equal to `x` are in the relation by which they are sorted. -/
lemma TotalPreorder.class_le {x y z : Elem size} (hy : cmp x y = 0)
    (hz : cmp x z = 0) : cmp z y ≤ 0 := by
  have := h.swap x z
  have := h.swap z x
  exact h.trans z x y (by omega) (by omega)

/-- Insertion sort keeps the order inside each class of equal elements. -/
lemma TotalPreorder.filter_sort (l : List (Elem size)) (x : Elem size) :
    (insertionSort (fun a b => cmp b a ≤ 0) l).filter (fun y => cmp x y = 0) =
      l.filter fun y => cmp x y = 0 := by
  have hclass : (l.filter fun y => cmp x y = 0).Pairwise fun a b => cmp b a ≤ 0 := by
    refine pairwise_iff_forall_sublist.mpr fun {a b} hab => ?_
    have hmem : ∀ c ∈ [a, b], cmp x c = 0 := fun c hc =>
      of_decide_eq_true (mem_filter.mp (hab.subset hc)).2
    exact h.class_le (hmem a mem_cons_self) (hmem b (mem_cons_of_mem a mem_cons_self))
  have hsub := (sublist_insertionSort hclass filter_sublist).filter fun y => decide (cmp x y = 0)
  rw [filter_filter] at hsub
  simp only [Bool.and_self] at hsub
  exact (hsub.eq_of_length ((perm_insertionSort _ l).filter _).length_eq.symm).symm

end

/-- **`qsort` leaves a stable sorted permutation** of the elements, and touches no byte outside the
array: elements that compare equal stand in the order they had. -/
theorem qsort_stable (h : TotalPreorder cmp) (base count : Nat) (m : Bytes) :
    (elems (qsort cmp base count m) base size count).Pairwise (fun a b => cmp a b ≤ 0) ∧
      (elems (qsort cmp base count m) base size count).Perm (elems m base size count) ∧
      (∀ x, (elems (qsort cmp base count m) base size count).filter (fun y => cmp x y = 0) =
        (elems m base size count).filter fun y => cmp x y = 0) ∧
      ∀ p, p < base ∨ base + count * size ≤ p → qsort cmp base count m p = m p := by
  rw [qsort]
  split
  · rename_i hsmall
    refine ⟨?_, Perm.refl _, fun _ => rfl, fun _ _ => rfl⟩
    rcases hsmall with hcount | rfl
    · have hcases : count = 0 ∨ count = 1 := by omega
      rcases hcases with rfl | rfl
      · exact Pairwise.nil
      · exact pairwise_singleton _ _
    · -- elements of no bytes are equal
      refine pairwise_of_forall fun a b => ?_
      rw [Subsingleton.elim a b, h.refl]
  rename_i hsmall
  obtain ⟨n, rfl⟩ : ∃ n, count = n + 1 := ⟨count - 1, by omega⟩
  rw [Nat.add_sub_cancel]
  obtain ⟨hsort, hout⟩ := rounds_elems cmp m base n
  generalize (range n).foldl (fun m i => sinkLoop cmp base (i + 1) m) m = m' at hsort hout ⊢
  have : Std.Total fun a b : Elem size => cmp b a ≤ 0 := ⟨fun a b => h.total b a⟩
  have : IsTrans (Elem size) fun a b => cmp b a ≤ 0 := ⟨fun a b c hab hbc => h.trans c b a hbc hab⟩
  refine ⟨?_, ?_, fun x => ?_, hout⟩
  · have hp := pairwise_insertionSort (fun a b => cmp b a ≤ 0) (elems m base size (n + 1)).reverse
    rw [← hsort] at hp
    exact pairwise_reverse.mp hp
  · have hp := perm_insertionSort (fun a b => cmp b a ≤ 0) (elems m base size (n + 1)).reverse
    rw [← hsort] at hp
    exact (reverse_perm _).symm.trans (hp.trans (reverse_perm _))
  · have hf := h.filter_sort (elems m base size (n + 1)).reverse x
    rw [← hsort, filter_reverse, filter_reverse] at hf
    exact reverse_injective hf

/-- Elements of one byte, by their value. -/
def byValue (x y : Elem 1) : Int := (x 0).toNat - (y 0).toNat

theorem qsort_stable_bytes :
    TotalPreorder byValue ∧ elems (qsort byValue 8 3 fun x => UInt8.ofNat (20 - x)) 8 1 3 =
        [fun _ => 10, fun _ => 11, fun _ => 12] ∧
      (elems (qsort byValue 8 3 fun x => UInt8.ofNat (20 - x)) 8 1 3).Pairwise
        fun a b => byValue a b ≤ 0 := by
  have h : TotalPreorder byValue :=
    ⟨fun x y => by rw [byValue, byValue]; omega, fun x y z => by rw [byValue, byValue, byValue]; omega⟩
  exact ⟨h, by decide, (qsort_stable h 8 3 _).1⟩

end
end FermiOs.Qsort
