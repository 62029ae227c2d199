import Mathlib.Tactic

/-!
# Lists of address segments

A segment covers the half-open range `[lo, hi)` and carries a value for every point it covers. A list
of segments is read in two ways. `Holds` is the relation "some segment covers the point with this
value"; it makes sense for any list and is what cutting, welding and reordering preserve. `lookup` is
the function that takes the first covering segment; on lists of pairwise apart segments the two agree
(`lookup_eq_some_iff`), so facts about `Holds` transfer to the map a list denotes.
-/

namespace FermiOs.Library
open List

universe u v

/-- How a type of records is read as segments. -/
structure SegKind (β : Type u) (γ : Type v) where
  lo : β → Nat
  hi : β → Nat
  val : β → Nat → γ

namespace SegKind
variable {β : Type u} {γ : Type v} (S : SegKind β γ) {p : Nat} {xs ys : List β}

/-- The segment covers the point. -/
def Covers (b : β) (p : Nat) : Prop := S.lo b ≤ p ∧ p < S.hi b
deriving Decidable

section
variable (xs : List β) (p : Nat)

/-- Some segment of the list covers `p` with value `g`. -/
def Holds (g : γ) : Prop := ∃ b ∈ xs, S.Covers b p ∧ S.val b p = g

/-- The first segment covering the point. -/
def find : Option β := xs.find? fun b => decide (S.Covers b p)

/-- The value at a point, from the first segment covering it. -/
def lookup : Option γ := (S.find xs p).map (S.val · p)

end

/-- No point is covered twice. -/
def Apart (xs : List β) : Prop := xs.Pairwise fun a b => S.hi a ≤ S.lo b ∨ S.hi b ≤ S.lo a

lemma find_some {b : β} (h : S.find xs p = some b) : b ∈ xs ∧ S.Covers b p :=
  ⟨mem_of_find?_eq_some h, by simpa using find?_some h⟩

lemma find_none (h : S.find xs p = none) : ∀ b ∈ xs, ¬ S.Covers b p := by
  intro b hb
  have := find?_eq_none.mp h b hb
  simpa using this

/-- The list around the segment that `find` returns. -/
lemma find_split {b : β} (h : S.find xs p = some b) :
    ∃ l r, xs = l ++ b :: r ∧ (∀ a ∈ l, ¬ S.Covers a p) ∧ S.Covers b p := by
  obtain ⟨hb, l, r, rfl, hl⟩ := find?_eq_some_iff_append.mp h
  exact ⟨l, r, rfl, fun a ha => by simpa using hl a ha, by simpa using hb⟩

lemma Apart.perm (h : S.Apart xs) (hp : xs.Perm ys) : S.Apart ys :=
  (List.Perm.pairwise_iff (fun h => h.symm) hp).mp h

/-- In an apart list at most one segment covers a point. -/
lemma Apart.unique (h : S.Apart xs) {a b : β} (ha : a ∈ xs) (hb : b ∈ xs) (hca : S.Covers a p)
    (hcb : S.Covers b p) : a = b := by
  induction xs with
  | nil => cases ha
  | cons x xs ih =>
    obtain ⟨hx, hxs⟩ := pairwise_cons.mp h
    -- two covering segments cannot be the head and a tail element
    have hhead : ∀ y ∈ xs, S.Covers x p → ¬ S.Covers y p := by
      intro y hy hcx hcy
      simp only [Covers] at hcx hcy
      rcases hx y hy with h | h <;> omega
    rcases mem_cons.mp ha with rfl | ha' <;> rcases mem_cons.mp hb with rfl | hb'
    · rfl
    · exact absurd hcb (hhead b hb' hca)
    · exact absurd hca (hhead a ha' hcb)
    · exact ih hxs ha' hb'

lemma holds_of_lookup {g : γ} (h : S.lookup xs p = some g) : S.Holds xs p g := by
  obtain ⟨b, hf, rfl⟩ := Option.map_eq_some_iff.mp h
  obtain ⟨hb, hc⟩ := S.find_some hf
  exact ⟨b, hb, hc, rfl⟩

/-- **Agreement**: on an apart list the map and the relation coincide. -/
theorem lookup_eq_some_iff (h : S.Apart xs) {g : γ} : S.lookup xs p = some g ↔ S.Holds xs p g := by
  refine ⟨S.holds_of_lookup, ?_⟩
  rintro ⟨b, hb, hc, rfl⟩
  cases hf : S.find xs p with
  | none => exact absurd hc (S.find_none hf b hb)
  | some a =>
    obtain ⟨ha, hca⟩ := S.find_some hf
    rw [h.unique S ha hb hca hc] at hf
    simp [lookup, hf]

/-- Two apart lists with the same relation denote the same map. -/
lemma lookup_eq_of_holds (hx : S.Apart xs) (hy : S.Apart ys)
    (h : ∀ g, S.Holds xs p g ↔ S.Holds ys p g) : S.lookup xs p = S.lookup ys p := by
  refine Option.ext fun g => ?_
  rw [S.lookup_eq_some_iff hx, S.lookup_eq_some_iff hy, h]

lemma lookup_eq_none_iff : S.lookup xs p = none ↔ ∀ b ∈ xs, ¬ S.Covers b p := by
  simp [lookup, find]

lemma holds_perm (hp : xs.Perm ys) (p : Nat) (g : γ) : S.Holds xs p g ↔ S.Holds ys p g := by
  constructor
  · rintro ⟨b, hb, h⟩
    exact ⟨b, hp.mem_iff.mp hb, h⟩
  · rintro ⟨b, hb, h⟩
    exact ⟨b, hp.mem_iff.mpr hb, h⟩

lemma holds_cons (b : β) (xs : List β) (p : Nat) (g : γ) :
    S.Holds (b :: xs) p g ↔ (S.Covers b p ∧ S.val b p = g) ∨ S.Holds xs p g := by
  simp [Holds]

/-- `c` is `a` and `b` put together: it covers what they cover, with their values. -/
structure Weld (a b c : β) : Prop where
  lo_eq : S.lo c = S.lo a
  mid_eq : S.hi a = S.lo b
  hi_eq : S.hi c = S.hi b
  lo_le : S.lo a ≤ S.hi a
  le_hi : S.lo b ≤ S.hi b
  val_left : ∀ p, S.Covers a p → S.val c p = S.val a p
  val_right : ∀ p, S.Covers b p → S.val c p = S.val b p

/-- **Cutting and welding** preserve the relation. -/
theorem Weld.holds {a b c : β} (h : S.Weld a b c) (xs : List β) (p : Nat) (g : γ) :
    S.Holds (a :: b :: xs) p g ↔ S.Holds (c :: xs) p g := by
  obtain ⟨h1, h2, h3, h4, h5, hl, hr⟩ := h
  rw [holds_cons, holds_cons, holds_cons, ← or_assoc]
  refine or_congr ?_ Iff.rfl
  constructor
  · rintro (⟨hc, hv⟩ | ⟨hc, hv⟩)
    · refine ⟨?_, by rw [hl p hc, hv]⟩
      simp only [Covers] at *
      omega
    · refine ⟨?_, by rw [hr p hc, hv]⟩
      simp only [Covers] at *
      omega
  rintro ⟨hc, hv⟩
  by_cases hp : p < S.hi a
  · have hca : S.Covers a p := by simp only [Covers] at *; omega
    exact .inl ⟨hca, by rw [← hl p hca, hv]⟩
  · have hcb : S.Covers b p := by simp only [Covers] at *; omega
    exact .inr ⟨hcb, by rw [← hr p hcb, hv]⟩

/-- The two parts of a segment are apart from whatever the whole is apart from. -/
lemma Weld.apart {a b c : β} (h : S.Weld a b c) (hx : S.Apart (c :: xs)) : S.Apart (a :: b :: xs) := by
  obtain ⟨h1, h2, h3, h4, h5, -, -⟩ := h
  obtain ⟨hc, hxs⟩ := pairwise_cons.mp hx
  refine pairwise_cons.mpr ⟨fun x hx => ?_, pairwise_cons.mpr ⟨fun x hx => ?_, hxs⟩⟩
  · rcases mem_cons.mp hx with rfl | hx
    · omega
    · have := hc x hx
      omega
  · have := hc x hx
    omega

end SegKind
end FermiOs.Library
