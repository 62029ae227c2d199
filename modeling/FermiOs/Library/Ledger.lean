import Mathlib.Tactic

/-!
# Resource ledgers

A ledger is a list of resources together with the set of resources that are currently handed out:
no resource is listed twice and every listed resource is handed out. Operations are described with
an arbitrary rest of the list, so that the rules compose: taking fresh resources puts them in front,
giving back the resources in front removes them, and forgetting some of them is always allowed.
-/

namespace FermiOs.Library
open List

universe u

variable {ρ : Type u} {xs ys : List ρ}

/-- The resources `xs` are listed once each and are all handed out. -/
def Ledger (out : ρ → Prop) (xs : List ρ) : Prop :=
  xs.Nodup ∧ ∀ x ∈ xs, out x

/-- `out'` is `out` with the fresh resources `xs` handed out on top. -/
structure Taken (out out' : ρ → Prop) (xs : List ρ) : Prop where
  nodup : xs.Nodup
  fresh : ∀ x ∈ xs, ¬ out x
  iff : ∀ x, out' x ↔ x ∈ xs ∨ out x

/-- `out'` is `out` with the resources `xs` given back. -/
def Given (out out' : ρ → Prop) (xs : List ρ) : Prop :=
  ∀ x, out' x ↔ out x ∧ x ∉ xs

lemma ledger_nil (out : ρ → Prop) : Ledger out [] := by
  simp [Ledger]

lemma Ledger.perm {out : ρ → Prop} (h : Ledger out xs) (hp : xs.Perm ys) : Ledger out ys :=
  ⟨hp.nodup_iff.mp h.1, fun x hx => h.2 x (hp.mem_iff.mpr hx)⟩

/-- Resources may be forgotten: a sublist of a ledger is a ledger. -/
lemma Ledger.sublist {out : ρ → Prop} (h : Ledger out xs) (hs : ys.Sublist xs) : Ledger out ys :=
  ⟨h.1.sublist hs, fun x hx => h.2 x (hs.subset hx)⟩

lemma Ledger.drop_front {out : ρ → Prop} (h : Ledger out (xs ++ ys)) : Ledger out ys :=
  h.sublist (sublist_append_right xs ys)

/-- **Taking**: fresh resources go in front of any ledger. -/
theorem Ledger.take {out out' : ρ → Prop} (h : Ledger out ys) (ht : Taken out out' xs) :
    Ledger out' (xs ++ ys) := by
  refine ⟨nodup_append.mpr ⟨ht.nodup, h.1, ?_⟩, ?_⟩
  · intro a ha b hb hab
    subst hab
    exact ht.fresh a ha (h.2 a hb)
  · intro x hx
    rcases mem_append.mp hx with hx | hx
    · exact (ht.iff x).mpr (.inl hx)
    · exact (ht.iff x).mpr (.inr (h.2 x hx))

/-- **Giving back**: the resources in front leave the ledger. -/
theorem Ledger.give {out out' : ρ → Prop} (h : Ledger out (xs ++ ys)) (hg : Given out out' xs) :
    Ledger out' ys := by
  obtain ⟨hn, ho⟩ := h
  obtain ⟨-, hy, hd⟩ := nodup_append.mp hn
  refine ⟨hy, fun x hx => (hg x).mpr ⟨ho x (mem_append_right xs hx), fun hxs => ?_⟩⟩
  exact hd x hxs x hx rfl

/-- Resources listed in two different parts of a ledger differ. -/
lemma Ledger.ne_of_append {out : ρ → Prop} (h : Ledger out (xs ++ ys)) {x y : ρ} (hx : x ∈ xs)
    (hy : y ∈ ys) : x ≠ y :=
  (nodup_append.mp h.1).2.2 x hx y hy

lemma taken_nil (out : ρ → Prop) : Taken out out [] :=
  ⟨nodup_nil, by simp, by simp⟩

lemma Taken.trans {out out' out'' : ρ → Prop} (h : Taken out out' xs) (h' : Taken out' out'' ys) :
    Taken out out'' (ys ++ xs) := by
  refine ⟨nodup_append.mpr ⟨h'.nodup, h.nodup, ?_⟩, ?_, ?_⟩
  · intro a ha b hb hab
    subst hab
    exact h'.fresh a ha ((h.iff a).mpr (.inl hb))
  · intro x hx
    rcases mem_append.mp hx with hx | hx
    · exact fun ho => h'.fresh x hx ((h.iff x).mpr (.inr ho))
    · exact h.fresh x hx
  · intro x
    rw [h'.iff, h.iff, mem_append, or_assoc]

lemma Taken.perm {out out' : ρ → Prop} (h : Taken out out' xs) (hp : xs.Perm ys) : Taken out out' ys :=
  ⟨hp.nodup_iff.mp h.nodup, fun x hx => h.fresh x (hp.mem_iff.mpr hx),
    fun x => (h.iff x).trans (or_congr_left hp.mem_iff)⟩

/-- Giving back some of what was taken leaves the rest taken. -/
lemma Taken.give {out out' out'' : ρ → Prop} (h : Taken out out' (xs ++ ys))
    (hg : Given out' out'' xs) : Taken out out'' ys := by
  obtain ⟨-, hy, hd⟩ := nodup_append.mp h.nodup
  refine ⟨hy, fun x hx => h.fresh x (mem_append_right xs hx), fun x => ?_⟩
  rw [hg x, h.iff x, mem_append]
  constructor
  · rintro ⟨(hx | hx) | hx, hn⟩
    · exact absurd hx hn
    · exact .inl hx
    · exact .inr hx
  · rintro (hx | hx)
    · exact ⟨.inl (.inr hx), fun hxs => hd x hxs x hx rfl⟩
    · exact ⟨.inr hx, fun hxs => h.fresh x (mem_append_left ys hxs) hx⟩

lemma given_nil (out : ρ → Prop) : Given out out [] := by
  intro x
  simp

lemma Given.trans {out out' out'' : ρ → Prop} (h : Given out out' xs) (h' : Given out' out'' ys) :
    Given out out'' (xs ++ ys) := by
  intro x
  rw [h' x, h x, mem_append, not_or, and_assoc]

end FermiOs.Library
