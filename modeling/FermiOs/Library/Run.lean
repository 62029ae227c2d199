import Mathlib.Tactic

/-!
# Guarded runs of a transition function

A run applies a total step function to inputs of the environment's choice. The guard restricts
which inputs are taken in which states; a guard that always holds gives plain reachability. Every
invariant of the development is proved through `Reach.invariant`: it holds initially and a guarded
step keeps it, so it holds in every state a guarded run reaches.
-/

namespace FermiOs.Library

universe u v

variable {σ : Type u} {α : Type v}

/-- States reached from an initial state by steps that meet the guard. -/
inductive Reach (init : σ → Prop) (guard : σ → α → Prop) (step : σ → α → σ) : σ → Prop
  | start {s : σ} : init s → Reach init guard step s
  | next {s : σ} {a : α} :
      Reach init guard step s → guard s a → Reach init guard step (step s a)

/-- **Invariant rule.** -/
theorem Reach.invariant {init : σ → Prop} {guard : σ → α → Prop} {step : σ → α → σ}
    (inv : σ → Prop) (h0 : ∀ s, init s → inv s)
    (hstep : ∀ s a, inv s → guard s a → inv (step s a)) {s : σ}
    (h : Reach init guard step s) : inv s := by
  induction h with
  | start hi => exact h0 _ hi
  | next _ hg ih => exact hstep _ _ ih hg

/-- Without a guard, every list of inputs is a run. -/
lemma Reach.foldl {init : σ → Prop} {step : σ → α → σ} {s : σ}
    (h : Reach init (fun _ _ => True) step s) (as : List α) :
    Reach init (fun _ _ => True) step (as.foldl step s) := by
  induction as generalizing s with
  | nil => exact h
  | cons a as ih => exact ih (.next h trivial)

/-- Every input of a run meets the guard in the state it is taken in. -/
def Obeys (guard : σ → α → Prop) (step : σ → α → σ) : σ → List α → Prop
  | _, [] => True
  | s, a :: as => guard s a ∧ Obeys guard step (step s a) as

instance Obeys.decidable {guard : σ → α → Prop} [∀ s a, Decidable (guard s a)] {step : σ → α → σ} :
    (s : σ) → (as : List α) → Decidable (Obeys guard step s as)
  | _, [] => inferInstanceAs (Decidable True)
  | s, a :: as =>
    haveI : Decidable (Obeys guard step (step s a) as) := Obeys.decidable (step s a) as
    inferInstanceAs (Decidable (guard s a ∧ Obeys guard step (step s a) as))

/-- Guards that look into an option, decided by a boolean test so that runs can be evaluated. -/
instance (priority := 2000) decidableForallMem (p : α → Prop) [DecidablePred p] (o : Option α) :
    Decidable (∀ x ∈ o, p x) :=
  decidable_of_iff (o.all (fun x => decide (p x)) = true) (by cases o <;> simp)

/-- A run that obeys the guard stays among the reached states. -/
lemma Reach.obeys {init : σ → Prop} {guard : σ → α → Prop} {step : σ → α → σ} {s : σ}
    (h : Reach init guard step s) {as : List α} (has : Obeys guard step s as) :
    Reach init guard step (as.foldl step s) := by
  induction as generalizing s with
  | nil => exact h
  | cons a as ih => exact ih (.next h has.1) has.2

end FermiOs.Library
