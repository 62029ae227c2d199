import Mathlib.Tactic

/-!
# Programs that transfer blocks

A program reads and writes numbered blocks of a device and computes in between. Every transfer may be
refused; a write that is refused may have reached the device or not. `run` executes a program against
the answers of an environment. `Wp` is the weakest precondition over every environment that refuses
only the transfers in a given set: a specification proved for `Wp` holds of every `run` of that kind.
-/

namespace FermiOs.Library

/-- A program over blocks of type `β` with result `α`: a block that is read arrives as an option, a
write reports whether it succeeded. -/
inductive BlockProg (β α : Type) : Type
  | ret (a : α) : BlockProg β α
  | read (n : Nat) (k : Option β → BlockProg β α) : BlockProg β α
  | write (n : Nat) (b : β) (k : Bool → BlockProg β α) : BlockProg β α

/-- A transfer, without its data. -/
inductive Transfer
  | read (n : Nat)
  | write (n : Nat)

/-- What the device answers: the transfer is done, it is refused without effect, or it is reported as
refused although the block was written. -/
inductive Answer
  | ok
  | lost
  | landed
  deriving DecidableEq

namespace BlockProg
variable {β α γ : Type}

/-- Sequencing. -/
def bind : BlockProg β α → (α → BlockProg β γ) → BlockProg β γ
  | .ret a, f => f a
  | .read n k, f => .read n fun b => (k b).bind f
  | .write n b k, f => .write n b fun ok => (k ok).bind f

/-- Execution on a device; `i` counts the transfers made so far. -/
def run (env : Nat → Transfer → Answer) : BlockProg β α → (Nat → β) → Nat → α × (Nat → β) × Nat
  | .ret a, d, i => (a, d, i)
  | .read n k, d, i =>
    match env i (.read n) with
    | .ok => run env (k (some (d n))) d (i + 1)
    | _ => run env (k none) d (i + 1)
  | .write n b k, d, i =>
    match env i (.write n) with
    | .ok => run env (k true) (Function.update d n b) (i + 1)
    | .lost => run env (k false) d (i + 1)
    | .landed => run env (k false) (Function.update d n b) (i + 1)

/-- Execution on a device that refuses nothing. -/
def exec : BlockProg β α → (Nat → β) → α × (Nat → β)
  | .ret a, d => (a, d)
  | .read n k, d => exec (k (some (d n))) d
  | .write n b k, d => exec (k true) (Function.update d n b)

/-- The weakest precondition when only the transfers in `Fails` may be refused. -/
def Wp (Fails : Transfer → Prop) : BlockProg β α → (Nat → β) → (α → (Nat → β) → Prop) → Prop
  | .ret a, d, Q => Q a d
  | .read n k, d, Q => Wp Fails (k (some (d n))) d Q ∧ (Fails (.read n) → Wp Fails (k none) d Q)
  | .write n b k, d, Q =>
    Wp Fails (k true) (Function.update d n b) Q ∧
      (Fails (.write n) → Wp Fails (k false) d Q ∧ Wp Fails (k false) (Function.update d n b) Q)

variable {Fails : Transfer → Prop} {p : BlockProg β α} {d : Nat → β}
  {Q Q' : α → (Nat → β) → Prop}

/-- **Sequencing rule.** -/
theorem wp_bind {f : α → BlockProg β γ} {Q : γ → (Nat → β) → Prop} :
    Wp Fails (p.bind f) d Q ↔ Wp Fails p d fun a d' => Wp Fails (f a) d' Q := by
  induction p generalizing d with
  | ret a => exact Iff.rfl
  | read n k ih =>
    rw [bind, Wp, Wp, ih, ih]
  | write n b k ih =>
    rw [bind, Wp, Wp, ih, ih, ih]

/-- **Consequence rule.** -/
theorem Wp.mono (h : Wp Fails p d Q) (hQ : ∀ a d', Q a d' → Q' a d') : Wp Fails p d Q' := by
  induction p generalizing d with
  | ret a => exact hQ a d h
  | read n k ih => exact ⟨ih _ h.1, fun hf => ih _ (h.2 hf)⟩
  | write n b k ih =>
    exact ⟨ih _ h.1, fun hf => ⟨ih _ (h.2 hf).1, ih _ (h.2 hf).2⟩⟩

/-- A specification holds of every run against an environment that refuses only those transfers. -/
lemma Wp.run (h : Wp Fails p d Q) {env : Nat → Transfer → Answer}
    (henv : ∀ i t, env i t ≠ .ok → Fails t) (i : Nat) :
    Q (run env p d i).1 (run env p d i).2.1 := by
  induction p generalizing d i with
  | ret a => exact h
  | read n k ih =>
    have hne := henv i (.read n)
    rw [BlockProg.run]
    cases ha : env i (.read n) with
    | ok => exact ih _ h.1 (i + 1)
    | lost => exact ih _ (h.2 (hne (by rw [ha]; exact Answer.noConfusion))) (i + 1)
    | landed => exact ih _ (h.2 (hne (by rw [ha]; exact Answer.noConfusion))) (i + 1)
  | write n b k ih =>
    have hne := henv i (.write n)
    rw [BlockProg.run]
    cases ha : env i (.write n) with
    | ok => exact ih _ h.1 (i + 1)
    | lost => exact ih _ (h.2 (hne (by rw [ha]; exact Answer.noConfusion))).1 (i + 1)
    | landed => exact ih _ (h.2 (hne (by rw [ha]; exact Answer.noConfusion))).2 (i + 1)

/-- With nothing refused the precondition is about the one execution. -/
lemma wp_exec : Wp (fun _ => False) p d Q ↔ Q (exec p d).1 (exec p d).2 := by
  induction p generalizing d with
  | ret a => exact Iff.rfl
  | read n k ih =>
    rw [Wp, exec, ← ih]
    exact and_iff_left fun hf => hf.elim
  | write n b k ih =>
    rw [Wp, exec, ← ih]
    exact and_iff_left fun hf => hf.elim

/-- A program without writes. -/
def ReadOnly : BlockProg β α → Prop
  | .ret _ => True
  | .read _ k => ∀ b, ReadOnly (k b)
  | .write _ _ _ => False

lemma ReadOnly.bind {f : α → BlockProg β γ} (h : p.ReadOnly) (hf : ∀ a, (f a).ReadOnly) :
    (p.bind f).ReadOnly := by
  induction p with
  | ret a => exact hf a
  | read n k ih => exact fun b => ih b (h b)
  | write n b k ih => exact h.elim

/-- Without writes the device stays as it is. -/
lemma ReadOnly.wp (h : p.ReadOnly) : Wp Fails p d fun _ d' => d' = d := by
  induction p with
  | ret a => rfl
  | read n k ih => exact ⟨ih _ (h _), fun _ => ih _ (h _)⟩
  | write n b k ih => exact h.elim

lemma exec_bind (f : α → BlockProg β γ) : exec (p.bind f) d = exec (f (exec p d).1) (exec p d).2 := by
  induction p generalizing d with
  | ret a => rfl
  | read n k ih => exact ih _
  | write n b k ih => exact ih _

end BlockProg
end FermiOs.Library
