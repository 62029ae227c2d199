import Mathlib.Tactic

/-!
# Linked lists and rings

Cells are addresses and `next` gives the successor of a cell. `Path next p ps q` says that following
`next` from `p` visits exactly the cells `ps` and then stands at `q`. A chain is a path to a null
address, a ring a path back to its start. The loops that code runs over such structures, a search and
a sweep, are given with a bound on the number of rounds, and a path of that length or less tells what
they compute.
-/

namespace FermiOs.Library
open List Function

universe u v

variable {α : Type u} {σ : Type v} {n : Nat} {xs : List α} {ys : List σ}

/-- Following `next` from `p` visits `ps` and ends at `q`. -/
def Path (next : α → α) : α → List α → α → Prop
  | p, [], q => p = q
  | p, x :: xs, q => p = x ∧ Path next (next x) xs q

variable {after before ps : List α}

namespace Path
variable {next next' : α → α} {p q r x : α} {qs : List α}

@[simp] lemma nil_iff : Path next p [] q ↔ p = q := Iff.rfl

@[simp] lemma cons_iff : Path next p (x :: ps) q ↔ p = x ∧ Path next (next x) ps q := Iff.rfl

lemma append_iff : Path next p (ps ++ qs) q ↔ ∃ r, Path next p ps r ∧ Path next r qs q := by
  induction ps generalizing p with
  | nil => simp
  | cons x xs ih => simp [ih, and_assoc]

lemma append (h : Path next p ps r) (h' : Path next r qs q) : Path next p (ps ++ qs) q :=
  append_iff.mpr ⟨r, h, h'⟩

/-- A path depends on the links of its own cells only. -/
lemma congr (h : Path next p ps q) (hnext : ∀ x ∈ ps, next' x = next x) : Path next' p ps q := by
  induction ps generalizing p with
  | nil => exact h
  | cons x xs ih =>
    obtain ⟨rfl, htail⟩ := h
    refine ⟨rfl, ?_⟩
    rw [hnext p mem_cons_self]
    exact ih htail fun y hy => hnext y (mem_cons_of_mem p hy)

/-- Relinking a cell off the path does not change it. -/
lemma update [DecidableEq α] (h : Path next p ps q) (hx : x ∉ ps) : Path (update next x r) p ps q :=
  h.congr fun y hy => update_of_ne (fun he : y = x => hx (he ▸ hy)) r next

/-- The last cell of a path links to its end. -/
lemma next_last (h : Path next p (ps ++ [x]) q) : next x = q := by
  obtain ⟨r, -, -, hq⟩ := append_iff.mp h
  exact hq

/-- Relinking the last cell moves the end of the path. -/
lemma update_last [DecidableEq α] (h : Path next p (ps ++ [x]) q) (hx : x ∉ ps) :
    Path (Function.update next x r) p (ps ++ [x]) r := by
  obtain ⟨m, hps, hm, -⟩ := append_iff.mp h
  refine (hps.update hx).append ⟨hm, ?_⟩
  simp

/-- A ring can be entered at any of its cells. -/
lemma rotate (h : Path next p (ps ++ x :: qs) p) : Path next x (x :: qs ++ ps) x := by
  obtain ⟨r, hps, rfl, hqs⟩ := append_iff.mp h
  exact ⟨rfl, hqs.append hps⟩

/-- The cells of a path are those reached from its start. -/
lemma iterate_mem (h : Path next p ps q) (hn : n < ps.length) : next^[n] p ∈ ps := by
  induction ps generalizing p n with
  | nil => exact absurd hn (Nat.not_lt_zero n)
  | cons x xs ih =>
    obtain ⟨rfl, htail⟩ := h
    cases n with
    | zero => exact mem_cons_self
    | succ n =>
      rw [Function.iterate_succ_apply]
      exact mem_cons_of_mem _ (ih htail (Nat.lt_of_succ_lt_succ hn))

lemma iterate_length (h : Path next p ps q) : next^[ps.length] p = q := by
  induction ps generalizing p with
  | nil => exact h
  | cons x xs ih =>
    obtain ⟨rfl, htail⟩ := h
    exact ih htail

/-- Following the links of a ring never leaves it. -/
lemma ring_iterate_mem (h : Path next p ps p) (hne : ps ≠ []) (n : Nat) : next^[n] p ∈ ps := by
  induction n using Nat.strongRecOn with
  | _ n ih =>
    by_cases hn : n < ps.length
    · exact h.iterate_mem hn
    · -- one round of the ring brings the walk back to its start
      have hsplit : n = (n - ps.length) + ps.length := by omega
      rw [hsplit, Function.iterate_add_apply, h.iterate_length]
      exact ih _ (by have := length_pos_iff.mpr hne; omega)

/-- The successor of a cell is a cell or the end. -/
lemma next_mem (h : Path next p ps q) (hx : x ∈ ps) : next x ∈ ps ∨ next x = q := by
  induction ps generalizing p with
  | nil => exact absurd hx not_mem_nil
  | cons y ys ih =>
    obtain ⟨rfl, htail⟩ := h
    rcases mem_cons.mp hx with rfl | hmem
    · cases ys with
      | nil => exact .inr htail
      | cons z zs => exact .inl (mem_cons_of_mem _ (mem_cons.mpr (.inl htail.1)))
    · rcases ih htail hmem with hin | hend
      · exact .inl (mem_cons_of_mem _ hin)
      · exact .inr hend

section
variable (stop : α → Prop) {q' : α}

/-- Two paths that end at a stop and pass none are the same. -/
lemma unique_of_stop (h : Path next p ps q) (h' : Path next p qs q') (hq : stop q) (hq' : stop q')
    (hps : ∀ x ∈ ps, ¬ stop x) (hqs : ∀ x ∈ qs, ¬ stop x) : ps = qs := by
  induction ps generalizing p qs with
  | nil =>
    cases qs with
    | nil => rfl
    | cons y ys =>
      obtain ⟨rfl, -⟩ := h'
      subst h
      exact absurd hq (hqs p mem_cons_self)
  | cons x xs ih =>
    obtain ⟨rfl, htail⟩ := h
    cases qs with
    | nil =>
      subst h'
      exact absurd hq' (hps p mem_cons_self)
    | cons y ys =>
      obtain ⟨rfl, htail'⟩ := h'
      rw [ih htail htail' (fun z hz => hps z (mem_cons_of_mem _ hz))
        (fun z hz => hqs z (mem_cons_of_mem _ hz))]

/-- A path that ends at a stop and passes none visits no cell twice. -/
lemma nodup_of_stop (h : Path next p ps q) (hq : stop q) (hps : ∀ x ∈ ps, ¬ stop x) : ps.Nodup := by
  induction ps generalizing p with
  | nil => exact nodup_nil
  | cons x xs ih =>
    obtain ⟨rfl, htail⟩ := h
    refine nodup_cons.mpr ⟨fun hmem => ?_, ih htail fun z hz => hps z (mem_cons_of_mem _ hz)⟩
    -- from a second visit on, the path would be as long as the whole
    obtain ⟨as, bs, rfl⟩ := append_of_mem hmem
    obtain ⟨r, -, rfl, hbs⟩ := append_iff.mp htail
    have hshort : Path next r (r :: bs) q := ⟨rfl, hbs⟩
    have hlong : Path next r (r :: (as ++ r :: bs)) q := ⟨rfl, htail⟩
    have heq := hshort.unique_of_stop stop hlong hq hq
      (fun z hz => hps z (mem_cons_of_mem _ (mem_append_right _ hz))) hps
    have hlen := congrArg length heq
    simp only [length_cons, length_append] at hlen
    omega

end
end Path

/-! ## Loops over links -/

/-- `while (!test(p)) p = p->next`, for at most the given number of rounds. -/
def walk (next : α → α) (test : α → Bool) : Nat → α → α
  | 0, p => p
  | n + 1, p => if test p then p else walk next test n (next p)

/-- The search stops at the first cell of the path that passes the test, or at its end. -/
lemma walk_eq_find {next : α → α} {test : α → Bool} {p q : α} (h : Path next p ps q)
    (hq : test q = true) (hn : ps.length ≤ n) :
    walk next test n p = (ps.find? test).getD q := by
  induction ps generalizing p n with
  | nil =>
    obtain rfl : p = q := h
    cases n <;> simp [walk, hq]
  | cons x xs ih =>
    obtain ⟨rfl, htail⟩ := h
    cases n with
    | zero => exact absurd hn (Nat.not_succ_le_zero _)
    | succ n =>
      rw [walk, find?_cons]
      cases htest : test p with
      | true => simp
      | false => simpa using ih htail (Nat.le_of_succ_le_succ hn)

/-- In a ring only the last cell links to the first. -/
lemma Path.next_ne_first {next : α → α} {p l : α} (h : Path next p (ps ++ [l]) p)
    (hnd : (ps ++ [l]).Nodup) {y : α} (hy : y ∈ ps) :
    next y ≠ p := by
  intro hyp
  obtain ⟨a, b, rfl⟩ := append_of_mem hy
  rw [append_assoc, cons_append] at h hnd
  obtain ⟨r, ha, rfl, hb⟩ := append_iff.mp h
  -- the successor of the cell is the first cell of what follows, and the first cell of the ring
  obtain ⟨z, zs, hz⟩ : ∃ z zs, b ++ [l] = z :: zs := by
    cases b with
    | nil => exact ⟨l, [], rfl⟩
    | cons z zs => exact ⟨z, zs ++ [l], rfl⟩
  rw [hz] at hb hnd
  have hzp : z = p := hb.1.symm.trans hyp
  subst hzp
  cases a with
  | nil =>
    obtain rfl : z = r := ha
    simp at hnd
  | cons w ws =>
    obtain ⟨rfl, -⟩ := ha
    simp at hnd

/-- `q = p; while (q->next != p) q = q->next` finds the last cell of the ring. -/
lemma walk_predecessor [DecidableEq α] {next : α → α} {p l : α} (h : Path next p (ps ++ [l]) p)
    (hnd : (ps ++ [l]).Nodup) (hn : ps.length ≤ n) :
    walk next (fun q => decide (next q = p)) n p = l := by
  obtain ⟨r, hps, rfl, hl⟩ := Path.append_iff.mp h
  have hnone : ps.find? (fun q => decide (next q = p)) = none := by
    rw [find?_eq_none]
    intro y hy
    simpa using h.next_ne_first hnd hy
  rw [walk_eq_find hps (by simpa using hl) hn, hnone]
  rfl

/-- Linking the last cell of a ring past the first takes the first out. -/
lemma Path.unlink [DecidableEq α] {next : α → α} {p l : α} (h : Path next p (p :: (ps ++ [l])) p)
    (hnd : (ps ++ [l]).Nodup) :
    Path (Function.update next l (next p)) (next p) (ps ++ [l]) (next p) :=
  h.2.update_last fun hm => (nodup_append.mp hnd).2.2 l hm l (mem_singleton_self l) rfl

/-- A ring read from one of its cells. -/
lemma Path.ring_at {next : α → α} {p x : α} (h : Path next p ps p) (hx : x ∈ ps) :
    ∃ others, Path next x (x :: others) x ∧ (x :: others).Perm ps := by
  obtain ⟨a, b, rfl⟩ := append_of_mem hx
  exact ⟨b ++ a, h.rotate, (perm_middle.trans (perm_append_comm.cons x)).symm⟩

/-- `for (; !stop(p); p = p->next) body(p)`, for at most the given number of rounds. -/
def sweep (next : α → α) (stop : α → Bool) (body : σ → α → σ) : Nat → α → σ → σ
  | 0, _, s => s
  | n + 1, p, s => if stop p then s else sweep next stop body n (next p) (body s p)

lemma sweep_eq_foldl {next : α → α} {stop : α → Bool} {p q : α} {body : σ → α → σ} {s : σ}
    (h : Path next p ps q) (hq : stop q = true) (hps : ∀ x ∈ ps, stop x = false)
    (hn : ps.length ≤ n) :
    sweep next stop body n p s = ps.foldl body s := by
  induction ps generalizing p n s with
  | nil =>
    obtain rfl : p = q := h
    cases n <;> simp [sweep, hq]
  | cons x xs ih =>
    obtain ⟨rfl, htail⟩ := h
    rw [forall_mem_cons] at hps
    cases n with
    | zero => exact absurd hn (Nat.not_succ_le_zero _)
    | succ n =>
      rw [sweep, hps.1, foldl_cons]
      exact ih htail hps.2 (Nat.le_of_succ_le_succ hn)

/-- Rewriting the contents of the cells of a list one by one. -/
lemma foldl_update_apply [DecidableEq α] (f : σ → σ) (ps : List α) (g : α → σ)
    (hnd : ps.Nodup) (x : α) :
    ps.foldl (fun g p => update g p (f (g p))) g x = if x ∈ ps then f (g x) else g x := by
  induction ps generalizing g with
  | nil => rfl
  | cons p ps ih =>
    obtain ⟨hp, hnd⟩ := nodup_cons.mp hnd
    rw [foldl_cons, ih _ hnd]
    by_cases hx : x = p
    · subst hx
      simp [hp]
    · simp [hx]

/-! ## Taking a cell out of a list -/

/-- The first element that passes the test, with the elements before and after it. -/
def cut (test : α → Bool) : List α → Option (List α × α × List α)
  | [] => none
  | x :: xs => if test x then some ([], x, xs) else (cut test xs).map fun c => (x :: c.1, c.2)

lemma cut_eq_some {test : α → Bool} {x : α} (h : cut test xs = some (before, x, after)) :
    xs = before ++ x :: after ∧ test x = true ∧ ∀ y ∈ before, test y = false := by
  induction xs generalizing before with
  | nil => cases h
  | cons y ys ih =>
    rw [cut] at h
    split_ifs at h with htest
    · cases h
      exact ⟨rfl, htest, by simp⟩
    obtain ⟨⟨before', x', after'⟩, hc, he⟩ := Option.map_eq_some_iff.mp h
    cases he
    obtain ⟨rfl, hx, hbefore⟩ := ih hc
    exact ⟨rfl, hx, forall_mem_cons.mpr ⟨Bool.eq_false_iff.mpr htest, hbefore⟩⟩

lemma cut_eq_none {test : α → Bool} : cut test xs = none ↔ ∀ x ∈ xs, test x = false := by
  induction xs with
  | nil => simp [cut]
  | cons y ys ih =>
    rw [cut]
    split_ifs with htest
    · simp [htest]
    · simp [ih, htest]

/-- A list with exactly one element that passes the test is cut there. -/
lemma cut_append {test : α → Bool} {x : α} (hbefore : ∀ y ∈ before, test y = false)
    (hx : test x = true) :
    cut test (before ++ x :: after) = some (before, x, after) := by
  induction before with
  | nil => simp [cut, hx]
  | cons y ys ih =>
    rw [forall_mem_cons] at hbefore
    simp [cut, hbefore.1, ih hbefore.2]

lemma cut_congr {test test' : α → Bool} (h : ∀ x ∈ xs, test x = test' x) :
    cut test xs = cut test' xs := by
  induction xs with
  | nil => rfl
  | cons x xs ih =>
    rw [forall_mem_cons] at h
    rw [cut, cut, h.1, ih h.2]

/-- Cutting the contents of a list of cells is cutting the cells. -/
lemma cut_map (f : α → σ) (test : σ → Bool) (xs : List α) : cut test (xs.map f) =
      (cut (test ∘ f) xs).map fun c => (c.1.map f, f c.2.1, c.2.2.map f) := by
  induction xs with
  | nil => rfl
  | cons x xs ih =>
    rw [map_cons, cut, cut, ih]
    cases htest : test (f x) <;> simp [htest, Function.comp_def]

lemma any_congr_mem {test test' : α → Bool} (h : ∀ x ∈ xs, test x = test' x) :
    xs.any test = xs.any test' := by
  rw [Bool.eq_iff_iff, any_eq_true, any_eq_true]
  exact exists_congr fun x => and_congr_right fun hx => by rw [h x hx]

lemma exists_left_of_forall₂ {R : α → σ → Prop} (h : Forall₂ R xs ys) {y : σ} (hy : y ∈ ys) :
    ∃ x ∈ xs, R x y := by
  induction h with
  | nil => cases hy
  | cons hab _ ih =>
    rcases mem_cons.mp hy with rfl | hy
    · exact ⟨_, mem_cons_self, hab⟩
    · obtain ⟨x, hx, hR⟩ := ih hy
      exact ⟨x, mem_cons_of_mem _ hx, hR⟩

lemma exists_right_of_forall₂ {R : α → σ → Prop} (h : Forall₂ R xs ys) {x : α} (hx : x ∈ xs) :
    ∃ y ∈ ys, R x y :=
  exists_left_of_forall₂ h.flip hx

/-- A pairwise relation may be weakened with the membership of the right-hand element. -/
lemma forall₂_imp_mem {R S : α → σ → Prop} (h : Forall₂ R xs ys)
    (himp : ∀ x, ∀ y ∈ ys, R x y → S x y) : Forall₂ S xs ys := by
  induction h with
  | nil => exact .nil
  | cons hab _ ih =>
    refine .cons (himp _ _ mem_cons_self hab) (ih fun x y hy => ?_)
    exact himp x y (mem_cons_of_mem _ hy)

end FermiOs.Library
