import FermiOs.Sched.RingRun

/-!
# `/proc/meminfo`

`gen_meminfo` adds up the pages of all tasks, from the idle task on, until it meets a null link. The run
queue is a ring: there is no null link on it, and the loop never ends.
-/

namespace FermiOs
open Library List
variable {next : Nat → Nat}

/-- `vma_mapped_pages`. -/
def vmaMappedPages (set : VmaSet) : Nat := (set.map Vma.npages).sum

/-- `vma_resident_pages`. -/
def vmaResidentPages (set : VmaSet) : Nat := (set.map fun v => v.slots.length).sum

/-- `vma_mapped` and `vma_resident`, in pages. -/
structure VmaTotals where
  mapped : Nat
  resident : Nat
  deriving DecidableEq

/-- The pages of one more address space. -/
def VmaTotals.add (r : VmaTotals) (set : VmaSet) : VmaTotals :=
  ⟨r.mapped + vmaMappedPages set, r.resident + vmaResidentPages set⟩

namespace RawSched

/-- `for (t = sched_first_task(); t; t = t->next)`; `none` if the rounds do not suffice. -/
def meminfoLoop (m : RawSched) : Nat → Nat → VmaTotals → Option VmaTotals
  | 0, _, _ => none
  | n + 1, t, r => if t = 0 then some r else meminfoLoop m n (m.next t) (r.add (m.task t).vmas)

/-- The part of `gen_meminfo` that walks the tasks; the other figures are counters. -/
def genMeminfo (m : RawSched) (rounds : Nat) : Option VmaTotals := m.meminfoLoop rounds idlePtr ⟨0, 0⟩

/-- The record is linked from the idle task, on a way without null. -/
def OnQueue (m : RawSched) (p : Nat) : Prop :=
  ∃ n, m.next^[n] idlePtr = p ∧ ∀ k ≤ n, m.next^[k] idlePtr ≠ 0

/-- The file is generated, and its totals count every task on the run queue once. -/
def MeminfoRight (m : RawSched) : Prop :=
  ∃ (rounds : Nat) (ps : List Nat), ps.Nodup ∧ (∀ p, p ∈ ps ↔ m.OnQueue p) ∧
    m.genMeminfo rounds = some ⟨(ps.map fun p => vmaMappedPages (m.task p).vmas).sum,
      (ps.map fun p => vmaResidentPages (m.task p).vmas).sum⟩

variable {m : RawSched} {p : Nat} {ps : List Nat}

/-- A way to null, up to the first one. -/
lemma exists_path_null {n : Nat} (h : next^[n] p = 0) : ∃ ps, Path next p ps 0 ∧ 0 ∉ ps := by
  induction n generalizing p with
  | zero => exact ⟨[], h, not_mem_nil⟩
  | succ n ih =>
    by_cases hp : p = 0
    · exact ⟨[], hp, not_mem_nil⟩
    · obtain ⟨ps, hps, h0⟩ := ih h
      exact ⟨p :: ps, ⟨rfl, hps⟩, fun hm => (mem_cons.mp hm).elim (Ne.symm hp) h0⟩

/-- The cells on a way to null are those the links lead to. -/
lemma mem_path_null {s : Nat} (h : Path next s ps 0) (h0 : 0 ∉ ps) :
    p ∈ ps ↔ ∃ n, next^[n] s = p ∧ ∀ k ≤ n, next^[k] s ≠ 0 := by
  induction ps generalizing s with
  | nil =>
    obtain rfl : s = 0 := h
    exact iff_of_false not_mem_nil fun ⟨n, _, hk⟩ => hk 0 (Nat.zero_le n) rfl
  | cons x ps ih =>
    obtain ⟨rfl, htail⟩ := h
    obtain ⟨hs, h0⟩ := not_or.mp (mt mem_cons.mpr h0)
    rw [mem_cons, ih htail h0]
    constructor
    · rintro (rfl | ⟨n, hn, hk⟩)
      · exact ⟨0, rfl, fun k hk => by rw [Nat.le_zero.mp hk]; exact Ne.symm hs⟩
      · refine ⟨n + 1, hn, fun k hle => ?_⟩
        cases k with
        | zero => exact Ne.symm hs
        | succ k => exact hk k (Nat.le_of_succ_le_succ hle)
    · rintro ⟨n, hn, hk⟩
      cases n with
      | zero => exact .inl hn.symm
      | succ n => exact .inr ⟨n, hn, fun k hle => hk (k + 1) (Nat.succ_le_succ hle)⟩

/-- The loop on a way to null. -/
lemma meminfoLoop_path (h : Path m.next p ps 0) (h0 : 0 ∉ ps) (r : VmaTotals) :
    m.meminfoLoop (ps.length + 1) p r =
      some ⟨r.mapped + (ps.map fun p => vmaMappedPages (m.task p).vmas).sum,
        r.resident + (ps.map fun p => vmaResidentPages (m.task p).vmas).sum⟩ := by
  induction ps generalizing p r with
  | nil => exact if_pos h
  | cons x ps ih =>
    obtain ⟨rfl, htail⟩ := h
    obtain ⟨hp, h0⟩ := not_or.mp (mt mem_cons.mpr h0)
    rw [length_cons, meminfoLoop, if_neg (Ne.symm hp), ih htail h0]
    simp only [VmaTotals.add, map_cons, sum_cons, add_assoc]

/-- The loop without null. -/
lemma meminfoLoop_endless (h : ∀ k, m.next^[k] p ≠ 0) (n : Nat) (r : VmaTotals) :
    m.meminfoLoop n p r = none := by
  induction n generalizing p r with
  | zero => rfl
  | succ n ih =>
    have hp : p ≠ 0 := h 0
    rw [meminfoLoop, if_neg hp]
    exact ih (fun k => h (k + 1)) _

/-- No link of the run queue is null. -/
lemma Reachable.queue_endless (h : m.Reachable) (k : Nat) : m.next^[k] idlePtr ≠ 0 := by
  obtain ⟨ring, dead, hcycle, hidle, -, -, hnull, -⟩ := run_queue_invariant h
  obtain ⟨others, hring, hperm⟩ := hcycle.ring_at hidle
  have hmem := hperm.mem_iff.mp (hring.ring_iterate_mem (cons_ne_nil _ _) k)
  intro h0
  exact hnull (mem_append_left _ (h0 ▸ hmem))

/-- **`/proc/meminfo` is generated, with the right totals, exactly if the links lead to null**; they do
so in no reachable state. -/
theorem meminfo_right_iff (m : RawSched) : (m.MeminfoRight ↔ ∃ n, m.next^[n] idlePtr = 0) ∧
      (m.Reachable → ∀ rounds, m.genMeminfo rounds = none) := by
  refine ⟨⟨?_, ?_⟩, fun h rounds => meminfoLoop_endless h.queue_endless rounds _⟩
  · rintro ⟨rounds, ps, -, -, hsome⟩
    by_contra hno
    rw [genMeminfo, meminfoLoop_endless (not_exists.mp hno)] at hsome
    cases hsome
  · rintro ⟨n, hn⟩
    obtain ⟨ps, hps, h0⟩ := exists_path_null hn
    refine ⟨ps.length + 1, ps, ?_, fun p => mem_path_null hps h0, ?_⟩
    · exact hps.nodup_of_stop (· = 0) rfl fun x hx hx0 => h0 (hx0 ▸ hx)
    · rw [genMeminfo, meminfoLoop_path hps h0, zero_add, zero_add]

/-- Right after boot, with the idle task alone, no number of rounds suffices. -/
theorem meminfo_endless_at_boot : boot.Reachable ∧ ∀ rounds, boot.genMeminfo rounds = none :=
  ⟨.start rfl, fun rounds => meminfoLoop_endless (Reachable.queue_endless (.start rfl)) rounds _⟩

end RawSched
end FermiOs
