import FermiOs.System.Step

/-!
# The table in the register

`context_switch` loads `TTBR0_EL1` only when the next task has a user table. While a kernel task runs,
the register keeps the table of the user task that ran last, and nothing stops that task from being
freed. The table in the register is allocated in every run in which no task is freed while the register
holds its root.
-/

namespace FermiOs.Sys
open Library List

/-- The root in the register and every table page below it are allocated. -/
def RootAllocated (s : Sys) : Prop :=
  ∀ x ∈ s.k.tablePages (ttbrBaddr s.ttbr0), s.k.pmm.Allocated x

/-- The tasks a step frees. -/
def freed (s : Sys) : SysOp → List Task
  | .call c =>
    match userCall s.k s.queue.cur c with
    | (false, _, _) => []
    | (true, t, k) => ((s.resume t k).queue.taskExit (-1)).2
  | .exit code => (s.queue.taskExit code).2
  | .kill pid => (s.queue.killTask pid).2.2
  | .waitpid pidArg options => (s.queue.waitpid pidArg options).1.freed
  | .yield => s.queue.schedule.2
  | .sleep ms => (s.queue.sleepMs s.ticks ms).2
  | .reap => s.queue.reap.2
  | _ => []

/-- No task is freed while the register holds the root of its table. -/
def RootSpared (s : Sys) (a : List Grant × SysOp) : Prop :=
  ∀ t ∈ (s.answering a.1).freed a.2, t.ttbr0 ≠ 0 → t.l0 ≠ ttbrBaddr s.ttbr0

/-- The register holds the boot tables or the table of a task that exists. -/
def Rooted (b : Nat) (s : Sys) : Prop :=
  ttbrBaddr s.ttbr0 = b ∨ ∃ t ∈ s.queue.all, t.ttbr0 ≠ 0 ∧ t.l0 = ttbrBaddr s.ttbr0

variable {b : Nat} {s : Sys}

lemma Owned.rootAllocated (h : s.Owned b) (hr : s.Rooted b) : s.RootAllocated := by
  rcases hr with hb | ⟨t, ht, h0, hl0⟩
  · intro x hx
    rw [hb] at hx
    exact h.mem_allocated (mem_append_left _ hx)
  intro x hx
  rw [← hl0] at hx
  refine h.mem_allocated (mem_append_right _ (mem_flatMap.mpr ⟨t, ht, ?_⟩))
  refine mem_append_right _ (mem_append_right _ ?_)
  rw [if_neg h0]
  exact hx

section
variable (h : s.Rooted b)
include h

lemma Rooted.enroll (r : Option Task × Kernel) : (s.enroll r).Rooted b := by
  rcases r with ⟨_ | t, k⟩
  · exact h
  · refine h.imp id fun ⟨u, hu, hrest⟩ => ⟨u, ?_, hrest⟩
    exact (s.queue.insert_all t).mem_iff.mpr (mem_cons_of_mem _ hu)

/-- The current task keeps its table, or brings a new one into the register. -/
lemma Rooted.resume {t' : Task} (k' : Kernel) (huser : t'.ttbr0 ≠ 0) : (s.resume t' k').Rooted b := by
  unfold Rooted Sys.resume
  split_ifs with heq
  · refine h.imp id fun ⟨u, hu, h0, hl0⟩ => ?_
    rcases mem_cons.mp hu with rfl | hu
    · exact ⟨t', mem_cons_self, huser, by rw [Task.l0, heq]; exact hl0⟩
    · exact ⟨u, mem_cons_of_mem _ hu, h0, hl0⟩
  · exact .inr ⟨t', mem_cons_self, huser, rfl⟩

/-- The scheduler spares the owner of the table in the register. -/
lemma Rooted.shuffle {q : Queue} {freed : List Task} (hs : s.queue.Shuffles q freed)
    (hspare : ∀ t ∈ freed, t.ttbr0 ≠ 0 → t.l0 ≠ ttbrBaddr s.ttbr0) :
    ttbrBaddr s.ttbr0 = b ∨ ∃ t ∈ q.all, t.ttbr0 ≠ 0 ∧ t.l0 = ttbrBaddr s.ttbr0 := by
  refine h.imp id fun ⟨t, ht, hne, hl0⟩ => ?_
  obtain ⟨t', ht', hcore⟩ := mem_map.mp (hs.mem_iff.mpr (mem_map_of_mem ht))
  have httbr : t'.ttbr0 = t.ttbr0 := Task.ttbr0_of_core hcore
  have hl0' : t'.l0 = ttbrBaddr s.ttbr0 := by
    rw [Task.l0, httbr]
    exact hl0
  rcases mem_append.mp ht' with hm | hm
  · exact ⟨t', hm, httbr ▸ hne, hl0'⟩
  · exact absurd hl0' (hspare t' hm (httbr ▸ hne))

lemma Rooted.settle {q : Queue} {freed : List Task} (hs : s.queue.Shuffles q freed)
    (hspare : ∀ t ∈ freed, t.ttbr0 ≠ 0 → t.l0 ≠ ttbrBaddr s.ttbr0) : (s.settle q freed).Rooted b := by
  unfold Rooted Sys.settle
  split_ifs with h0
  · exact h.shuffle hs hspare
  · exact .inr ⟨q.cur, mem_append_left _ mem_cons_self, h0, rfl⟩

lemma Rooted.act (ho : s.Owned b) {op : SysOp} (ha : s.Allowed op)
    (hspare : ∀ t ∈ s.freed op, t.ttbr0 ≠ 0 → t.l0 ≠ ttbrBaddr s.ttbr0) : (s.act op).Rooted b := by
  cases op with
  | create entryOk => exact h.enroll _
  | createKernel => exact h.enroll _
  | call c =>
    rcases hr : userCall s.k s.queue.cur c with ⟨o, t, k⟩
    have heff := call_effect (ho.ok _ mem_cons_self) ha (ho.root_ne ha) hr
    have hres := h.resume k (heff.user ha)
    rw [Sys.act, hr]
    cases o with
    | false => exact hres
    | true =>
      -- the register is as it was: a task that is killed has not switched its image
      have hreg : (s.resume t k).ttbr0 = s.ttbr0 := by
        rw [userCall_killed hr]
        exact if_pos rfl
      rw [Sys.freed, hr, ← hreg] at hspare
      exact hres.settle ((s.resume t k).queue.taskExit_shuffles (-1)) hspare
  | fork => exact h.enroll _
  | exit code => exact h.settle (s.queue.taskExit_shuffles code) hspare
  | kill pid => exact h.settle (s.queue.killTask_shuffles pid) hspare
  | waitpid pidArg options => exact h.settle (s.queue.waitpid_shuffles pidArg options) hspare
  | yield => exact h.settle s.queue.schedule_shuffles hspare
  | sleep ms => exact h.settle (s.queue.sleepMs_shuffles s.ticks ms) hspare
  | tick => exact h.shuffle (s.queue.wakeSleepers_shuffles (s.ticks + 1)) hspare
  | reap => exact h.settle s.queue.reap_reapedTo.shuffles hspare

end

/-- **The table in the register is allocated** in every run that frees no task whose table the register
holds. -/
theorem root_allocated_in_runs (h : Reach Boot
    (fun s a => s.Allowed a.2 ∧ s.ForksCopy a ∧ s.RootSpared a) step s) : s.RootAllocated := by
  have hinv : ∃ b, s.Owned b ∧ s.Rooted b := by
    refine Reach.invariant (fun s => ∃ b, s.Owned b ∧ s.Rooted b) ?_ ?_ h
    · exact fun s hb => ⟨_, hb.owned, .inl rfl⟩
    rintro s a ⟨b, ho, hr⟩ ⟨ha, hfork, hspare⟩
    have hans : (s.answering a.1).Owned b := ⟨ho.pages, ho.ok, ho.asid⟩
    have hroot : (s.answering a.1).Rooted b := hr
    have hact := hroot.act hans ha hspare
    exact ⟨b, ho.step ha hfork, hact⟩
  obtain ⟨b, ho, hr⟩ := hinv
  exact ho.rootAllocated hr

instance (s : Sys) (a : List Grant × SysOp) : Decidable (s.RootSpared a) :=
  inferInstanceAs (Decidable (∀ t ∈ (s.answering a.1).freed a.2,
    t.ttbr0 ≠ 0 → t.l0 ≠ ttbrBaddr s.ttbr0))

/-- Two tasks are created; the first exits, and is freed while the second runs. -/
theorem root_allocated_in_runs_two :
    ([([], .create true), ([], .create true), ([], .yield), ([], .exit 0), ([], .yield)].foldl step
      smallBoot).RootAllocated :=
  root_allocated_in_runs (reach_small _ (by decide +kernel))

/-- A task exits and the idle task gets the processor; the next pass of the scheduler frees the task
and with it the table that is still in the register. -/
theorem idle_keeps_freed_root : ∃ s, Reach Boot (fun s a => s.Allowed a.2) step s ∧
    ¬ s.RootAllocated := by
  refine ⟨_, reach_small [([], .create true), ([], .yield), ([], .exit 0), ([], .yield)]
    (by decide +kernel), fun h => ?_⟩
  obtain ⟨-, -, hset⟩ := (Pmm.allocated_pfnToPhys _ 6).mp (h (pfnToPhys 6) (by decide +kernel))
  revert hset
  decide +kernel

end FermiOs.Sys
