import FermiOs.Sched.Lifecycle

/-!
# Records under scheduling

The scheduler moves task records between its lists and rewrites four fields of them: state, parent,
exit code and wake-up time. What a record says about memory it leaves alone. `Task.core` is a record
without the four fields, and every operation on the queue keeps the collection of cores, when the
tasks it frees are counted in: `Queue.Shuffles`.
-/

namespace FermiOs
open Library List
variable {gone : List Nat} {t t' : Task}

/-- A record without the fields the scheduler keeps about it. -/
def Task.core (t : Task) : Task :=
  { t with ppid := 0, state := .ready, exitCode := 0, sleepUntil := 0 }

lemma Task.ttbr0_of_core (h : t'.core = t.core) : t'.ttbr0 = t.ttbr0 :=
  show t'.core.ttbr0 = t.core.ttbr0 from congrArg Task.ttbr0 h

lemma Task.vmas_of_core (h : t'.core = t.core) : t'.vmas = t.vmas :=
  show t'.core.vmas = t.core.vmas from congrArg Task.vmas h

lemma OrphanedBy.core_eq (h : OrphanedBy gone t t') : t'.core = t.core := by
  rcases h with rfl | ⟨-, -, rfl⟩ <;> rfl

lemma map_core_of_forall₂ {l l' : List Task} (h : Forall₂ (OrphanedBy gone) l l') :
    l'.map Task.core = l.map Task.core := by
  induction h with
  | nil => rfl
  | cons hab _ ih => rw [map_cons, map_cons, ih, hab.core_eq]

namespace Queue

/-- What a round of `waitpid` frees. -/
def WaitRound.freed : WaitRound → List Task
  | .returned _ => []
  | .collected child _ => [child]
  | .blocked freed => freed

/-- `q'` and the freed tasks hold the records of `q`, the scheduler's fields apart. -/
def Shuffles (q q' : Queue) (freed : List Task) : Prop :=
  ((q'.all ++ freed).map Task.core).Perm (q.all.map Task.core)

variable {q q' : Queue} {freed : List Task}

lemma Shuffles.refl (q : Queue) : Shuffles q q [] := by
  rw [Shuffles, append_nil]

/-- Every record that is still there comes from one with the same core. -/
lemma Shuffles.of_mem (h : Shuffles q q' freed) (ht : t' ∈ q'.all ++ freed) :
    ∃ t ∈ q.all, t.core = t'.core :=
  mem_map.mp (h.mem_iff.mp (mem_map_of_mem ht))

lemma insert_all (q : Queue) (t : Task) : (q.insert t).all.Perm (t :: q.all) := by
  simp only [Queue.insert, Queue.all, Queue.ring, cons_append, append_assoc, nil_append]
  exact ((List.Perm.swap _ _ _).trans (perm_middle.symm.cons _)).symm

lemma ReapedTo.shuffles (h : ReapedTo q q' freed) : Shuffles q q' freed := by
  obtain ⟨l, hl, hperm⟩ := h.dead
  have hdead : ((q'.dead ++ freed).map Task.core).Perm (q.dead.map Task.core) := by
    rw [← map_core_of_forall₂ hl]
    exact hperm.symm.map Task.core
  have hring : q'.ring.map Task.core = q.ring.map Task.core := by
    rw [ring, ring, map_cons, map_cons, map_core_of_forall₂ h.rest, h.cur.core_eq]
  rw [map_append] at hdead
  simp only [Shuffles, all, append_assoc, map_append, hring]
  exact hdead.append_left _

lemma parked_core (t : Task) : (parked t).core = t.core := by
  unfold parked
  split <;> rfl

lemma switchTo_cores {before after : List Task} {next : Task}
    (hsplit : q.rest = before ++ next :: after) :
    ((q.switchTo before next after).all.map Task.core).Perm (q.all.map Task.core) := by
  have hall : q.all.map Task.core = q.cur.core :: (before.map Task.core ++
      next.core :: after.map Task.core) ++ q.dead.map Task.core := by
    simp [all, ring, hsplit]
  have hnext : Task.core { next with state := .running } = next.core := rfl
  have hbury : (bury q.cur).core = q.cur.core := rfl
  rw [switchTo_eq, hall]
  apply Multiset.coe_eq_coe.mp
  split <;>
  · simp only [all, ring, hnext, hbury, parked_core, map_append, map_cons,
      cons_append, append_assoc, ← Multiset.cons_coe, ← Multiset.coe_add,
      ← Multiset.singleton_add]
    abel

/-- **Scheduling** moves records and frees those it reaps. -/
lemma schedule_shuffles (q : Queue) : Shuffles q q.schedule.1 q.schedule.2 := by
  have hr := q.reap_reapedTo.shuffles
  rcases q.schedule_cases with ⟨-, heq⟩ | ⟨before, next, after, hsome, heq⟩
  · rw [heq]
    exact hr
  · rw [heq]
    refine List.Perm.trans ?_ hr
    rw [map_append, map_append]
    exact (switchTo_cores (pick_eq_some hsome).1).append_right _

/-- Rewriting the scheduler's fields of the current task first. -/
lemma Shuffles.of_cur (hcore : t.core = q.cur.core) (h : Shuffles { q with cur := t } q' freed) :
    Shuffles q q' freed := by
  refine List.Perm.trans h ?_
  simp only [all, ring, cons_append, map_cons, hcore]
  exact List.Perm.refl _

lemma taskExit_shuffles (q : Queue) (code : Int) : Shuffles q (q.taskExit code).1 (q.taskExit code).2 :=
  .of_cur rfl (schedule_shuffles { q with cur := { q.cur with exitCode := code, state := .dead } })

lemma sleepMs_shuffles (q : Queue) (ticks ms : Nat) :
    Shuffles q (q.sleepMs ticks ms).1 (q.sleepMs ticks ms).2 := by
  unfold sleepMs
  exact .of_cur rfl (schedule_shuffles _)

lemma killTask_shuffles (q : Queue) (pid : Nat) :
    Shuffles q (q.killTask pid).2.1 (q.killTask pid).2.2 := by
  rcases q.killTask_cases pid with heq | ⟨-, -, heq⟩ | ⟨-, -, before, t, after, hsplit, -, heq⟩
  · rw [heq]
    exact .refl q
  · rw [heq]
    exact taskExit_shuffles q 0
  have hbury : Task.core { bury t with exitCode := -1 } = t.core := rfl
  rw [heq]
  refine Multiset.coe_eq_coe.mp ?_
  simp only [all, ring, hsplit, hbury, map_append, map_cons, cons_append,
    append_assoc, append_nil, ← Multiset.cons_coe, ← Multiset.coe_add,
    ← Multiset.singleton_add]
  abel

lemma wake_core (now : Nat) (t : Task) : (wake now t).core = t.core := by
  unfold wake
  split <;> rfl

lemma wakeSleepers_shuffles (q : Queue) (now : Nat) : Shuffles q (q.wakeSleepers now) [] := by
  have hcomp : Task.core ∘ wake now = Task.core := funext (wake_core now)
  have heq : (q.wakeSleepers now).all.map Task.core = q.all.map Task.core := by
    simp [Queue.wakeSleepers, all, ring, wake_core, hcomp]
  rw [Shuffles, append_nil, heq]

lemma waitpid_shuffles (q : Queue) (pidArg : Int) (options : Nat) :
    Shuffles q (q.waitpid pidArg options).2 (q.waitpid pidArg options).1.freed := by
  rcases q.waitpid_cases pidArg options with ⟨r, heq⟩ | ⟨before, c, after, hsplit, -, -, -, heq⟩ |
      heq
  · rw [heq]
    exact .refl q
  · rw [heq]
    refine Multiset.coe_eq_coe.mp ?_
    simp only [WaitRound.freed, all, ring, hsplit, map_append, map_cons,
      cons_append, append_assoc, map_nil, ← Multiset.cons_coe, ← Multiset.coe_add,
      ← Multiset.singleton_add, Multiset.coe_nil]
    abel
  · rw [heq]
    exact schedule_shuffles q

end Queue
end FermiOs
