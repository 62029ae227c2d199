import FermiOs.Library.Links
import FermiOs.Library.Run
import FermiOs.Sched.Task

/-!
# The run queue and the dead list

The scheduler's two lists as lists of task records: the ring is read from the current task on, in the
order of the `next` pointers, and a task is named by its pid. The operations are those of `sched.c`
on these lists; `Sched.Ring` has them on the pointers and shows that the two agree.

Every operation that frees tasks also returns the freed records, in the order of the frees, so that
a model with memory can release what they own.
-/

namespace FermiOs
open Library List

/-- The current task, the tasks behind it in the ring, and the dead list. -/
structure Queue where
  cur : Task
  rest : List Task
  dead : List Task

namespace Queue

/-- The run queue, from the current task on. -/
def ring (q : Queue) : List Task := q.cur :: q.rest

/-- Every task that was created and not freed. -/
def all (q : Queue) : List Task := q.ring ++ q.dead

end Queue

/-! ## Reaping -/

/-- What `sched_orphan_children(ppid)` does to one task; pid `0` has no children. -/
def orphan (ppid : Nat) (t : Task) : Task :=
  if ppid ≠ 0 ∧ t.ppid = ppid then { t with ppid := 0 } else t

namespace Queue

/-- The loop of `sched_reap` over the part of the old dead list not yet visited; `q.dead` holds the
survivors. The tasks still to be visited are reached from `dead_list` only through a survivor. -/
def reapLoop : Nat → Queue → List Task → Queue × List Task
  | 0, q, _ => (q, [])
  | _ + 1, q, [] => (q, [])
  | n + 1, q, c :: todo =>
    if c.ppid ≠ 0 then reapLoop n { q with dead := q.dead ++ [c] } todo
    else
      let q' : Queue :=
        ⟨orphan c.pid q.cur, q.rest.map (orphan c.pid), q.dead.map (orphan c.pid)⟩
      let todo' := if q.dead.isEmpty then todo else todo.map (orphan c.pid)
      let r := reapLoop n q' todo'
      (r.1, c :: r.2)

/-- `sched_reap`. -/
def reap (q : Queue) : Queue × List Task := reapLoop q.dead.length { q with dead := [] } q.dead

/-! ## Scheduling -/

/-- A task `schedule` switches to as soon as it meets it. -/
def runnable (t : Task) : Bool := decide (t.state = .ready ∧ t.pid ≠ 0)

/-- The idle task, when it can be fallen back to. -/
def idleReady (t : Task) : Bool := decide (t.state = .ready ∧ t.pid = 0)

/-- The choice `schedule` makes behind the current task, with the tasks before and after the choice.
The idle task is taken only when nothing else is ready and the current task cannot go on. -/
def pick (q : Queue) : Option (List Task × Task × List Task) :=
  match cut runnable q.rest with
  | some c => some c
  | none => if q.cur.state = .running then none else cut idleReady q.rest

/-- The task that leaves the processor, as the queue keeps it. -/
def parked (t : Task) : Task := if t.state = .running then { t with state := .ready } else t

/-- A task as it is put on the dead list. -/
def bury (t : Task) : Task := { t with state := if t.ppid ≠ 0 then .zombie else .dead }

/-- The switch from the current task to a chosen one. -/
def switchTo (q : Queue) (before : List Task) (next : Task) (after : List Task) : Queue :=
  let prev := parked q.cur
  if prev.state = .dead then
    ⟨{ next with state := .running }, after ++ before, bury prev :: q.dead⟩
  else ⟨{ next with state := .running }, after ++ prev :: before, q.dead⟩

/-- `schedule`. -/
def schedule (q : Queue) : Queue × List Task :=
  let r := q.reap
  match r.1.pick with
  | none => r
  | some (before, next, after) => (r.1.switchTo before next after, r.2)

/-! ## Life and death of tasks -/

/-- A new task goes right before the current one. -/
def insert (q : Queue) (t : Task) : Queue := { q with rest := q.rest ++ [t] }

/-- `task_exit`. -/
def taskExit (q : Queue) (code : Int) : Queue × List Task :=
  schedule { q with cur := { q.cur with exitCode := code, state := .dead } }

/-- `sched_kill_task`, with its return value. -/
def killTask (q : Queue) (pid : Nat) : Int × Queue × List Task :=
  if pid = 0 then (-1, q, [])
  else if q.cur.pid = pid then
    if q.cur.state = .dead then (-1, q, []) else (0, q.taskExit 0)
  else
    match cut (fun t => decide (t.pid = pid)) q.rest with
    | none => (-1, q, [])
    | some (before, t, after) =>
      if t.state = .dead then (-1, q, [])
      else (0, { q with rest := before ++ after, dead := { bury t with exitCode := -1 } :: q.dead },
        [])

/-- `TIMER_INTERVAL_MS`. -/
def timerIntervalMs : Nat := 10

/-- `sleep_ms`. -/
def sleepMs (q : Queue) (ticks ms : Nat) : Queue × List Task :=
  let ticksNeeded := if ms / timerIntervalMs = 0 then 1 else ms / timerIntervalMs
  schedule { q with
    cur := { q.cur with sleepUntil := (ticks + ticksNeeded) % 2 ^ 64, state := .sleeping } }

/-- What `sched_wake_sleepers` does to one task of the ring other than the idle task. -/
def wake (now : Nat) (t : Task) : Task :=
  if t.pid ≠ 0 ∧ t.state = .sleeping ∧ t.sleepUntil ≤ now then
    { t with state := .ready, sleepUntil := 0 }
  else t

/-- `sched_wake_sleepers`. -/
def wakeSleepers (q : Queue) (now : Nat) : Queue :=
  { q with cur := wake now q.cur, rest := q.rest.map (wake now) }

/-! ## Waiting for children -/

/-- The test of `sched_waitpid` and `has_matching_child` on a task. -/
def isChild (cur : Task) (pidArg : Int) (t : Task) : Bool :=
  decide (t.ppid = cur.pid ∧ (pidArg = -1 ∨ pidArg = t.pid))

/-- `has_matching_child`. -/
def hasMatchingChild (q : Queue) (pidArg : Int) : Bool :=
  q.ring.any (fun t => decide (t.pid ≠ q.cur.pid) && isChild q.cur pidArg t) ||
    q.dead.any (isChild q.cur pidArg)

/-- The status word `sched_waitpid` reports for an exit code. -/
def waitStatus (exitCode : Int) : Nat :=
  if exitCode < 0 then 0x80 ||| 11 else (exitCode % 256).toNat * 2 ^ 8

/-- One round of the loop of `sched_waitpid`: it returns a value, or returns the pid of a collected
child together with the status, or yields and goes around again. -/
inductive WaitRound
  | returned (r : Int)
  | collected (child : Task) (status : Nat)
  | blocked (freed : List Task)

/-- `WNOHANG`. -/
def wnohang : Nat := 1

/-- One round of `sched_waitpid`. -/
def waitpid (q : Queue) (pidArg : Int) (options : Nat) : WaitRound × Queue :=
  if pidArg < -1 then (.returned (-1), q)
  else
    match cut (isChild q.cur pidArg) q.dead with
    | some (before, c, after) =>
      (.collected c (waitStatus c.exitCode), { q with dead := before ++ after })
    | none =>
      if q.hasMatchingChild pidArg = false then (.returned (-1), q)
      else if options &&& wnohang ≠ 0 then (.returned 0, q)
      else
        let r := q.schedule
        (.blocked r.2, r.1)

end Queue

/-! ## What reaping does -/

/-- `t'` is `t`, possibly with its parent, one of `gone`, forgotten. -/
def OrphanedBy (gone : List Nat) (t t' : Task) : Prop :=
  t' = t ∨ t.ppid ∈ gone ∧ t.ppid ≠ 0 ∧ t' = { t with ppid := 0 }

variable {after before l l' : List Task} {gone : List Nat} {next t' : Task} {q : Queue}

namespace OrphanedBy
variable {gone' : List Nat} {t t'' : Task}

lemma refl (gone : List Nat) (t : Task) : OrphanedBy gone t t := .inl rfl

lemma of_orphan (pid : Nat) (gone : List Nat) (t : Task) :
    OrphanedBy (pid :: gone) t (orphan pid t) := by
  unfold orphan
  split_ifs with h
  · exact Or.inr ⟨h.2 ▸ mem_cons_self, h.2 ▸ h.1, rfl⟩
  · exact .inl rfl

variable (h : OrphanedBy gone t t')
include h

lemma mono (hsub : gone ⊆ gone') : OrphanedBy gone' t t' :=
  h.imp id fun ⟨hm, hrest⟩ => ⟨hsub hm, hrest⟩

lemma trans (h' : OrphanedBy gone t' t'') : OrphanedBy gone t t'' := by
  rcases h with rfl | ⟨hm, hne, rfl⟩
  · exact h'
  · rcases h' with rfl | ⟨-, hne', -⟩
    · exact .inr ⟨hm, hne, rfl⟩
    · exact absurd rfl hne'

lemma pid_eq : t'.pid = t.pid := by
  rcases h with rfl | ⟨-, -, rfl⟩ <;> rfl

lemma state_eq : t'.state = t.state := by
  rcases h with rfl | ⟨-, -, rfl⟩ <;> rfl

/-- A task whose parent is not among those gone is untouched. -/
lemma eq_of_notMem (hp : t.ppid ∉ gone) : t' = t := by
  rcases h with rfl | ⟨hm, -⟩
  · rfl
  · exact absurd hm hp

end OrphanedBy

/-- What `sched_reap` may do to a queue while it frees the tasks `freed`. -/
structure Queue.ReapedTo (q q' : Queue) (freed : List Task) : Prop where
  cur : OrphanedBy (freed.map Task.pid) q.cur q'.cur
  rest : Forall₂ (OrphanedBy (freed.map Task.pid)) q.rest q'.rest
  dead : ∃ l, Forall₂ (OrphanedBy (freed.map Task.pid)) q.dead l ∧ l.Perm (q'.dead ++ freed)
  parentless : ∀ t ∈ freed, t.ppid = 0

namespace Queue

/-- Orphaning the tasks of a list. -/
lemma forall₂_orphan (pid : Nat) (gone : List Nat) (l : List Task) :
    Forall₂ (OrphanedBy (pid :: gone)) l (l.map (orphan pid)) := by
  rw [List.forall₂_map_right_iff]
  exact List.forall₂_same.mpr fun t _ => .of_orphan pid gone t

lemma forall₂_trans {gone' : List Nat} (hsub : gone ⊆ gone') {l'' : List Task}
    (h : Forall₂ (OrphanedBy gone') l l') (h' : Forall₂ (OrphanedBy gone) l' l'') :
    Forall₂ (OrphanedBy gone') l l'' := by
  induction h generalizing l'' with
  | nil =>
    cases h'
    exact .nil
  | cons hab _ ih =>
    cases h' with
    | cons hbc hrest => exact .cons (hab.trans (hbc.mono hsub)) (ih hrest)

lemma reapLoop_reapedTo (n : Nat) (q : Queue) (todo : List Task) (hn : todo.length ≤ n) :
    ReapedTo { q with dead := q.dead ++ todo } (reapLoop n q todo).1 (reapLoop n q todo).2 := by
  induction n generalizing q todo with
  | zero =>
    obtain rfl := length_eq_zero_iff.mp (Nat.le_zero.mp hn)
    exact ⟨.refl _ _, List.forall₂_same.mpr fun _ _ => .refl _ _,
      ⟨_, List.forall₂_same.mpr fun _ _ => .refl _ _, by simp [reapLoop]⟩, by simp [reapLoop]⟩
  | succ n ih =>
    cases todo with
    | nil =>
      exact ⟨.refl _ _, List.forall₂_same.mpr fun _ _ => .refl _ _,
        ⟨_, List.forall₂_same.mpr fun _ _ => .refl _ _, by simp [reapLoop]⟩,
        by simp [reapLoop]⟩
    | cons c todo =>
      have hn : todo.length ≤ n := Nat.le_of_succ_le_succ hn
      rw [reapLoop]
      split
      · -- a zombie survives
        have hstep := ih { q with dead := q.dead ++ [c] } todo hn
        simpa using hstep
      rename_i hppid
      dsimp only
      generalize htodo : (if q.dead.isEmpty then todo else todo.map (orphan c.pid)) = todo'
      have hlen : todo'.length ≤ n := by
        rw [← htodo]
        split <;> simpa using hn
      have htodo' : ∀ gone, Forall₂ (OrphanedBy (c.pid :: gone)) todo todo' := by
        intro gone
        rw [← htodo]
        split
        · exact List.forall₂_same.mpr fun _ _ => .refl _ _
        · exact forall₂_orphan c.pid gone todo
      obtain ⟨hcur, hrest, ⟨l, hl, hperm⟩, hpar⟩ := ih
        ⟨orphan c.pid q.cur, q.rest.map (orphan c.pid), q.dead.map (orphan c.pid)⟩ todo' hlen
      generalize reapLoop n _ todo' = r at hcur hrest hl hperm hpar ⊢
      have hsub : r.2.map Task.pid ⊆ c.pid :: r.2.map Task.pid := subset_cons_self _ _
      obtain ⟨l1, l2, hl1, hl2, rfl⟩ : ∃ l1 l2,
          Forall₂ (OrphanedBy (r.2.map Task.pid)) (q.dead.map (orphan c.pid)) l1 ∧
          Forall₂ (OrphanedBy (r.2.map Task.pid)) todo' l2 ∧ l = l1 ++ l2 := by
        refine ⟨l.take q.dead.length, l.drop q.dead.length, ?_, ?_, (take_append_drop _ l).symm⟩
        · simpa using List.forall₂_take q.dead.length hl
        · simpa using List.forall₂_drop q.dead.length hl
      refine ⟨(OrphanedBy.of_orphan _ _ _).trans (hcur.mono hsub),
        forall₂_trans hsub (forall₂_orphan _ _ _) hrest, ⟨l1 ++ c :: l2, ?_, ?_⟩, ?_⟩
      · exact rel_append (forall₂_trans hsub (forall₂_orphan _ _ _) hl1)
          (.cons (.refl _ _) (forall₂_trans hsub (htodo' _) hl2))
      · exact perm_middle.trans ((hperm.cons c).trans perm_middle.symm)
      · exact forall_mem_cons.mpr ⟨not_not.mp hppid, hpar⟩

/-- **Reaping** frees parentless tasks only, and forgets parents only when it frees them. -/
lemma reap_reapedTo (q : Queue) : ReapedTo q q.reap.1 q.reap.2 := by
  have h := reapLoop_reapedTo q.dead.length { q with dead := [] } q.dead le_rfl
  simpa [reap] using h

namespace ReapedTo
variable {q' : Queue} {freed : List Task}

lemma rest_of_mem (h : ReapedTo q q' freed) (ht : t' ∈ q'.rest) :
    ∃ t ∈ q.rest, OrphanedBy (freed.map Task.pid) t t' := exists_left_of_forall₂ h.rest ht

lemma dead_of_mem (h : ReapedTo q q' freed) (ht : t' ∈ q'.dead ++ freed) :
    ∃ t ∈ q.dead, OrphanedBy (freed.map Task.pid) t t' := by
  obtain ⟨l, hl, hperm⟩ := h.dead
  exact exists_left_of_forall₂ hl (hperm.mem_iff.mpr ht)

lemma map_pid_of_forall₂ (h : Forall₂ (OrphanedBy gone) l l') : l'.map Task.pid = l.map Task.pid := by
  induction h with
  | nil => rfl
  | cons hab _ ih => rw [map_cons, map_cons, ih, hab.pid_eq]

lemma map_pid_rest (h : ReapedTo q q' freed) : q'.rest.map Task.pid = q.rest.map Task.pid :=
  map_pid_of_forall₂ h.rest

/-- The tasks that remain and those that were freed are the tasks there were. -/
lemma pids (h : ReapedTo q q' freed) :
    (q'.all.map Task.pid ++ freed.map Task.pid).Perm (q.all.map Task.pid) := by
  obtain ⟨l, hl, hperm⟩ := h.dead
  have hdead : (q'.dead.map Task.pid ++ freed.map Task.pid).Perm (q.dead.map Task.pid) := by
    rw [← map_pid_of_forall₂ hl, ← map_append]
    exact hperm.symm.map Task.pid
  simp only [all, ring, map_append, map_cons, h.map_pid_rest, h.cur.pid_eq, append_assoc]
  exact hdead.append_left _

end ReapedTo

/-! ## What scheduling does -/

lemma pick_eq_some (h : q.pick = some (before, next, after)) :
    q.rest = before ++ next :: after ∧ next.state = .ready ∧
      (next.pid ≠ 0 ∧ (∀ t ∈ before, runnable t = false) ∨
        next.pid = 0 ∧ q.cur.state ≠ .running ∧ ∀ t ∈ q.rest, runnable t = false) := by
  unfold pick at h
  split at h
  · rename_i c hc
    cases h
    obtain ⟨hsplit, hrun, hbefore⟩ := cut_eq_some hc
    obtain ⟨hready, hpid⟩ := of_decide_eq_true hrun
    exact ⟨hsplit, hready, .inl ⟨hpid, hbefore⟩⟩
  rename_i hnone
  split at h
  · cases h
  · rename_i hcur
    obtain ⟨hsplit, hidle, -⟩ := cut_eq_some h
    obtain ⟨hready, hpid⟩ := of_decide_eq_true hidle
    exact ⟨hsplit, hready, .inr ⟨hpid, hcur, cut_eq_none.mp hnone⟩⟩

lemma pick_eq_none (h : q.pick = none) : (∀ t ∈ q.rest, runnable t = false) ∧
      (q.cur.state = .running ∨ ∀ t ∈ q.rest, idleReady t = false) := by
  unfold pick at h
  split at h
  · cases h
  rename_i hnone
  refine ⟨cut_eq_none.mp hnone, ?_⟩
  split_ifs at h with hcur
  · exact Or.inl hcur
  · exact .inr (cut_eq_none.mp h)

lemma schedule_of_none (h : q.reap.1.pick = none) : q.schedule = q.reap := by
  simp [schedule, h]

lemma schedule_of_some (h : q.reap.1.pick = some (before, next, after)) :
    q.schedule = (q.reap.1.switchTo before next after, q.reap.2) := by
  simp [schedule, h]

lemma schedule_cases (q : Queue) : (q.reap.1.pick = none ∧ q.schedule = q.reap) ∨
      ∃ before next after, q.reap.1.pick = some (before, next, after) ∧
        q.schedule = (q.reap.1.switchTo before next after, q.reap.2) := by
  cases hpick : q.reap.1.pick with
  | none => exact .inl ⟨rfl, schedule_of_none hpick⟩
  | some c => exact .inr ⟨c.1, c.2.1, c.2.2, rfl, schedule_of_some hpick⟩

end Queue
end FermiOs
