import FermiOs.Sched.Queue

/-!
# Runs of the scheduler

The operations tasks and interrupts perform on the scheduler's state, one after the other, and what
holds of the queue in every state they reach: pids are distinct, the idle task stays in the ring and
is ready whenever it is not current, and only the current task runs.
-/

namespace FermiOs
open Library List

/-- The state of the scheduler: its two lists, the tick counter and the pid counter. -/
structure Sched where
  queue : Queue
  ticks : Nat
  nextPid : Nat

/-- `idle_task` as `sched_init` leaves it. -/
def idleTask : Task where
  pid := 0
  ppid := 0
  state := .ready
  exitCode := 0
  sleepUntil := 0
  stackPhys := 0
  ttbr0 := 0
  ustackPhys := 0
  tlsPhys := 0
  regions := []
  entry := 0
  grown := []
  vmas := []
  brkBase := 0
  brkCur := 0
  fds := false

/-- `sched_init`. -/
def Sched.boot : Sched := ⟨⟨idleTask, [], []⟩, 0, 1⟩

/-- The operations. `create` and `fork` bring the record of the new task, of which the scheduler sets
its own fields; a fork that fails after it took a pid uses up the pid. One `waitpid` is one round of
the loop. -/
inductive SchedOp
  | create (t : Task)
  | fork (t : Task) (ok : Bool)
  | schedule
  | exit (code : Int)
  | kill (pid : Nat)
  | sleep (ms : Nat)
  | tick
  | reap
  | waitpid (pidArg : Int) (options : Nat)

/-- The scheduler's fields of a new task. -/
def freshTask (pid ppid : Nat) (t : Task) : Task :=
  { t with pid := pid, ppid := ppid, state := .ready, exitCode := 0, sleepUntil := 0 }

namespace Sched

def step (s : Sched) : SchedOp → Sched
  | .create t =>
    { s with queue := s.queue.insert (freshTask s.nextPid 0 t), nextPid := s.nextPid + 1 }
  | .fork t ok =>
    if ok then
      { s with
        queue := s.queue.insert (freshTask s.nextPid s.queue.cur.pid t)
        nextPid := s.nextPid + 1 }
    else { s with nextPid := s.nextPid + 1 }
  | .schedule => { s with queue := s.queue.schedule.1 }
  | .exit code => { s with queue := (s.queue.taskExit code).1 }
  | .kill pid => { s with queue := (s.queue.killTask pid).2.1 }
  | .sleep ms => { s with queue := (s.queue.sleepMs s.ticks ms).1 }
  | .tick => { s with queue := s.queue.wakeSleepers (s.ticks + 1), ticks := s.ticks + 1 }
  | .reap => { s with queue := s.queue.reap.1 }
  | .waitpid pidArg options => { s with queue := (s.queue.waitpid pidArg options).2 }

/-- The idle task neither exits nor sleeps. -/
def Allowed (s : Sched) : SchedOp → Prop
  | .exit _ => s.queue.cur.pid ≠ 0
  | .sleep _ => s.queue.cur.pid ≠ 0
  | _ => True

instance (s : Sched) (op : SchedOp) : Decidable (s.Allowed op) := by
  cases op <;> dsimp only [Allowed] <;> infer_instance

/-- The states the scheduler reaches after boot. -/
def Reachable (s : Sched) : Prop := Reach (· = boot) Allowed step s

end Sched

/-! ## The queue invariant -/

/-- What holds of the lists between operations and while a task is leaving the processor. -/
structure Queue.Wf (bound : Nat) (q : Queue) : Prop where
  pids : (q.all.map Task.pid).Nodup
  lt : ∀ t ∈ q.all, t.pid < bound
  idle : ∃ t ∈ q.ring, t.pid = 0
  rest : ∀ t ∈ q.rest, t.state = .ready ∨ t.state = .sleeping ∧ t.pid ≠ 0
  dead : ∀ t ∈ q.dead, t.state = .dead ∨ t.state = .zombie
  cur : q.cur.pid = 0 → q.cur.state = .running ∨ q.cur.state = .ready

/-- The current task runs; only at boot the idle task is still marked ready. -/
def Queue.Runs (q : Queue) : Prop :=
  q.cur.state = .running ∨ q.cur.pid = 0 ∧ q.cur.state = .ready

variable {after before : List Task} {s : Sched} {t : Task} {next t' : Task} {ops : List SchedOp}

namespace Queue
variable {bound : Nat} {q q' : Queue} {freed : List Task}

lemma Runs.not_zombie (h : q.Runs) : q.cur.state ≠ .zombie := by
  rcases h with h | ⟨-, h⟩ <;> simp [h]

lemma mem_all : t ∈ q.all ↔ t = q.cur ∨ t ∈ q.rest ∨ t ∈ q.dead := by
  simp [all, ring]

/-- Two tasks of a well-formed queue with one pid are one task. -/
lemma Wf.eq_of_pid (h : q.Wf bound) (ht : t ∈ q.all) (ht' : t' ∈ q.all) (hpid : t.pid = t'.pid) :
    t = t' := inj_on_of_nodup_map h.pids ht ht' hpid

lemma Wf.lt_of_pids (h : q.Wf bound) (hsub : q'.all.map Task.pid ⊆ q.all.map Task.pid) :
    ∀ t ∈ q'.all, t.pid < bound := by
  intro t' ht'
  obtain ⟨t, ht, hpid⟩ := mem_map.mp (hsub (mem_map_of_mem ht'))
  exact hpid ▸ h.lt t ht

/-- The tasks after a pass are tasks from before it. -/
lemma ReapedTo.of_mem (h : ReapedTo q q' freed) (ht' : t' ∈ q'.all) :
    ∃ t ∈ q.all, OrphanedBy (freed.map Task.pid) t t' := by
  rcases mem_all.mp ht' with rfl | ht' | ht'
  · exact ⟨q.cur, mem_all.mpr (.inl rfl), h.cur⟩
  · obtain ⟨t, ht, ho⟩ := h.rest_of_mem ht'
    exact ⟨t, mem_all.mpr (.inr (.inl ht)), ho⟩
  · obtain ⟨t, ht, ho⟩ := h.dead_of_mem (mem_append_left _ ht')
    exact ⟨t, mem_all.mpr (.inr (.inr ht)), ho⟩

lemma ReapedTo.pids_subset (h : ReapedTo q q' freed) : q'.all.map Task.pid ⊆ q.all.map Task.pid :=
  fun _ hpid => h.pids.subset (mem_append_left _ hpid)

lemma Wf.reapedTo (h : q.Wf bound) (hr : ReapedTo q q' freed) : q'.Wf bound := by
  refine ⟨(hr.pids.nodup_iff.mpr h.pids).of_append_left, h.lt_of_pids hr.pids_subset, ?_, ?_, ?_, ?_⟩
  · obtain ⟨t, ht, hpid⟩ := h.idle
    rcases mem_cons.mp ht with rfl | ht
    · exact ⟨q'.cur, mem_cons_self, hr.cur.pid_eq.trans hpid⟩
    · obtain ⟨t', ht', ho⟩ := exists_right_of_forall₂ hr.rest ht
      exact ⟨t', mem_cons_of_mem _ ht', ho.pid_eq.trans hpid⟩
  · intro t' ht'
    obtain ⟨t, ht, ho⟩ := hr.rest_of_mem ht'
    rw [ho.state_eq, ho.pid_eq]
    exact h.rest t ht
  · intro t' ht'
    obtain ⟨t, ht, ho⟩ := hr.dead_of_mem (mem_append_left _ ht')
    rw [ho.state_eq]
    exact h.dead t ht
  · rw [hr.cur.pid_eq, hr.cur.state_eq]
    exact h.cur

lemma parked_pid (t : Task) : (parked t).pid = t.pid := by
  unfold parked
  split <;> rfl

lemma parked_ppid (t : Task) : (parked t).ppid = t.ppid := by
  unfold parked
  split <;> rfl

lemma parked_dead_iff (t : Task) : (parked t).state = .dead ↔ t.state = .dead := by
  unfold parked
  split_ifs with h
  · simp [h]
  · exact Iff.rfl

lemma parked_eq_of_dead (h : t.state = .dead) : parked t = t := by
  simp [parked, h]

lemma switchTo_eq (q : Queue) (before after : List Task) (next : Task) : q.switchTo before next after =
      if q.cur.state = .dead then
        ⟨{ next with state := .running }, after ++ before, bury q.cur :: q.dead⟩
      else ⟨{ next with state := .running }, after ++ parked q.cur :: before, q.dead⟩ := by
  simp only [switchTo]
  by_cases h : q.cur.state = .dead
  · rw [if_pos ((parked_dead_iff _).mpr h), if_pos h, parked_eq_of_dead h]
  · rw [if_neg (fun hd => h ((parked_dead_iff _).mp hd)), if_neg h]

lemma switchTo_pids (hsplit : q.rest = before ++ next :: after) :
    ((q.switchTo before next after).all.map Task.pid).Perm (q.all.map Task.pid) := by
  have hall : q.all.map Task.pid = q.cur.pid :: (before.map Task.pid ++
      next.pid :: after.map Task.pid) ++ q.dead.map Task.pid := by
    simp [all, ring, hsplit]
  rw [switchTo_eq, hall]
  split <;> grind [all, ring, bury, parked_pid]

lemma parked_state (h : t.state ≠ .zombie) (hdead : t.state ≠ .dead)
    (hidle : t.pid = 0 → t.state = .running ∨ t.state = .ready) :
    (parked t).state = .ready ∨ (parked t).state = .sleeping ∧ (parked t).pid ≠ 0 := by
  unfold parked
  cases hst : t.state with
  | ready => simp [hst]
  | running => simp
  | sleeping => simpa [hst] using hidle
  | dead => exact absurd hst hdead
  | zombie => exact absurd hst h

lemma bury_state (t : Task) : (bury t).state = .dead ∨ (bury t).state = .zombie := by
  unfold bury
  split
  · exact .inr rfl
  · exact .inl rfl

section
variable (h : q.Wf bound)
include h

/-- A switch to a ready task keeps the invariant, and the chosen task runs. -/
lemma Wf.switchTo (hz : q.cur.state ≠ .zombie) (hsplit : q.rest = before ++ next :: after) :
    (q.switchTo before next after).Wf bound ∧ (q.switchTo before next after).Runs := by
  have hperm := switchTo_pids hsplit
  have hrest : ∀ t ∈ after ++ before, t.state = .ready ∨ t.state = .sleeping ∧ t.pid ≠ 0 := by
    intro t ht
    apply h.rest t
    rw [hsplit]
    rcases mem_append.mp ht with ht | ht
    · exact mem_append_right _ (mem_cons_of_mem _ ht)
    · exact mem_append_left _ ht
  have hmem : ∀ t ∈ q.ring, t = q.cur ∨ t = next ∨ t ∈ after ++ before := by
    intro t ht
    simp only [ring, hsplit, mem_cons, mem_append] at ht ⊢
    tauto
  refine ⟨⟨hperm.nodup_iff.mpr h.pids, h.lt_of_pids hperm.subset, ?_, ?_, ?_, fun _ => .inl ?_⟩,
    .inl ?_⟩
  · obtain ⟨t, ht, hpid⟩ := h.idle
    rw [switchTo_eq]
    rcases hmem t ht with rfl | rfl | ht
    · -- the idle task was current: it is not dead, so it stays in the ring
      have hnd : q.cur.state ≠ .dead := by rcases h.cur hpid with hs | hs <;> simp [hs]
      rw [if_neg hnd]
      exact ⟨parked q.cur, by simp [ring], (parked_pid _).trans hpid⟩
    · exact ⟨{ t with state := .running }, by split <;> simp [ring], hpid⟩
    · refine ⟨t, ?_, hpid⟩
      split <;> simp only [ring, mem_cons, mem_append] at ht ⊢ <;> tauto
  · intro t ht
    rw [switchTo_eq] at ht
    split_ifs at ht with hnd
    · exact hrest t ht
    rcases mem_append.mp ht with ht | ht
    · exact hrest t (mem_append_left _ ht)
    · rcases mem_cons.mp ht with rfl | ht
      · exact parked_state hz hnd h.cur
      · exact hrest t (mem_append_right _ ht)
  · intro t ht
    rw [switchTo_eq] at ht
    split at ht
    · rcases mem_cons.mp ht with rfl | ht
      · exact bury_state _
      · exact h.dead t ht
    · exact h.dead t ht
  · rw [switchTo_eq]
    split <;> rfl
  · rw [switchTo_eq]
    split <;> rfl

/-- **Scheduling** keeps the invariant and leaves a running task current. -/
lemma Wf.schedule (hz : q.cur.state ≠ .zombie) : q.schedule.1.Wf bound ∧ q.schedule.1.Runs := by
  have hr := q.reap_reapedTo
  have hwf := h.reapedTo hr
  rcases q.schedule_cases with ⟨hnone, heq⟩ | ⟨before, next, after, hsome, heq⟩
  · rw [heq]
    refine ⟨hwf, ?_⟩
    rcases (pick_eq_none hnone).2 with hrun | hidle
    · exact .inl hrun
    -- the idle task is not behind the current one, so it is the current one
    obtain ⟨t, ht, hpid⟩ := hwf.idle
    rcases mem_cons.mp ht with rfl | ht
    · exact (hwf.cur hpid).imp id fun hs => ⟨hpid, hs⟩
    · have hready : t.state = .ready := (hwf.rest t ht).resolve_right fun hs => hs.2 hpid
      have hf := hidle t ht
      simp [idleReady, hready, hpid] at hf
  · rw [heq]
    exact hwf.switchTo (by rw [hr.cur.state_eq]; exact hz) (pick_eq_some hsome).1

/-- Rewriting the record of the current task, but not its pid. -/
lemma Wf.setCur (hpid : t.pid = q.cur.pid)
    (hstate : t.pid = 0 → t.state = .running ∨ t.state = .ready) :
    { q with cur := t }.Wf bound := by
  have hpids : (Queue.all { q with cur := t }).map Task.pid = q.all.map Task.pid := by
    simp [all, ring, hpid]
  refine ⟨hpids ▸ h.pids, h.lt_of_pids (List.Perm.of_eq hpids).subset, ?_, h.rest, h.dead, hstate⟩
  · obtain ⟨t', ht', hpid'⟩ := h.idle
    rcases mem_cons.mp ht' with rfl | ht'
    · exact ⟨t, mem_cons_self, hpid.trans hpid'⟩
    · exact ⟨t', mem_cons_of_mem _ ht', hpid'⟩

/-- The dead list loses tasks and the ring gains none. -/
lemma Wf.dropDead (hsplit : q.dead = before ++ t :: after) :
    { q with dead := before ++ after }.Wf bound := by
  have hsub : (before ++ after).Sublist q.dead := by
    rw [hsplit]
    exact (List.Sublist.refl before).append (sublist_cons_self t after)
  have hall : (Queue.all { q with dead := before ++ after }).Sublist q.all :=
    (List.Sublist.refl q.ring).append hsub
  exact ⟨h.pids.sublist (hall.map _), fun t' ht' => h.lt t' (hall.subset ht'), h.idle, h.rest,
    fun t' ht' => h.dead t' (hsub.subset ht'), h.cur⟩

/-- A task of the ring other than the current and the idle one is put on the dead list. -/
lemma Wf.buryOther (hsplit : q.rest = before ++ t :: after) (hpid : t'.pid = t.pid)
    (hidle : t.pid ≠ 0) (hstate : t'.state = .dead ∨ t'.state = .zombie) :
    { q with rest := before ++ after, dead := t' :: q.dead }.Wf bound := by
  have hperm : ((Queue.all { q with rest := before ++ after, dead := t' :: q.dead }).map
      Task.pid).Perm (q.all.map Task.pid) := by
    grind [all, ring]
  have hsub : (before ++ after).Sublist q.rest := by
    rw [hsplit]
    exact (List.Sublist.refl before).append (sublist_cons_self t after)
  refine ⟨hperm.nodup_iff.mpr h.pids, h.lt_of_pids hperm.subset, ?_,
    fun x hx => h.rest x (hsub.subset hx), ?_, h.cur⟩
  · obtain ⟨x, hx, hx0⟩ := h.idle
    have hne : x ≠ t := fun he => hidle (he ▸ hx0)
    refine ⟨x, ?_, hx0⟩
    simp only [ring, hsplit, mem_cons, mem_append] at hx ⊢
    tauto
  · exact forall_mem_cons.mpr ⟨hstate, h.dead⟩

end

/-- What `sched_kill_task` may have done. -/
lemma killTask_cases (q : Queue) (pid : Nat) : q.killTask pid = (-1, q, []) ∨
      pid ≠ 0 ∧ q.cur.pid = pid ∧ q.killTask pid = (0, q.taskExit 0) ∨
      pid ≠ 0 ∧ q.cur.pid ≠ pid ∧ ∃ before t after, q.rest = before ++ t :: after ∧ t.pid = pid ∧
        q.killTask pid =
          (0, { q with rest := before ++ after, dead := { bury t with exitCode := -1 } :: q.dead },
            []) := by
  unfold killTask
  split
  · exact .inl rfl
  rename_i hpid
  split
  · rename_i hcur
    split
    · exact .inl rfl
    · exact .inr (.inl ⟨hpid, hcur, rfl⟩)
  rename_i hcur
  split
  · exact .inl rfl
  rename_i before t after hcut
  obtain ⟨hsplit, htest, -⟩ := cut_eq_some hcut
  split
  · exact .inl rfl
  · exact .inr (.inr ⟨hpid, hcur, before, t, after, hsplit, of_decide_eq_true htest, rfl⟩)

/-- What one round of `sched_waitpid` may have done. -/
lemma waitpid_cases (q : Queue) (pidArg : Int) (options : Nat) :
    (∃ r, q.waitpid pidArg options = (.returned r, q)) ∨
      (∃ before c after, q.dead = before ++ c :: after ∧ isChild q.cur pidArg c = true ∧
        (∀ t ∈ before, isChild q.cur pidArg t = false) ∧ ¬ pidArg < -1 ∧
        q.waitpid pidArg options =
          (.collected c (waitStatus c.exitCode), { q with dead := before ++ after })) ∨
      q.waitpid pidArg options = (.blocked q.schedule.2, q.schedule.1) := by
  unfold waitpid
  split
  · exact .inl ⟨_, rfl⟩
  rename_i hpid
  split
  · rename_i before c after hcut
    obtain ⟨hsplit, hc, hbefore⟩ := cut_eq_some hcut
    exact .inr (.inl ⟨before, c, after, hsplit, hc, hbefore, hpid, rfl⟩)
  split
  · exact .inl ⟨_, rfl⟩
  · split
    · exact .inl ⟨_, rfl⟩
    · exact .inr (.inr rfl)

section
variable (now : Nat) (t : Task)

lemma wake_pid : (wake now t).pid = t.pid := by
  unfold wake
  split <;> rfl

lemma wake_ppid : (wake now t).ppid = t.ppid := by
  unfold wake
  split <;> rfl

lemma wake_state :
    (wake now t).state = t.state ∨ t.state = .sleeping ∧ (wake now t).state = .ready := by
  unfold wake
  split_ifs with h
  · exact Or.inr ⟨h.2.1, rfl⟩
  · exact .inl rfl

end

lemma Wf.wakeSleepers (h : q.Wf bound) (hruns : q.Runs) (now : Nat) :
    (q.wakeSleepers now).Wf bound ∧ (q.wakeSleepers now).Runs := by
  have hcur : (wake now q.cur).state = q.cur.state := by
    refine (wake_state now q.cur).resolve_right fun hs => ?_
    rcases hruns with hr | ⟨-, hr⟩ <;> simp [hr] at hs
  have hpids : (q.wakeSleepers now).all.map Task.pid = q.all.map Task.pid := by
    have hcomp : Task.pid ∘ wake now = Task.pid := funext (wake_pid now)
    simp [Queue.wakeSleepers, all, ring, wake_pid, hcomp]
  refine ⟨⟨hpids ▸ h.pids, h.lt_of_pids (List.Perm.of_eq hpids).subset, ?_, ?_, h.dead, ?_⟩, ?_⟩
  · obtain ⟨t, ht, hpid⟩ := h.idle
    exact ⟨wake now t, mem_map_of_mem (f := wake now) ht, (wake_pid now t).trans hpid⟩
  · intro t' ht'
    obtain ⟨t, ht, rfl⟩ := mem_map.mp ht'
    rw [wake_pid]
    rcases wake_state now t with hs | ⟨-, hs⟩
    · rw [hs]
      exact h.rest t ht
    · exact .inl hs
  · change (wake now q.cur).pid = 0 → (wake now q.cur).state = .running ∨ (wake now q.cur).state = .ready
    rw [wake_pid, hcur]
    exact h.cur
  · change (wake now q.cur).state = .running ∨ (wake now q.cur).pid = 0 ∧ (wake now q.cur).state = .ready
    rw [wake_pid, hcur]
    exact hruns

/-- A new task enters the ring under a pid not used before. -/
lemma Wf.insert (h : q.Wf bound) (ppid : Nat) (t : Task) :
    (q.insert (freshTask bound ppid t)).Wf (bound + 1) := by
  have hperm : ((q.insert (freshTask bound ppid t)).all.map Task.pid).Perm
      (bound :: q.all.map Task.pid) := by
    grind [Queue.insert, all, ring, freshTask]
  refine ⟨hperm.nodup_iff.mpr (nodup_cons.mpr ⟨?_, h.pids⟩), ?_, ?_, ?_, h.dead, h.cur⟩
  · intro hm
    obtain ⟨t', ht', he⟩ := mem_map.mp hm
    exact absurd (h.lt t' ht') (by omega)
  · intro x hx
    rcases mem_cons.mp (hperm.mem_iff.mp (mem_map_of_mem hx)) with he | hm
    · omega
    · obtain ⟨y, hy, he⟩ := mem_map.mp hm
      exact he ▸ Nat.lt_succ_of_lt (h.lt y hy)
  · obtain ⟨x, hx, hx0⟩ := h.idle
    refine ⟨x, ?_, hx0⟩
    rcases mem_cons.mp hx with rfl | hx
    · exact mem_cons_self
    · exact mem_cons_of_mem _ (mem_append_left _ hx)
  · intro x hx
    rcases mem_append.mp hx with hx | hx
    · exact h.rest x hx
    · exact mem_singleton.mp hx ▸ .inl rfl

end Queue

namespace Sched

/-- The invariant of the scheduler between operations. -/
structure Wf (s : Sched) : Prop where
  queue : s.queue.Wf s.nextPid
  runs : s.queue.Runs

lemma boot_wf : boot.Wf := by
  refine ⟨⟨?_, ?_, ?_, ?_, ?_, ?_⟩, ?_⟩ <;>
    simp [boot, Queue.all, Queue.ring, Queue.Runs, idleTask]

/-! ## What one operation does -/

/-- How often an operation calls `schedule`. -/
def callsOf (s : Sched) : SchedOp → Nat
  | .schedule => 1
  | .exit _ => 1
  | .sleep _ => 1
  | .kill pid => if pid ≠ 0 ∧ s.queue.cur.pid = pid ∧ s.queue.cur.state ≠ .dead then 1 else 0
  | .waitpid pidArg options =>
    match (s.queue.waitpid pidArg options).1 with
    | .blocked _ => 1
    | _ => 0
  | _ => 0

/-- The child a `waitpid` collects in this state. -/
def collected (s : Sched) : SchedOp → Option Task
  | .waitpid pidArg options =>
    match (s.queue.waitpid pidArg options).1 with
    | .collected c _ => some c
    | _ => none
  | _ => none

/-- What the operation `op` does. A task that gives up the processor first rewrites its own record. -/
inductive Move (s : Sched) : SchedOp → Sched → Prop
  | skip {op : SchedOp} (n : Nat) (hn : s.nextPid ≤ n) (hcalls : s.callsOf op = 0)
      (hcol : s.collected op = none) : Move s op { s with nextPid := n }
  | enter {op : SchedOp} (ppid : Nat) (t : Task) (hppid : ppid = 0 ∨ ppid = s.queue.cur.pid)
      (hcalls : s.callsOf op = 0) (hcol : s.collected op = none) :
      Move s op { s with
        queue := s.queue.insert (freshTask s.nextPid ppid t)
        nextPid := s.nextPid + 1 }
  | yield {op : SchedOp} (c : Task) (hpid : c.pid = s.queue.cur.pid)
      (hppid : c.ppid = s.queue.cur.ppid)
      (hidle : c.pid = 0 → c.state = .running ∨ c.state = .ready) (hzombie : c.state ≠ .zombie)
      (hcalls : s.callsOf op = 1) (hcol : s.collected op = none) :
      Move s op { s with queue := (Queue.schedule { s.queue with cur := c }).1 }
  | bury {pid : Nat} (before after : List Task) (t : Task)
      (hsplit : s.queue.rest = before ++ t :: after) (hidle : t.pid ≠ 0)
      (hcalls : s.callsOf (.kill pid) = 0) :
      Move s (.kill pid) { s with
        queue := { s.queue with
          rest := before ++ after
          dead := { Queue.bury t with exitCode := -1 } :: s.queue.dead } }
  | collect {pidArg : Int} {options : Nat} (before after : List Task) (c : Task)
      (hsplit : s.queue.dead = before ++ c :: after)
      (hchild : Queue.isChild s.queue.cur pidArg c = true)
      (hcalls : s.callsOf (.waitpid pidArg options) = 0)
      (hcol : s.collected (.waitpid pidArg options) = some c) :
      Move s (.waitpid pidArg options) { s with queue := { s.queue with dead := before ++ after } }
  | tick : Move s .tick
      { s with queue := s.queue.wakeSleepers (s.ticks + 1), ticks := s.ticks + 1 }
  | reap : Move s .reap { s with queue := s.queue.reap.1 }

variable {op : SchedOp} {s' : Sched}

lemma step_move (h : s.Wf) (ha : s.Allowed op) : s.Move op (s.step op) := by
  cases op with
  | create t => exact .enter 0 t (.inl rfl) rfl rfl
  | fork t ok =>
    cases ok with
    | true => exact .enter _ t (.inr rfl) rfl rfl
    | false => exact .skip _ (Nat.le_succ _) rfl rfl
  | schedule => exact .yield s.queue.cur rfl rfl h.queue.cur h.runs.not_zombie rfl rfl
  | exit code =>
    exact .yield { s.queue.cur with exitCode := code, state := .dead } rfl rfl
      (fun h0 => absurd h0 ha) nofun rfl rfl
  | kill pid =>
    have hlive : s.queue.cur.state ≠ .dead := by
      rcases h.runs with hr | ⟨-, hr⟩ <;> simp [hr]
    rw [step]
    rcases s.queue.killTask_cases pid with heq | ⟨hpid, hcur, heq⟩ | ⟨hpid, hcur, before, t, after,
        hsplit, ht, heq⟩
    · have hcalls : s.callsOf (.kill pid) = 0 := by
        rw [callsOf, if_neg]
        rintro ⟨hpid, hself, -⟩
        simp [Queue.killTask, hpid, hself, hlive] at heq
      rw [heq]
      exact .skip _ le_rfl hcalls rfl
    · rw [heq]
      exact .yield { s.queue.cur with exitCode := 0, state := .dead } rfl rfl
        (fun h0 => absurd (hcur.symm.trans h0) hpid) nofun (if_pos ⟨hpid, hcur, hlive⟩) rfl
    · rw [heq]
      exact .bury before after t hsplit (ht ▸ hpid) (if_neg fun hself => hcur hself.2.1)
  | sleep ms =>
    exact .yield { s.queue.cur with sleepUntil := _, state := .sleeping } rfl rfl
      (fun h0 => absurd h0 ha) nofun rfl rfl
  | tick => exact .tick
  | reap => exact .reap
  | waitpid pidArg options =>
    rw [step]
    rcases s.queue.waitpid_cases pidArg options with ⟨r, heq⟩ | ⟨before, c, after, hsplit, hc, -, -,
        heq⟩ | heq
    · rw [heq]
      exact .skip _ le_rfl (by simp [callsOf, heq]) (by simp [collected, heq])
    · rw [heq]
      exact .collect before after c hsplit hc (by simp [callsOf, heq]) (by simp [collected, heq])
    · rw [heq]
      exact .yield s.queue.cur rfl rfl h.queue.cur h.runs.not_zombie (by simp [callsOf, heq])
        (by simp [collected, heq])

lemma Move.wf (hm : s.Move op s') (h : s.Wf) : s'.Wf := by
  obtain ⟨hq, hruns⟩ := h
  cases hm with
  | skip n hn => exact ⟨{ hq with lt := fun t ht => (hq.lt t ht).trans_le hn }, hruns⟩
  | enter ppid t => exact ⟨hq.insert ppid t, hruns⟩
  | yield c hpid _ hidle hzombie =>
    obtain ⟨hwf, hr⟩ := (hq.setCur hpid hidle).schedule hzombie
    exact ⟨hwf, hr⟩
  | bury before after t hsplit hidle =>
    exact ⟨hq.buryOther hsplit rfl hidle (Queue.bury_state t), hruns⟩
  | collect before after c hsplit => exact ⟨hq.dropDead hsplit, hruns⟩
  | tick =>
    obtain ⟨hwf, hr⟩ := hq.wakeSleepers hruns (s.ticks + 1)
    exact ⟨hwf, hr⟩
  | reap =>
    have hr := s.queue.reap_reapedTo
    refine ⟨hq.reapedTo hr, ?_⟩
    simp only [Queue.Runs, hr.cur.state_eq, hr.cur.pid_eq]
    exact hruns

lemma step_wf (h : s.Wf) (ha : s.Allowed op) : (s.step op).Wf := (step_move h ha).wf h

lemma Wf.run (h : s.Wf) (hops : Obeys Allowed step s ops) : (ops.foldl step s).Wf := by
  induction ops generalizing s with
  | nil => exact h
  | cons op ops ih => exact ih (step_wf h hops.1) hops.2

/-- Every allowed run from boot reaches its last state. -/
lemma reachable_run (h : Obeys Allowed step boot ops) : Reachable (ops.foldl step boot) :=
  have hboot : Reach (· = boot) Allowed step boot := .start rfl
  hboot.obeys h

/-- **The queue invariant holds in every state the scheduler reaches.** -/
lemma Reachable.wf (h : s.Reachable) : s.Wf :=
  Reach.invariant Wf (fun s (hs : s = boot) => hs ▸ boot_wf) (fun _ _ hs ha => step_wf hs ha) h

end Sched
end FermiOs
