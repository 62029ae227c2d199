import FermiOs.Sched.Lifecycle

/-!
# Children and their parents

What `sched_waitpid` answers in terms of the tasks that exist, and what happens to a child from its
creation to its collection. The record of a child stays, and with it the child's claim on its parent,
until the parent collects it: only a task without a parent is freed by the scheduler itself.
-/

namespace FermiOs
open Library List
variable {c : Task} {ops : List SchedOp}

/-- The task has exited or was killed. -/
def Task.Terminated (t : Task) : Prop := t.state = .dead ∨ t.state = .zombie

namespace Queue
variable {bound : Nat} {q q' : Queue} {pidArg : Int} {t : Task}

/-- A task that exists and is a child of the current one, of the kind asked for. -/
def Child (q : Queue) (pidArg : Int) (t : Task) : Prop :=
  t ∈ q.all ∧ t.pid ≠ q.cur.pid ∧ t.ppid = q.cur.pid ∧ (pidArg = -1 ∨ pidArg = t.pid)

lemma isChild_iff {cur : Task} :
    isChild cur pidArg t = true ↔ t.ppid = cur.pid ∧ (pidArg = -1 ∨ pidArg = t.pid) := by
  simp [isChild]

section
variable (h : q.Wf bound)
include h

/-- A task of the ring and a task of the dead list differ in their pids. -/
lemma Wf.pid_ne {a d : Task} (ha : a ∈ q.ring) (hd : d ∈ q.dead) : a.pid ≠ d.pid := by
  have hnd := h.pids
  rw [all, map_append] at hnd
  exact (nodup_append.mp hnd).2.2 _ (mem_map_of_mem ha) _ (mem_map_of_mem hd)

lemma Wf.cur_ne_dead (ht : t ∈ q.dead) : t.pid ≠ q.cur.pid :=
  (h.pid_ne mem_cons_self ht).symm

lemma Wf.notMem_dead (ht : t ∈ q.ring) : t ∉ q.dead :=
  fun hd => h.pid_ne ht hd rfl

/-- The terminated tasks are those on the dead list. -/
lemma Wf.terminated_iff (hr : q.Runs) (ht : t ∈ q.all) : t.Terminated ↔ t ∈ q.dead := by
  constructor
  · intro hterm
    rcases mem_all.mp ht with rfl | hrest | hdead
    · rcases hr with hs | ⟨-, hs⟩ <;> rcases hterm with ht | ht <;> simp [hs] at ht
    · rcases h.rest t hrest with hs | ⟨hs, -⟩ <;> rcases hterm with ht | ht <;> simp [hs] at ht
    · exact hdead
  · exact h.dead t

lemma hasMatchingChild_iff : q.hasMatchingChild pidArg = true ↔ ∃ t, q.Child pidArg t := by
  simp only [hasMatchingChild, Bool.or_eq_true, any_eq_true, Bool.and_eq_true, decide_eq_true_eq,
    isChild_iff, Child, all, mem_append]
  constructor
  · rintro (⟨t, ht, hne, hc⟩ | ⟨t, ht, hc⟩)
    · exact ⟨t, .inl ht, hne, hc⟩
    · exact ⟨t, .inr ht, h.cur_ne_dead ht, hc⟩
  · rintro ⟨t, ht | ht, hne, hc⟩
    · exact .inl ⟨t, ht, hne, hc⟩
    · exact .inr ⟨t, ht, hc⟩

/-- What a round of `sched_waitpid` with `-1` or a pid answers: a terminated child if there is one,
`-1` if there is no child at all, and otherwise `0` or another round. -/
lemma waitpid_result (hr : q.Runs) (hpid : -1 ≤ pidArg) (options : Nat) :
    (∃ c, q.Child pidArg c ∧ c.Terminated ∧
        (q.waitpid pidArg options).1 = .collected c (waitStatus c.exitCode)) ∨
      (∀ c, ¬ q.Child pidArg c) ∧ (q.waitpid pidArg options).1 = .returned (-1) ∨
      (∃ c, q.Child pidArg c) ∧ (∀ c, q.Child pidArg c → ¬ c.Terminated) ∧
        ((options &&& wnohang ≠ 0 ∧ (q.waitpid pidArg options).1 = .returned 0) ∨
          options &&& wnohang = 0 ∧ (q.waitpid pidArg options).1 = .blocked q.schedule.2) := by
  rw [waitpid, if_neg (by omega)]
  cases hcut : cut (isChild q.cur pidArg) q.dead with
  | some c =>
    obtain ⟨before, c, after⟩ := c
    obtain ⟨hsplit, hc, -⟩ := cut_eq_some hcut
    have hmem : c ∈ q.dead := by simp [hsplit]
    exact .inl ⟨c, ⟨mem_all.mpr (.inr (.inr hmem)), h.cur_ne_dead hmem,
      isChild_iff.mp hc⟩, h.dead c hmem, rfl⟩
  | none =>
    right
    by_cases hany : ∃ c, q.Child pidArg c
    · right
      refine ⟨hany, ?_, ?_⟩
      · rintro c ⟨hc, -, hmatch⟩ hterm
        have hno := cut_eq_none.mp hcut c ((h.terminated_iff hr hc).mp hterm)
        rw [isChild_iff.mpr hmatch] at hno
        cases hno
      · have hhas := (hasMatchingChild_iff h).mpr hany
        by_cases hopt : options &&& wnohang = 0 <;> simp [hhas, hopt]
    · left
      have hhas : q.hasMatchingChild pidArg = false :=
        Bool.eq_false_iff.mpr fun hh => hany ((hasMatchingChild_iff h).mp hh)
      exact ⟨fun c hc => hany ⟨c, hc⟩, by simp [hhas]⟩

end

/-! ## What becomes of a child -/

/-- The task `pid` is alive: on the run queue. -/
def Alive (q : Queue) (pid : Nat) : Prop := ∃ t ∈ q.ring, t.pid = pid

/-- The child has terminated, with the given exit code, and can be collected. -/
def HasZombie (q : Queue) (parent child : Nat) (code : Int) : Prop :=
  ∃ t ∈ q.dead, t.pid = child ∧ t.ppid = parent ∧ t.exitCode = code

variable {parent child : Nat} {code : Int} {freed : List Task}

lemma Alive.setCur (h : q.Alive parent) (hpid : c.pid = q.cur.pid) :
    Alive { q with cur := c } parent := by
  obtain ⟨a, ha, hapid⟩ := h
  rcases mem_cons.mp ha with rfl | ha
  · exact ⟨c, mem_cons_self, hpid.trans hapid⟩
  · exact ⟨a, mem_cons_of_mem _ ha, hapid⟩

/-- Reaping spares the children of a task on the run queue. -/
lemma ReapedTo.spares (h : q.Wf bound) (hr : ReapedTo q q' freed) (hp : parent ≠ 0)
    (halive : q.Alive parent) (ht : t ∈ q.all) (hppid : t.ppid = parent) :
    t ∈ q'.all ∧ (t ∈ q.dead → t ∈ q'.dead) ∧ (t = q.cur → t = q'.cur) ∧
      (t ∈ q.rest → t ∈ q'.rest) := by
  have hgone : parent ∉ freed.map Task.pid := by
    intro hm
    obtain ⟨a, ha, hapid⟩ := halive
    have hnd := hr.pids.nodup_iff.mpr h.pids
    have hain : a.pid ∈ q'.all.map Task.pid := by
      rcases mem_cons.mp ha with rfl | ha
      · rw [← hr.cur.pid_eq]
        exact mem_map_of_mem (mem_all.mpr (.inl rfl))
      · obtain ⟨a', ha', ho⟩ := exists_right_of_forall₂ hr.rest ha
        rw [← ho.pid_eq]
        exact mem_map_of_mem (mem_all.mpr (.inr (.inl ha')))
    exact (nodup_append.mp hnd).2.2 _ hain _ hm hapid
  have hsame : ∀ {t'}, OrphanedBy (freed.map Task.pid) t t' → t' = t :=
    fun ho => ho.eq_of_notMem (hppid ▸ hgone)
  have hcur : t = q.cur → t = q'.cur := by
    rintro rfl
    exact (hsame hr.cur).symm
  have hrest : t ∈ q.rest → t ∈ q'.rest := by
    intro hm
    obtain ⟨t', ht', ho⟩ := exists_right_of_forall₂ hr.rest hm
    exact hsame ho ▸ ht'
  have hdead : t ∈ q.dead → t ∈ q'.dead := by
    intro hm
    obtain ⟨l, hl, hperm⟩ := hr.dead
    obtain ⟨t', ht', ho⟩ := exists_right_of_forall₂ hl hm
    rw [hsame ho] at ht'
    refine (mem_append.mp (hperm.mem_iff.mp ht')).resolve_right fun hf => hp ?_
    rw [← hppid, hr.parentless t hf]
  refine ⟨?_, hdead, hcur, hrest⟩
  rcases mem_all.mp ht with hm | hm | hm
  · exact mem_all.mpr (.inl (hcur hm))
  · exact mem_all.mpr (.inr (.inl (hrest hm)))
  · exact mem_all.mpr (.inr (.inr (hdead hm)))

/-- The record of `t` is still there, under the same parent; on the dead list it has not changed. -/
def Keeps (q q' : Queue) (t : Task) : Prop :=
  ∃ t' ∈ q'.all, t'.pid = t.pid ∧ t'.ppid = t.ppid ∧ (t ∈ q.dead → t' = t ∧ t' ∈ q'.dead)

lemma Keeps.of_mem (h : t ∈ q'.all) (hdead : t ∈ q.dead → t ∈ q'.dead) : Keeps q q' t :=
  ⟨t, h, rfl, rfl, fun hm => ⟨rfl, hdead hm⟩⟩

variable (h : q.Wf bound)
include h

/-- A task of the ring whose record was rewritten. -/
lemma Keeps.of_ring (ht : t ∈ q.ring) (t' : Task) (ht' : t' ∈ q'.all)
    (hpid : t'.pid = t.pid) (hppid : t'.ppid = t.ppid) : Keeps q q' t :=
  ⟨t', ht', hpid, hppid, fun hd => absurd hd (h.notMem_dead ht)⟩

/-- A switch changes the records of the two tasks of the ring only. -/
lemma switchTo_keeps {before after : List Task} {next : Task}
    (hsplit : q.rest = before ++ next :: after) (ht : t ∈ q.all) :
    Keeps q (q.switchTo before next after) t := by
  rw [switchTo_eq]
  rcases mem_all.mp ht with rfl | hrest | hdead
  · split
    · exact .of_ring h mem_cons_self (bury q.cur) (by simp [all]) rfl rfl
    · exact .of_ring h mem_cons_self (parked q.cur) (by simp [all, ring])
        (parked_pid _) (parked_ppid _)
  · have hring : t ∈ q.ring := mem_cons_of_mem _ hrest
    rw [hsplit] at hrest
    by_cases hnext : t = next
    · subst hnext
      refine .of_ring h hring { t with state := .running } ?_ rfl rfl
      split <;> simp [all, ring]
    · refine .of_ring h hring t ?_ rfl rfl
      simp only [mem_append, mem_cons, hnext, false_or] at hrest
      split <;> simp only [all, ring, mem_append, mem_cons] <;> tauto
  · split
    · exact .of_mem (by simp [all, hdead]) fun _ => mem_cons_of_mem _ hdead
    · exact .of_mem (by simp [all, hdead]) fun _ => hdead

/-- **`schedule`** keeps the children of a task on the run queue. -/
lemma schedule_keeps (hp : parent ≠ 0) (halive : q.Alive parent)
    (ht : t ∈ q.all) (hppid : t.ppid = parent) : Keeps q q.schedule.1 t := by
  have hr := q.reap_reapedTo
  obtain ⟨hall, hdead, -, -⟩ := hr.spares h hp halive ht hppid
  rcases q.schedule_cases with ⟨-, heq⟩ | ⟨before, next, after, hsome, heq⟩
  · rw [heq]
    exact .of_mem hall hdead
  · rw [heq]
    obtain ⟨t', ht', hpid', hppid', hd'⟩ := switchTo_keeps (h.reapedTo hr) (pick_eq_some hsome).1 hall
    exact ⟨t', ht', hpid', hppid', fun hm => hd' (hdead hm)⟩

/-- The current task rewrites its own record and calls `schedule`. -/
lemma schedule_keeps_after (hpid : c.pid = q.cur.pid) (hcppid : c.ppid = q.cur.ppid)
    (hstate : c.pid = 0 → c.state = .running ∨ c.state = .ready) (hp : parent ≠ 0)
    (halive : q.Alive parent) (ht : t ∈ q.all) (hppid : t.ppid = parent) :
    Keeps q (schedule { q with cur := c }).1 t := by
  have hwf := h.setCur hpid hstate
  have halive' := halive.setCur hpid
  rcases mem_all.mp ht with rfl | hm
  · obtain ⟨t', ht', hpid', hppid', -⟩ := schedule_keeps hwf hp halive'
      (t := c) (mem_all.mpr (.inl rfl)) (hcppid.trans hppid)
    exact .of_ring h mem_cons_self t' ht' (hpid'.trans hpid) (hppid'.trans hcppid)
  · exact schedule_keeps hwf hp halive' (mem_all.mpr (.inr hm)) hppid

/-- A child that exits is on the dead list afterwards, with its exit code, for its parent. -/
lemma taskExit_zombie (hidle : q.cur.pid ≠ 0) (hp : parent ≠ 0)
    (halive : q.Alive parent) (hppid : q.cur.ppid = parent) (code : Int) :
    (q.taskExit code).1.HasZombie parent q.cur.pid code := by
  have hwf := h.setCur (t := { q.cur with exitCode := code, state := .dead }) rfl
    fun h0 => absurd h0 hidle
  have halive' := halive.setCur (c := { q.cur with exitCode := code, state := .dead }) rfl
  rw [taskExit]
  generalize hq : ({ q with cur := { q.cur with exitCode := code, state := .dead } } : Queue) = q1
    at hwf halive' ⊢
  have hc1 : q1.cur = { q.cur with exitCode := code, state := .dead } := by rw [← hq]
  have hr := q1.reap_reapedTo
  have hwf1 := hwf.reapedTo hr
  have hcur : q1.cur = q1.reap.1.cur :=
    (hr.spares hwf hp halive' (mem_all.mpr (.inl rfl)) (by rw [hc1, hppid])).2.2.1 rfl
  have hdead : q1.reap.1.cur.state = .dead := by rw [← hcur, hc1]
  rcases q1.schedule_cases with ⟨hnone, -⟩ | ⟨before, next, after, -, heq⟩
  · -- the idle task is ready, so there was something to switch to
    exfalso
    obtain ⟨a, ha, ha0⟩ := hwf1.idle
    rcases mem_cons.mp ha with rfl | ha
    · rcases hwf1.cur ha0 with hs | hs <;> simp [hdead] at hs
    have hready := (hwf1.rest a ha).resolve_right fun hs => hs.2 ha0
    rcases (pick_eq_none hnone).2 with hs | hs
    · simp [hdead] at hs
    · have hf := hs a ha
      simp [idleReady, hready, ha0] at hf
  · rw [heq, switchTo_eq, if_pos hdead]
    exact ⟨bury q1.reap.1.cur, mem_cons_self, by rw [← hcur, hc1]; rfl,
      by rw [← hcur, hc1]; exact hppid, by rw [← hcur, hc1]; rfl⟩

end Queue

/-- Scheduling brings no pid that was not there. -/
lemma Queue.schedule_pids (q : Queue) : q.schedule.1.all.map Task.pid ⊆ q.all.map Task.pid := by
  have hreap := q.reap_reapedTo.pids_subset
  rcases q.schedule_cases with ⟨-, heq⟩ | ⟨before, next, after, hsome, heq⟩
  · rw [heq]
    exact hreap
  · rw [heq]
    exact fun pid hpid => hreap ((switchTo_pids (pick_eq_some hsome).1).subset hpid)

namespace Sched

/-- How often a run collects the task `child`. -/
def collections : Sched → List SchedOp → Nat → Nat
  | _, [], _ => 0
  | s, op :: ops, child =>
    (if (s.collected op).map Task.pid = some child then 1 else 0) + collections (s.step op) ops child

lemma collections_append (s : Sched) (ops ops' : List SchedOp) (child : Nat) :
    s.collections (ops ++ ops') child =
      s.collections ops child + (ops.foldl step s).collections ops' child := by
  induction ops generalizing s with
  | nil => simp [collections]
  | cons op ops ih => simp only [cons_append, collections, foldl_cons, ih, add_assoc]

variable {s : Sched} {op : SchedOp} {parent child : Nat} {t : Task} (h : s.Wf)
include h

/-- **One operation** keeps the children of a task on the run queue, or it is a `waitpid` of that
task that collects the child and asked for it. -/
lemma step_keeps (ha : s.Allowed op) (hp : parent ≠ 0) (halive : s.queue.Alive parent)
    (ht : t ∈ s.queue.all) (hppid : t.ppid = parent) :
    s.queue.Keeps (s.step op).queue t ∧ (s.collected op).map Task.pid ≠ some t.pid ∨
      s.queue.cur.pid = parent ∧ s.collected op = some t ∧ t ∈ s.queue.dead ∧
        (∃ pidArg options, op = .waitpid pidArg options ∧ (pidArg = -1 ∨ pidArg = t.pid)) ∧
        ∀ t' ∈ (s.step op).queue.all, t'.pid ≠ t.pid := by
  have hwf := h.queue
  have hm := step_move h ha
  generalize s.step op = s' at hm ⊢
  cases hm with
  | skip n hn _ hcol => exact .inl ⟨.of_mem ht id, by simp [hcol]⟩
  | enter ppid c _ _ hcol =>
    refine .inl ⟨.of_mem ?_ id, by simp [hcol]⟩
    simp only [Queue.insert, Queue.all, Queue.ring, mem_append, mem_cons] at ht ⊢
    tauto
  | yield c hpid hcppid hidle _ _ hcol =>
    exact .inl ⟨Queue.schedule_keeps_after hwf hpid hcppid hidle hp halive ht hppid, by simp [hcol]⟩
  | bury before after c hsplit =>
    refine .inl ⟨?_, by simp [collected]⟩
    by_cases htc : t = c
    · subst htc
      exact .of_ring hwf (by simp [Queue.ring, hsplit])
        { Queue.bury t with exitCode := -1 } (by simp [Queue.all]) rfl rfl
    · refine .of_mem ?_ fun hd => mem_cons_of_mem _ hd
      simp only [Queue.all, Queue.ring, hsplit, mem_append, mem_cons, htc, false_or] at ht ⊢
      tauto
  | collect before after c hsplit hc _ hcol =>
    by_cases htc : t = c
    · subst htc
      have hmem : t ∈ s.queue.dead := by simp [hsplit]
      have hmatch := Queue.isChild_iff.mp hc
      refine .inr ⟨hmatch.1.symm.trans hppid, hcol, hmem, ⟨_, _, rfl, hmatch.2⟩, ?_⟩
      have hnd := hwf.pids
      rw [Queue.all, hsplit, ← append_assoc, map_append, map_cons, nodup_middle, ← map_append,
        append_assoc] at hnd
      intro t' ht' he
      exact (nodup_cons.mp hnd).1 (he ▸ mem_map_of_mem ht')
    have hpid : c.pid ≠ t.pid := fun he => htc
      (hwf.eq_of_pid ht (Queue.mem_all.mpr (.inr (.inr (by simp [hsplit])))) he.symm)
    refine .inl ⟨.of_mem ?_ fun hd => ?_, by simp [hcol, hpid]⟩
    · simp only [Queue.all, Queue.ring, hsplit, mem_append, mem_cons, htc, false_or] at ht ⊢
      tauto
    · simp only [hsplit, mem_append, mem_cons, htc, false_or] at hd ⊢
      exact hd
  | tick =>
    refine .inl ⟨?_, by simp [collected]⟩
    rcases Queue.mem_all.mp ht with rfl | hm | hm
    · exact .of_ring hwf mem_cons_self (Queue.wake (s.ticks + 1) s.queue.cur)
        (by simp [Queue.wakeSleepers, Queue.all, Queue.ring]) (Queue.wake_pid _ _)
        (Queue.wake_ppid _ _)
    · exact .of_ring hwf (mem_cons_of_mem _ hm) (Queue.wake (s.ticks + 1) t)
        (mem_append_left _ (mem_cons_of_mem _ (mem_map_of_mem hm)))
        (Queue.wake_pid _ _) (Queue.wake_ppid _ _)
    · exact .of_mem (Queue.mem_all.mpr (.inr (.inr hm))) id
  | reap =>
    obtain ⟨hall, hdead, -, -⟩ := s.queue.reap_reapedTo.spares hwf hp halive ht hppid
    exact .inl ⟨.of_mem hall hdead, by simp [collected]⟩

/-- A pid below the counter that no task has stays unused. -/
lemma step_unused (ha : s.Allowed op) (hlt : child < s.nextPid)
    (hno : child ∉ s.queue.all.map Task.pid) :
    child < (s.step op).nextPid ∧ child ∉ (s.step op).queue.all.map Task.pid ∧
      (s.collected op).map Task.pid ≠ some child := by
  have hm := step_move h ha
  generalize s.step op = s' at hm ⊢
  cases hm with
  | skip n hn _ hcol => exact ⟨hlt.trans_le hn, hno, by simp [hcol]⟩
  | enter ppid c _ _ hcol =>
    refine ⟨Nat.lt_succ_of_lt hlt, fun hm => ?_, by simp [hcol]⟩
    simp only [Queue.all, Queue.ring, Queue.insert, map_append, map_cons, map_nil,
      mem_append, mem_cons, freshTask, not_mem_nil, or_false] at hno hm
    have hne : child ≠ s.nextPid := by omega
    tauto
  | yield c hpid _ _ _ _ hcol =>
    refine ⟨hlt, fun hm => hno ?_, by simp [hcol]⟩
    simpa [Queue.all, Queue.ring, hpid] using Queue.schedule_pids _ hm
  | bury before after c hsplit =>
    refine ⟨hlt, fun hm => hno ?_, by simp [collected]⟩
    simp only [Queue.all, Queue.ring, hsplit, map_append, map_cons, mem_append,
      mem_cons, Queue.bury] at hm ⊢
    tauto
  | collect before after c hsplit _ _ hcol =>
    simp only [Queue.all, Queue.ring, hsplit, map_append, map_cons, mem_append, mem_cons] at hno
    refine ⟨hlt, fun hm => hno ?_, fun he => hno ?_⟩
    · simp only [Queue.all, Queue.ring, map_append, map_cons, mem_append, mem_cons] at hm
      tauto
    · rw [hcol] at he
      exact .inr (.inr (.inl (Option.some.inj he).symm))
  | tick =>
    refine ⟨hlt, ?_, by simp [collected]⟩
    simpa [Queue.wakeSleepers, Queue.all, Queue.ring, Queue.wake_pid, Function.comp_def] using hno
  | reap =>
    exact ⟨hlt, fun hm => hno (s.queue.reap_reapedTo.pids_subset hm), by simp [collected]⟩

section
variable (hops : Obeys Allowed step s ops)
include hops

lemma collections_unused (hlt : child < s.nextPid) (hno : child ∉ s.queue.all.map Task.pid) :
    child ∉ (ops.foldl step s).queue.all.map Task.pid ∧ s.collections ops child = 0 := by
  induction ops generalizing s with
  | nil => exact ⟨hno, rfl⟩
  | cons op ops ih =>
    obtain ⟨hlt', hno', hcol⟩ : _ ∧ _ ∧ (s.collected op).map Task.pid ≠ some child :=
      step_unused h hops.1 hlt hno
    obtain ⟨hfin, hcount⟩ := ih (step_wf h hops.1) hops.2 hlt' hno'
    exact ⟨hfin, by rw [collections, if_neg hcol, hcount]⟩

/-- **A child is collected once.** As long as the parent is on the run queue, the record of a child
stays until one `waitpid` returns its pid, and then it is gone for good; a record on the dead list
does not change until then. -/
lemma child_collected_once (hp : parent ≠ 0)
    (halive : ∀ part, part <+: ops → (part.foldl step s).queue.Alive parent) (ht : t ∈ s.queue.all)
    (hppid : t.ppid = parent) :
    s.collections ops t.pid = 0 ∧ s.queue.Keeps (ops.foldl step s).queue t ∨
      s.collections ops t.pid = 1 ∧ t.pid ∉ (ops.foldl step s).queue.all.map Task.pid := by
  induction ops generalizing s t with
  | nil => exact .inl ⟨rfl, .of_mem ht id⟩
  | cons op ops ih =>
    have hnow : s.queue.Alive parent := halive [] nil_prefix
    have hlater : ∀ part, part <+: ops → (part.foldl step (s.step op)).queue.Alive parent :=
      fun part hpart => halive (op :: part) (by simpa using hpart)
    have hwf' := step_wf h hops.1
    rcases step_keeps h hops.1 hp hnow ht hppid with ⟨⟨t', ht', hpid', hppid', hd'⟩, hcol⟩ |
        ⟨-, hcol, -, -, hgone⟩
    · rw [collections, if_neg hcol, zero_add]
      rcases ih hwf' hops.2 hlater ht' (hppid'.trans hppid) with ⟨hcount, t'', ht'', hpid'', hppid'',
          hd''⟩ | ⟨hcount, hno⟩
      · left
        refine ⟨hpid' ▸ hcount, t'', ht'', hpid''.trans hpid', hppid''.trans hppid', fun hm => ?_⟩
        obtain ⟨rfl, hm'⟩ := hd' hm
        exact hd'' hm'
      · exact .inr ⟨hpid' ▸ hcount, hpid' ▸ hno⟩
    right
    have hno : t.pid ∉ (s.step op).queue.all.map Task.pid := by
      intro hm
      obtain ⟨t', ht', he⟩ := mem_map.mp hm
      exact hgone t' ht' he
    have hlt : t.pid < (s.step op).nextPid := by
      refine lt_of_lt_of_le (h.queue.lt t ht) ?_
      cases op with
      | create c => exact Nat.le_succ _
      | fork c ok => cases ok <;> exact Nat.le_succ _
      | _ => exact le_rfl
    obtain ⟨hfin, hcount⟩ : _ ∧ (s.step op).collections ops t.pid = 0 :=
      collections_unused hwf' hops.2 hlt hno
    exact ⟨by rw [collections, hcol, hcount]; simp, hfin⟩

/-- While the parent does not run, nobody collects its children. -/
lemma child_stays (hp : parent ≠ 0)
    (halive : ∀ part, part <+: ops → (part.foldl step s).queue.Alive parent)
    (haway : ∀ part, part <+: ops → part ≠ ops → (part.foldl step s).queue.cur.pid ≠ parent)
    (ht : t ∈ s.queue.all) (hppid : t.ppid = parent) :
    ∃ t' ∈ (ops.foldl step s).queue.all, t'.pid = t.pid ∧ t'.ppid = parent := by
  induction ops generalizing s t with
  | nil => exact ⟨t, ht, rfl, hppid⟩
  | cons op ops ih =>
    have hnow : s.queue.Alive parent := halive [] nil_prefix
    rcases step_keeps h hops.1 hp hnow ht hppid with ⟨⟨t', ht', hpid', hppid', -⟩, -⟩ | ⟨hcur, -⟩
    · obtain ⟨t'', ht'', hpid'', hppid''⟩ := ih (step_wf h hops.1) hops.2
        (fun part hpart => halive (op :: part) (by simpa using hpart))
        (fun part hpart hne => haway (op :: part) (by simpa using hpart) (by simpa using hne))
        ht' (hppid'.trans hppid)
      exact ⟨t'', ht'', hpid''.trans hpid', hppid''⟩
    · exact absurd hcur (haway [] nil_prefix (by simp))

end

/-- A child that is killed while its parent is on the run queue waits for it on the dead list. -/
lemma killTask_zombie {pid : Nat} (hkill : (s.queue.killTask pid).1 = 0)
    (hp : parent ≠ 0) (halive : s.queue.Alive parent) (ht : t ∈ s.queue.all) (hpid : t.pid = pid)
    (hppid : t.ppid = parent) :
    ∃ code, (s.step (.kill pid)).queue.HasZombie parent pid code := by
  rcases s.queue.killTask_cases pid with heq | ⟨hne, hself, heq⟩ | ⟨-, -, before, c, after, hsplit, hc,
      heq⟩
  · rw [heq] at hkill
    cases hkill
  · have hcur : t = s.queue.cur :=
      h.queue.eq_of_pid ht (Queue.mem_all.mpr (.inl rfl)) (hpid.trans hself.symm)
    refine ⟨0, ?_⟩
    simp only [step, heq]
    rw [← hself]
    exact Queue.taskExit_zombie h.queue (fun h0 => hne (hself.symm.trans h0)) hp halive
      (hcur ▸ hppid) 0
  have htc : t = c := h.queue.eq_of_pid ht
    (Queue.mem_all.mpr (.inr (.inl (by simp [hsplit])))) (hpid.trans hc.symm)
  subst htc
  refine ⟨-1, ?_⟩
  simp only [step, heq]
  exact ⟨{ Queue.bury t with exitCode := -1 }, mem_cons_self, hpid, hppid, rfl⟩

end Sched
end FermiOs
