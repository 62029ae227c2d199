import FermiOs.Sched.Lifecycle

/-!
# Bounded bypass

How long a ready task waits. The ranking is the distance of the task behind the current one in the
ring: `schedule` takes the first ready task it meets, so it never passes over a ready one, and every
other operation adds tasks right before the current one, where they are last in line.
-/

namespace FermiOs
open Library List

namespace Queue

/-- How many `next` pointers lead from the current task to the task `pid`. -/
def distance (q : Queue) (pid : Nat) : Nat := (q.ring.map Task.pid).idxOf pid

/-- The task `pid` is on the run queue and ready. -/
def ReadyAt (q : Queue) (pid : Nat) : Prop := ∃ t ∈ q.ring, t.pid = pid ∧ t.state = .ready

variable {q q' : Queue} {pid : Nat}

lemma ReadyAt.mem (h : q.ReadyAt pid) : pid ∈ q.ring.map Task.pid := by
  obtain ⟨t, ht, rfl, -⟩ := h
  exact mem_map_of_mem ht

lemma distance_eq_zero_iff : q.distance pid = 0 ↔ q.cur.pid = pid := by
  by_cases hcur : q.cur.pid = pid <;> simp [distance, ring, hcur]

lemma distance_congr (h : q'.ring.map Task.pid = q.ring.map Task.pid) :
    q'.distance pid = q.distance pid := by
  rw [distance, h, distance]

/-- Tasks that enter do so behind everyone. -/
lemma distance_insert (h : pid ∈ q.ring.map Task.pid) (t : Task) :
    (q.insert t).distance pid = q.distance pid := by
  have hring : (q.insert t).ring = q.ring ++ [t] := rfl
  rw [distance, hring, map_append, idxOf_append, if_pos h, distance]

/-- A task that leaves the ring only brings those behind it nearer. -/
lemma distance_remove {before after : List Task} {t : Task}
    (hsplit : q.rest = before ++ t :: after) (hne : t.pid ≠ pid) (dead : List Task) :
    Queue.distance { q with rest := before ++ after, dead := dead } pid ≤ q.distance pid := by
  by_cases hcur : q.cur.pid = pid
  · simp [distance, ring, hcur]
  · by_cases hb : pid ∈ before.map Task.pid <;>
      simp [distance, ring, hsplit, hcur, hne, idxOf_append, hb]

lemma ReapedTo.distance_eq {freed : List Task} (h : ReapedTo q q' freed) :
    q'.distance pid = q.distance pid := by
  apply distance_congr
  simp only [ring, map_cons, h.cur.pid_eq, h.map_pid_rest]

/-- **One call of `schedule`** selects a ready task or moves the current position towards it. -/
lemma schedule_distance {bound : Nat} (h : q.Wf bound) (hpid : pid ≠ 0)
    (hready : q.ReadyAt pid) (hcur : q.cur.pid ≠ pid) :
    q.schedule.1.cur.pid = pid ∨ q.schedule.1.distance pid + 1 ≤ q.distance pid := by
  have hr := q.reap_reapedTo
  have hwf := h.reapedTo hr
  -- the task is still ready, and it is behind the current one
  obtain ⟨t, ht, rfl, hstate⟩ : ∃ t ∈ q.reap.1.rest, t.pid = pid ∧ t.state = .ready := by
    obtain ⟨t, ht, htpid, hstate⟩ := hready
    rcases mem_cons.mp ht with rfl | ht
    · exact absurd htpid hcur
    · obtain ⟨t', ht', ho⟩ := exists_right_of_forall₂ hr.rest ht
      exact ⟨t', ht', ho.pid_eq.trans htpid, ho.state_eq.trans hstate⟩
  have hrun : runnable t = true := by simp [runnable, hstate, hpid]
  rw [← hr.distance_eq]
  rcases q.schedule_cases with ⟨hnone, -⟩ | ⟨before, next, after, hsome, heq⟩
  · exact absurd ((pick_eq_none hnone).1 t ht) (by simp [hrun])
  obtain ⟨hsplit, -, ⟨-, hbefore⟩ | ⟨-, -, hall⟩⟩ := pick_eq_some hsome
  · rw [heq]
    by_cases hnext : next.pid = t.pid
    · left
      rw [switchTo_eq]
      split <;> exact hnext
    right
    have htb : t.pid ∉ before.map Task.pid := by
      intro hm
      obtain ⟨t', ht', he⟩ := mem_map.mp hm
      have hmem' : t' ∈ q.reap.1.all := mem_all.mpr (.inr (.inl (hsplit ▸ mem_append_left _ ht')))
      obtain rfl := hwf.eq_of_pid hmem' (mem_all.mpr (.inr (.inl ht))) he
      simp [hbefore t' ht'] at hrun
    have hta : t.pid ∈ after.map Task.pid := by
      rw [hsplit] at ht
      rcases mem_append.mp ht with ht | ht
      · exact absurd (mem_map_of_mem ht) htb
      · rcases mem_cons.mp ht with rfl | ht
        · exact absurd rfl hnext
        · exact mem_map_of_mem ht
    have hc : q.reap.1.cur.pid ≠ t.pid := hr.cur.pid_eq ▸ hcur
    have hnew : (q.reap.1.switchTo before next after).distance t.pid =
        (after.map Task.pid).idxOf t.pid + 1 := by
      rw [switchTo_eq]
      split <;>
        simp [distance, ring, idxOf_append, hta, hnext]
    have hold : q.reap.1.distance t.pid =
        before.length + ((after.map Task.pid).idxOf t.pid + 1) + 1 := by
      simp [distance, ring, hsplit, idxOf_append, htb, hnext, hc]
      omega
    dsimp only
    omega
  · exact absurd (hall t ht) (by simp [hrun])

end Queue

namespace Sched

/-- The calls of `schedule` in a run. -/
def scheduleCalls : Sched → List SchedOp → Nat
  | _, [] => 0
  | s, op :: ops => s.callsOf op + scheduleCalls (s.step op) ops

/-- A call of `schedule`, by an operation that changed the record of the current task before. -/
lemma schedule_toward {s : Sched} (h : s.Wf) {pid : Nat} (hpid : pid ≠ 0)
    (hready : s.queue.ReadyAt pid) (hcur : s.queue.cur.pid ≠ pid) {t : Task}
    (ht : t.pid = s.queue.cur.pid) (hstate : t.pid = 0 → t.state = .running ∨ t.state = .ready) :
    (Queue.schedule { s.queue with cur := t }).1.cur.pid = pid ∨
      (Queue.schedule { s.queue with cur := t }).1.distance pid + 1 ≤ s.queue.distance pid := by
  have hdist : Queue.distance { s.queue with cur := t } pid = s.queue.distance pid :=
    Queue.distance_congr (by simp [Queue.ring, ht])
  rw [← hdist]
  refine Queue.schedule_distance (h.queue.setCur ht hstate) hpid ?_ (ht ▸ hcur)
  obtain ⟨t', ht', htpid, hst⟩ := hready
  rcases mem_cons.mp ht' with rfl | ht'
  · exact absurd htpid hcur
  · exact ⟨t', mem_cons_of_mem _ ht', htpid, hst⟩

/-- **One operation**: while the task is ready and not yet chosen, every call of `schedule` brings it
nearer and nothing takes it farther away. -/
lemma step_toward {s : Sched} (h : s.Wf) {op : SchedOp} (ha : s.Allowed op) {pid : Nat}
    (hpid : pid ≠ 0) (hready : s.queue.ReadyAt pid) (hcur : s.queue.cur.pid ≠ pid)
    (hready' : (s.step op).queue.cur.pid ≠ pid → (s.step op).queue.ReadyAt pid) :
    (s.step op).queue.cur.pid = pid ∧ s.callsOf op ≤ 1 ∨
      (s.step op).queue.distance pid + s.callsOf op ≤ s.queue.distance pid := by
  have hm := step_move h ha
  generalize s.step op = s' at hm hready' ⊢
  cases hm with
  | skip n hn hcalls => exact .inr (by rw [hcalls]; exact le_rfl)
  | enter ppid t hppid hcalls =>
    exact .inr (by rw [hcalls]; exact (Queue.distance_insert hready.mem _).le)
  | yield c hcpid _ hidle _ hcalls =>
    rw [hcalls]
    exact (schedule_toward h hpid hready hcur hcpid hidle).imp (fun he => ⟨he, le_rfl⟩) id
  | bury before after t hsplit hidle hcalls =>
    right
    have hne : t.pid ≠ pid := by
      -- the killed task left the ring, the ready one is still there
      rintro rfl
      obtain ⟨t', ht', htpid, -⟩ := hready' hcur
      have hring : t' ∈ s.queue.cur :: (before ++ after) := ht'
      have hnd : ((s.queue.cur :: (before ++ t :: after)).map Task.pid).Nodup := by
        have hall := h.queue.pids
        rw [Queue.all, Queue.ring, hsplit, map_append] at hall
        exact hall.of_append_left
      have hperm : (s.queue.cur :: (before ++ t :: after)).Perm
          (t :: (s.queue.cur :: (before ++ after))) :=
        (perm_middle.cons _).trans (.swap _ _ _)
      have hnd' := (hperm.map Task.pid).nodup_iff.mp hnd
      exact (nodup_cons.mp hnd').1 (htpid ▸ mem_map_of_mem hring)
    rw [hcalls]
    exact Queue.distance_remove hsplit hne _
  | collect before after c hsplit hchild hcalls =>
    right
    rw [hcalls]
    exact (Queue.distance_congr rfl).le
  | tick =>
    right
    apply le_of_eq
    refine Queue.distance_congr ?_
    simp [Queue.wakeSleepers, Queue.ring, Queue.wake_pid, Function.comp_def]
  | reap => exact .inr s.queue.reap_reapedTo.distance_eq.le

/-- **Bounded bypass.** A task other than the idle one that is ready at distance `d` and stays ready
until it is chosen is chosen within `d` calls of `schedule`, whatever the tasks and the timer do in
between. -/
theorem selected_within_distance {s : Sched} (hs : s.Reachable) {pid : Nat} (hpid : pid ≠ 0)
    {ops : List SchedOp} (hops : Obeys Allowed step s ops)
    (hready : ∀ done, done <+: ops →
      (∀ part, part <+: done → (part.foldl step s).queue.cur.pid ≠ pid) →
      (done.foldl step s).queue.ReadyAt pid)
    (hcalls : s.queue.distance pid ≤ s.scheduleCalls ops) :
    ∃ done, done <+: ops ∧ (done.foldl step s).queue.cur.pid = pid ∧
      s.scheduleCalls done ≤ s.queue.distance pid := by
  have hwf := hs.wf
  clear hs
  induction ops generalizing s with
  | nil =>
    refine ⟨[], prefix_rfl, ?_, Nat.zero_le _⟩
    exact Queue.distance_eq_zero_iff.mp (Nat.le_zero.mp hcalls)
  | cons op ops ih =>
    by_cases hcur : s.queue.cur.pid = pid
    · exact ⟨[], nil_prefix, hcur, Nat.zero_le _⟩
    have hnil : ∀ part : List SchedOp, part <+: [] →
        (part.foldl step s).queue.cur.pid ≠ pid := by
      intro part hpart
      rw [prefix_nil.mp hpart]
      exact hcur
    have hnow : s.queue.ReadyAt pid := hready [] nil_prefix hnil
    have hone : [op] <+: op :: ops := by simp
    have hnext : (s.step op).queue.cur.pid ≠ pid → (s.step op).queue.ReadyAt pid := by
      intro hne
      refine hready [op] hone fun part hpart => ?_
      rcases prefix_cons_iff.mp hpart with rfl | ⟨l, rfl, hl⟩
      · exact hcur
      · rw [prefix_nil.mp hl]
        exact hne
    rcases step_toward hwf hops.1 hpid hnow hcur hnext with ⟨hsel, hle⟩ | hdist
    · refine ⟨[op], hone, hsel, ?_⟩
      have hpos : s.queue.distance pid ≠ 0 := fun h0 => hcur (Queue.distance_eq_zero_iff.mp h0)
      simp only [scheduleCalls]
      omega
    have hrec : (s.step op).queue.distance pid ≤ (s.step op).scheduleCalls ops := by
      simp only [scheduleCalls] at hcalls
      omega
    obtain ⟨done, hdone, hsel, hle⟩ := ih hops.2 (fun done hdone hno =>
      hready (op :: done) (by simpa using hdone) (fun part hpart => by
        rcases prefix_cons_iff.mp hpart with rfl | ⟨l, rfl, hl⟩
        · exact hcur
        · exact hno l hl)) hrec (step_wf hwf hops.1)
    refine ⟨op :: done, by simpa using hdone, hsel, ?_⟩
    simp only [scheduleCalls]
    omega

/-- Two tasks are created, and the second is chosen at the second call of `schedule`. -/
theorem selected_within_distance_two : ∃ done, done <+: [SchedOp.schedule, .schedule] ∧
      (done.foldl step ([SchedOp.create idleTask, .create idleTask].foldl step boot)).queue.cur.pid
        = 2 ∧
      ([SchedOp.create idleTask, .create idleTask].foldl step boot).scheduleCalls done ≤ 2 := by
  have hreach : Reachable ([SchedOp.create idleTask, .create idleTask].foldl step boot) :=
    reachable_run (by simp [Obeys, Allowed])
  refine selected_within_distance hreach (by decide) (by simp [Obeys, Allowed]) ?_ (by decide)
  intro done hdone hno
  have hmem : done ∈ inits [SchedOp.schedule, .schedule] := (mem_inits _ _).mpr hdone
  simp only [inits, map_cons, map_nil, mem_cons, not_mem_nil, or_false] at hmem
  rcases hmem with rfl | rfl | rfl
  · exact ⟨freshTask 2 0 idleTask, .tail _ (.tail _ (.head _)), rfl, rfl⟩
  · exact ⟨freshTask 2 0 idleTask, .tail _ (.head _), rfl, rfl⟩
  · exact absurd rfl (hno _ prefix_rfl)

end Sched
end FermiOs
