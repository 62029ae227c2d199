import FermiOs.Sched.Fairness

/-!
# How long a sleep lasts

`nanosleep` turns its request into milliseconds, rounding up, and `sleep_ms` turns milliseconds into
timer ticks, rounding down. A sleeper is woken by the tick its record names and by nothing else, so
the sleep covers the request exactly when the two roundings and the 64-bit sums lose nothing.
-/

namespace FermiOs
open Library List

/-- A request to sleep: `nanosleep` with the two fields of its timespec, or the sleep call with its
number of milliseconds. -/
inductive SleepRequest
  | nanosleep (sec nsec : Nat)
  | sleep (ms : Nat)

namespace SleepRequest

/-- The requests that are not refused. -/
def Accepted : SleepRequest → Prop
  | .nanosleep sec nsec => sec < 2 ^ 63 ∧ nsec < 10 ^ 9
  | .sleep ms => ms < 2 ^ 64

/-- The argument `sleep_ms` is called with, if it is called. -/
def sleepArg : SleepRequest → Option Nat
  | .nanosleep sec nsec =>
    let ms := (sec * 1000 + (nsec + 999999) / 1000000) % 2 ^ 64
    if ms ≠ 0 then some ms else none
  | .sleep ms => some ms

/-- The duration asked for, in nanoseconds. -/
def nanos : SleepRequest → Nat
  | .nanosleep sec nsec => sec * 10 ^ 9 + nsec
  | .sleep ms => ms * 10 ^ 6

/-- The ticks of 10 ms that cover the duration. -/
def ticksToCover (r : SleepRequest) : Nat := (r.nanos + (10 ^ 7 - 1)) / 10 ^ 7

/-- The milliseconds that cover the duration. -/
def millis (r : SleepRequest) : Nat := (r.nanos + (10 ^ 6 - 1)) / 10 ^ 6

lemma sleepArg_eq {r : SleepRequest} (h : r.Accepted) :
    r.sleepArg = some (r.millis % 2 ^ 64) ∨ r.sleepArg = none ∧ r.millis % 2 ^ 64 = 0 := by
  cases r with
  | nanosleep sec nsec =>
    have hmillis : (SleepRequest.nanosleep sec nsec).millis =
        sec * 1000 + (nsec + 999999) / 1000000 := by
      simp only [millis, nanos]
      omega
    rw [hmillis, sleepArg]
    split_ifs with hzero
    · exact .inl rfl
    · exact Or.inr ⟨rfl, not_not.mp hzero⟩
  | sleep ms =>
    have hlt : ms < 2 ^ 64 := h
    have hmillis : (SleepRequest.sleep ms).millis = ms := by
      simp only [millis, nanos]
      omega
    rw [hmillis, Nat.mod_eq_of_lt hlt]
    exact .inl rfl

lemma ticksToCover_eq (r : SleepRequest) : r.ticksToCover = (r.millis + 9) / 10 := by
  simp only [ticksToCover, millis]
  omega

end SleepRequest

/-- The tick `sleep_ms` waits for. -/
def sleepDue (ticks ms : Nat) : Nat := (ticks + if ms / 10 = 0 then 1 else ms / 10) % 2 ^ 64

/-- No conversion of the request loses anything. -/
def SleepExact (ticks millis : Nat) : Prop :=
  millis ≤ 10 ∨ millis % 10 = 0 ∧ millis < 2 ^ 64 ∧ ticks + millis / 10 < 2 ^ 64

lemma SleepExact.covered {ticks millis : Nat} (h : SleepExact ticks millis) :
    (millis + 9) / 10 ≤ 1 ∨ ticks + (millis + 9) / 10 ≤ sleepDue ticks (millis % 2 ^ 64) := by
  rcases h with hone | ⟨hten, hlt, hsum⟩
  · omega
  · rw [Nat.mod_eq_of_lt hlt, sleepDue]
    split
    · omega
    · rw [Nat.mod_eq_of_lt hsum]
      omega

/-- Otherwise the task is awake too early, even if it waits for one tick in any case. -/
lemma sleepDue_early {ticks millis : Nat} (h : ¬ SleepExact ticks millis) :
    sleepDue ticks (millis % 2 ^ 64) - ticks - 1 + 1 < (millis + 9) / 10 := by
  have hms := Nat.mod_le millis (2 ^ 64)
  have hlt := Nat.mod_lt millis (show 2 ^ 64 > 0 by decide)
  generalize hneed : (if millis % 2 ^ 64 / 10 = 0 then 1 else millis % 2 ^ 64 / 10) = needed
  have hdue : sleepDue ticks (millis % 2 ^ 64) = (ticks + needed) % 2 ^ 64 := by
    rw [sleepDue, hneed]
  have hle : sleepDue ticks (millis % 2 ^ 64) ≤ ticks + needed := hdue ▸ Nat.mod_le _ _
  rw [SleepExact] at h
  by_cases hwhole : millis % 10 = 0 ∧ millis < 2 ^ 64
  · -- the milliseconds are exact, so the sum is not
    split at hneed <;> omega
  · clear hdue
    split at hneed <;> omega

namespace Queue
variable {q q' : Queue} {pid due : Nat}

/-- Wherever the task `pid` stands in the ring, it sleeps until the given tick. -/
def Asleep (q : Queue) (pid due : Nat) : Prop :=
  ∀ t ∈ q.ring, t.pid = pid → t.state = .sleeping ∧ t.sleepUntil = due

lemma Asleep.reapedTo (h : q.Asleep pid due) {freed : List Task} (hr : ReapedTo q q' freed) :
    q'.Asleep pid due := by
  have hkeep : ∀ {t t' : Task}, t ∈ q.ring → OrphanedBy (freed.map Task.pid) t t' → t'.pid = pid →
      t'.state = .sleeping ∧ t'.sleepUntil = due := by
    rintro t t' ht (rfl | ⟨-, -, rfl⟩) hpid
    · exact h _ ht hpid
    · exact h t ht hpid
  intro t' ht' hpid
  rcases mem_cons.mp ht' with rfl | ht'
  · exact hkeep mem_cons_self hr.cur hpid
  · obtain ⟨t, ht, ho⟩ := hr.rest_of_mem ht'
    exact hkeep (mem_cons_of_mem _ ht) ho hpid

/-- **`schedule`** passes over a sleeping task. -/
lemma Asleep.schedule (h : q.Asleep pid due) : q.schedule.1.Asleep pid due := by
  have hreap := h.reapedTo q.reap_reapedTo
  rcases q.schedule_cases with ⟨-, heq⟩ | ⟨before, next, after, hsome, heq⟩
  · rw [heq]
    exact hreap
  obtain ⟨hsplit, hready, -⟩ := pick_eq_some hsome
  have hold : ∀ t ∈ q.reap.1.rest, t.pid = pid → t.state = .sleeping ∧ t.sleepUntil = due :=
    fun t ht => hreap t (mem_cons_of_mem _ ht)
  rw [hsplit] at hold
  have hnext : next.pid ≠ pid := by
    intro he
    have hs := (hold next (by simp) he).1
    simp [hready] at hs
  have hcur : (parked q.reap.1.cur).pid = pid → (parked q.reap.1.cur).state = .sleeping ∧
      (parked q.reap.1.cur).sleepUntil = due := by
    intro he
    have hs := hreap _ mem_cons_self ((parked_pid _).symm.trans he)
    rwa [parked, if_neg (by simp [hs.1])]
  intro t ht hpid
  rw [heq, switchTo_eq] at ht
  split at ht <;> simp only [ring, mem_cons, mem_append] at ht
  · rcases ht with rfl | ht
    · exact absurd hpid hnext
    · exact hold t (by simp only [mem_append, mem_cons]; tauto) hpid
  · rcases ht with rfl | ht | rfl | ht
    · exact absurd hpid hnext
    · exact hold t (by simp [ht]) hpid
    · exact hcur hpid
    · exact hold t (by simp [ht]) hpid

/-- A task that is not dead stays in the ring. -/
lemma schedule_mem_ring (h : q.cur.state ≠ .dead) : ∃ t ∈ q.schedule.1.ring, t.pid = q.cur.pid := by
  have hr := q.reap_reapedTo
  rcases q.schedule_cases with ⟨-, heq⟩ | ⟨before, next, after, -, heq⟩
  · rw [heq]
    exact ⟨_, mem_cons_self, hr.cur.pid_eq⟩
  · rw [heq, switchTo_eq, if_neg (hr.cur.state_eq ▸ h)]
    exact ⟨parked q.reap.1.cur, by simp [ring], (parked_pid _).trans hr.cur.pid_eq⟩

end Queue

namespace Sched
variable {s : Sched} {op : SchedOp} {pid due start n : Nat}

/-- The call of `sleep_ms` a request leads to. -/
def request (s : Sched) (r : SleepRequest) : Sched :=
  match r.sleepArg with
  | some ms => s.step (.sleep ms)
  | none => s

/-- Whatever happens after the request, the task that made it is asleep until the ticks that cover the
duration have passed. -/
def SleepCovers (s : Sched) (r : SleepRequest) : Prop :=
  ∀ ops, Obeys Allowed step (s.request r) ops →
    ∀ t ∈ (ops.foldl step (s.request r)).queue.ring, t.pid = s.queue.cur.pid →
      t.state ≠ .sleeping → s.ticks + r.ticksToCover ≤ (ops.foldl step (s.request r)).ticks

/-- From the tick `start` on, the task `pid` sleeps at least to the tick `n`. -/
structure Sleeps (pid due start n : Nat) (s : Sched) : Prop where
  wf : s.Wf
  later : start ≤ s.ticks
  old : pid < s.nextPid
  asleep : s.ticks < n → s.queue.Asleep pid due

/-- **One operation.** Only a tick wakes the task, and none before its time. -/
lemma Sleeps.step (h : Sleeps pid due start n s) (hn : n ≤ start + 1 ∨ n ≤ due)
    (ha : s.Allowed op) : Sleeps pid due start n (s.step op) := by
  have hm := step_move h.wf ha
  have hwf := step_wf h.wf ha
  generalize s.step op = s' at hm hwf ⊢
  have hcur : s.ticks < n → s.queue.cur.pid ≠ pid := by
    intro hlt he
    have hs := (h.asleep hlt _ mem_cons_self he).1
    rcases h.wf.runs with hr | ⟨-, hr⟩ <;> simp [hr] at hs
  cases hm with
  | skip m hm => exact ⟨hwf, h.later, h.old.trans_le hm, h.asleep⟩
  | enter ppid c =>
    refine ⟨hwf, h.later, Nat.lt_succ_of_lt h.old, fun hlt t ht hpid => ?_⟩
    simp only [Queue.ring, Queue.insert, ← cons_append, mem_append, mem_singleton] at ht
    rcases ht with ht | rfl
    · exact h.asleep hlt t ht hpid
    · exact absurd hpid (Nat.ne_of_gt h.old)
  | yield c hcpid =>
    refine ⟨hwf, h.later, h.old, fun hlt => Queue.Asleep.schedule fun t ht hpid => ?_⟩
    rcases mem_cons.mp ht with rfl | ht
    · exact absurd (hcpid.symm.trans hpid) (hcur hlt)
    · exact h.asleep hlt t (mem_cons_of_mem _ ht) hpid
  | bury before after c hsplit =>
    refine ⟨hwf, h.later, h.old, fun hlt t ht => h.asleep hlt t ?_⟩
    simp only [Queue.ring, hsplit, mem_cons, mem_append] at ht ⊢
    tauto
  | collect => exact ⟨hwf, h.later, h.old, h.asleep⟩
  | tick =>
    refine ⟨hwf, Nat.le_succ_of_le h.later, h.old, fun hlt t ht hpid => ?_⟩
    have hring : t ∈ s.queue.ring.map (Queue.wake (s.ticks + 1)) := ht
    obtain ⟨x, hx, rfl⟩ := mem_map.mp hring
    have hasleep := h.asleep (Nat.lt_of_succ_lt hlt) x hx ((Queue.wake_pid _ _).symm.trans hpid)
    have hlater := h.later
    have hearly : ¬ x.sleepUntil ≤ s.ticks + 1 := by
      change s.ticks + 1 < n at hlt
      omega
    rwa [Queue.wake, if_neg fun hw => hearly hw.2.2]
  | reap => exact ⟨hwf, h.later, h.old, fun hlt => (h.asleep hlt).reapedTo s.queue.reap_reapedTo⟩

lemma Sleeps.run (h : Sleeps pid due start n s) (hn : n ≤ start + 1 ∨ n ≤ due)
    {ops : List SchedOp} (hops : Obeys Allowed Sched.step s ops) :
    Sleeps pid due start n (ops.foldl Sched.step s) := by
  induction ops generalizing s with
  | nil => exact h
  | cons op ops ih => exact ih (h.step hn hops.1) hops.2

/-- When the clock has reached its tick, a sleeper has been woken. -/
lemma ticks_wake (hpid : pid ≠ 0)
    (h : ∃ t ∈ s.queue.ring, t.pid = pid ∧ t.sleepUntil ≤ s.ticks + (n + 1)) :
    ∃ t ∈ ((replicate (n + 1) SchedOp.tick).foldl step s).queue.ring,
      t.pid = pid ∧ t.state ≠ .sleeping := by
  obtain ⟨t, ht, rfl, hle⟩ := h
  have hmem : Queue.wake (s.ticks + 1) t ∈ (s.step .tick).queue.ring := mem_map_of_mem ht
  induction n generalizing s t with
  | zero =>
    refine ⟨_, hmem, Queue.wake_pid _ _, ?_⟩
    rw [Queue.wake]
    split_ifs with hno
    · exact nofun
    · exact fun hs => hno ⟨hpid, hs, hle⟩
  | succ n ih =>
    have hle' : (Queue.wake (s.ticks + 1) t).sleepUntil ≤ (s.step .tick).ticks + (n + 1) := by
      change _ ≤ s.ticks + 1 + (n + 1)
      rw [Queue.wake]
      split
      · exact Nat.zero_le _
      · omega
    rw [← Queue.wake_pid (s.ticks + 1) t] at hpid ⊢
    exact ih _ hmem hle' hpid (mem_map_of_mem hmem)

lemma ticks_replicate (s : Sched) (n : Nat) :
    ((replicate n SchedOp.tick).foldl step s).ticks = s.ticks + n ∧
      Obeys Allowed step s (replicate n .tick) := by
  induction n generalizing s with
  | zero => exact ⟨rfl, trivial⟩
  | succ n ih =>
    obtain ⟨hticks, hobeys⟩ := ih (s.step .tick)
    exact ⟨hticks.trans (add_right_comm s.ticks 1 n), trivial, hobeys⟩

/-- After the call of `sleep_ms` the task is in the ring, asleep. -/
lemma sleep_asleep (h : s.Wf) (ms : Nat) :
    (s.step (.sleep ms)).queue.Asleep s.queue.cur.pid (sleepDue s.ticks ms) ∧
      ∃ t ∈ (s.step (.sleep ms)).queue.ring, t.pid = s.queue.cur.pid := by
  refine ⟨Queue.Asleep.schedule fun t ht hpid => ?_, Queue.schedule_mem_ring nofun⟩
  rcases mem_cons.mp ht with rfl | ht
  · exact ⟨rfl, rfl⟩
  · have hmem : t.pid ∈ (s.queue.rest ++ s.queue.dead).map Task.pid :=
      mem_map_of_mem (mem_append_left _ ht)
    exact absurd (hpid ▸ hmem) (nodup_cons.mp h.queue.pids).1

/-- **A sleep covers its duration** exactly when it needs one tick at most, or is a whole number of
ticks and neither the milliseconds nor the wake-up time leave 64 bits. -/
theorem sleep_covers_iff (hs : s.Reachable) (hcur : s.queue.cur.pid ≠ 0) {r : SleepRequest}
    (hr : r.Accepted) : s.SleepCovers r ↔ SleepExact s.ticks r.millis := by
  have hwf := hs.wf
  have hold := hwf.queue.lt _ (Queue.mem_all.mpr (.inl rfl))
  rw [SleepCovers, request, r.ticksToCover_eq]
  rcases SleepRequest.sleepArg_eq hr with harg | ⟨harg, hzero⟩
  · rw [harg]
    obtain ⟨hsleep, t, ht, hpid⟩ := sleep_asleep hwf (r.millis % 2 ^ 64)
    constructor
    · -- the ticks up to the wake-up time, one at least
      intro hcovers
      by_contra hno
      have hearly := sleepDue_early hno
      generalize sleepDue s.ticks (r.millis % 2 ^ 64) = due at hearly hsleep
      obtain ⟨hticks, hobeys⟩ := (s.step (.sleep (r.millis % 2 ^ 64))).ticks_replicate
        (due - s.ticks - 1 + 1)
      have hdue : t.sleepUntil ≤ s.ticks + (due - s.ticks - 1 + 1) := by
        rw [(hsleep t ht hpid).2]
        omega
      obtain ⟨t', ht', hpid', hawake⟩ := ticks_wake hcur ⟨t, ht, hpid, hdue⟩
      have hlate := hcovers _ hobeys t' ht' hpid' hawake
      rw [hticks] at hlate
      exact Nat.not_le_of_lt (Nat.add_lt_add_left hearly s.ticks) hlate
    · intro hexact ops hops t ht hpid hawake
      by_contra hearly
      have hstart : Sleeps s.queue.cur.pid (sleepDue s.ticks (r.millis % 2 ^ 64)) s.ticks
          (s.ticks + (r.millis + 9) / 10) (s.step (.sleep (r.millis % 2 ^ 64))) :=
        ⟨step_wf hwf hcur, le_rfl, hold, fun _ => hsleep⟩
      have hrun := hstart.run (hexact.covered.imp_left (Nat.add_le_add_left · s.ticks)) hops
      exact hawake (hrun.asleep (not_le.mp hearly) t ht hpid).1
  · -- a request for nothing, or one whose milliseconds vanish in 64 bits
    rw [harg]
    constructor
    · intro hcovers
      have hawake : s.queue.cur.state ≠ .sleeping := by
        rcases hwf.runs with hs | ⟨-, hs⟩ <;> simp [hs]
      have hnow : s.ticks + (r.millis + 9) / 10 ≤ s.ticks :=
        hcovers [] trivial s.queue.cur mem_cons_self rfl hawake
      exact .inl (by omega)
    · intro hexact ops hops t _ _ _
      have hstart : Sleeps s.queue.cur.pid 0 s.ticks 0 s := ⟨hwf, le_rfl, hold, nofun⟩
      have hlater := (hstart.run (.inl (Nat.zero_le _)) hops).later
      have hnone : r.millis = 0 := by
        rcases hexact with hle | ⟨-, hlt, -⟩
        · exact (Nat.mod_eq_of_lt (by omega)).symm.trans hzero
        · exact (Nat.mod_eq_of_lt hlt).symm.trans hzero
      rwa [hnone]

/-- A task is created and runs. -/
def oneTask : Sched := [SchedOp.create idleTask, .schedule].foldl step boot

lemma oneTask_reachable : oneTask.Reachable := reachable_run (by decide +kernel)

theorem sleep_covers_iff_twenty : oneTask.SleepCovers (.sleep 20) :=
  (sleep_covers_iff oneTask_reachable (by decide +kernel) (r := .sleep 20)
    (show 20 < 2 ^ 64 by decide)).mpr (.inr ⟨by decide, by decide, by decide +kernel⟩)

/-- A `nanosleep` of 15 ms is over after one tick. -/
theorem nanosleep_wakes_early : oneTask.Reachable ∧ oneTask.queue.cur.pid = 1 ∧
      SleepRequest.Accepted (.nanosleep 0 15000000) ∧
      ¬ oneTask.SleepCovers (.nanosleep 0 15000000) := by
  refine ⟨oneTask_reachable, by decide +kernel, ⟨by decide, by decide⟩, fun h => ?_⟩
  have hready : ∃ t ∈ ([SchedOp.tick].foldl step (oneTask.request (.nanosleep 0 15000000))).queue.ring,
      t.pid = 1 ∧ t.state ≠ .sleeping := by decide +kernel
  obtain ⟨t, ht, hpid, hawake⟩ := hready
  exact absurd (h [.tick] (by decide +kernel) t ht hpid hawake) (by decide +kernel)

end Sched
end FermiOs
