import FermiOs.Sched.RingSim

/-!
# Runs of the scheduler on its pointers

The operations of `sched.c` on the pointers, in any order, simulate those of `Sched.Lifecycle` on
the lists. What the lists keep is then read back as a statement about the pointers.
-/

namespace FermiOs
open Library List

/-- The operations, with the address `kmalloc` returns for a new record, null when it fails. -/
inductive RawOp
  | create (p : Nat) (t : Task)
  | fork (p : Nat) (t : Task) (ok : Bool)
  | schedule
  | exit (code : Int)
  | kill (pid : Nat)
  | sleep (ms : Nat)
  | tick
  | reap
  | waitpid (pidArg : Int) (options : Nat)

variable {m' : RawSched} {op : RawOp}

namespace RawSched

/-- `sched_init`. -/
def boot : RawSched where
  next := fun p => if p = idlePtr then idlePtr else 0
  task := fun _ => idleTask
  current := idlePtr
  deadList := 0
  ticks := 0
  nextPid := 1
  live := [idlePtr]
  frees := []

def step (m : RawSched) : RawOp → RawSched
  | .create p t =>
    if p = 0 then m
    else { m.insert p (freshTask m.nextPid 0 t) with nextPid := m.nextPid + 1 }
  | .fork p t ok =>
    if p = 0 then m
    else if ok then
      { m.insert p (freshTask m.nextPid (m.task m.current).pid t) with nextPid := m.nextPid + 1 }
    else { m with nextPid := m.nextPid + 1 }
  | .schedule => m.schedule
  | .exit code => m.taskExit code
  | .kill pid => (m.schedKillTask pid).2
  | .sleep ms => m.sleepMs ms
  | .tick => m.tick
  | .reap => m.schedReap
  | .waitpid pidArg options => (m.schedWaitpid pidArg options).2

/-- The idle task neither exits nor sleeps, and the heap hands out no record that is in use. -/
def Allowed (m : RawSched) : RawOp → Prop
  | .create p _ => p ∉ m.live
  | .fork p _ _ => p ∉ m.live
  | .exit _ => m.current ≠ idlePtr
  | .sleep _ => m.current ≠ idlePtr
  | _ => True

instance (m : RawSched) (op : RawOp) : Decidable (m.Allowed op) := by
  cases op <;> dsimp only [Allowed] <;> infer_instance

/-- The states reached after boot. -/
def Reachable (m : RawSched) : Prop := Reach (· = boot) Allowed step m

/-- The pointers represent the lists of `s`. -/
structure Simulates (m : RawSched) (s : Sched) (ring dead : List Nat) : Prop where
  repr : Repr m ring dead
  queue : s.queue = m.queue ring dead
  ticks : s.ticks = m.ticks
  nextPid : s.nextPid = m.nextPid

/-- The operation on the lists that an operation on the pointers amounts to. -/
def listOps : RawOp → List SchedOp
  | .create p t => if p = 0 then [] else [.create t]
  | .fork p t ok => if p = 0 then [] else [.fork t ok]
  | .schedule => [.schedule]
  | .exit code => [.exit code]
  | .kill pid => [.kill pid]
  | .sleep ms => [.sleep ms]
  | .tick => [.tick]
  | .reap => [.reap]
  | .waitpid pidArg options => [.waitpid pidArg options]

/-- From `m` to `m'` the pointers moved as the lists do under `ops`, and what was freed was off the
run queue. -/
structure Moves (m m' : RawSched) (s : Sched) (ops : List SchedOp) : Prop where
  sim : ∃ ring dead, Simulates m' (ops.foldl Sched.step s) ring dead
  obeys : Obeys Sched.Allowed Sched.step s ops
  frees : (∀ e ∈ m.frees, e.Safe) → ∀ e ∈ m'.frees, e.Safe

variable {dead ring : List Nat} {m : RawSched} {s : Sched}

lemma Quiet.frees_safe (h : Quiet m m') (hm : ∀ e ∈ m.frees, e.Safe) : ∀ e ∈ m'.frees, e.Safe := by
  obtain ⟨es, hes, hsafe⟩ := h.frees
  rw [hes]
  exact forall_mem_append.mpr ⟨hsafe, hm⟩

lemma Moves.refl (h : Simulates m s ring dead) : Moves m m s [] := ⟨⟨ring, dead, h⟩, trivial, id⟩

/-- An operation that touches neither the clock nor the pid counter. -/
lemma Moves.of_queue (op : SchedOp) (h : Simulates m s ring dead) (ha : s.Allowed op)
    (hticks : (s.step op).ticks = s.ticks) (hnextPid : (s.step op).nextPid = s.nextPid)
    (hm' : Becomes m m' (s.step op).queue) : Moves m m' s [op] := by
  obtain ⟨ring', dead', hrepr, hqueue, hquiet⟩ := hm'
  exact ⟨⟨ring', dead', hrepr, hqueue.symm, hticks.trans (h.ticks.trans hquiet.ticks.symm),
    hnextPid.trans (h.nextPid.trans hquiet.nextPid.symm)⟩, ⟨ha, trivial⟩, hquiet.frees_safe⟩

/-- A new record on the pointers is a new task on the lists. -/
lemma Moves.of_insert (op : SchedOp) (h : Simulates m s ring dead) {p : Nat} (hp : p ∉ m.live)
    (hp0 : p ≠ 0) {t : Task} (ha : s.Allowed op) (hqueue : (s.step op).queue = s.queue.insert t)
    (hticks : (s.step op).ticks = s.ticks) (hnextPid : (s.step op).nextPid = s.nextPid + 1) :
    Moves m { m.insert p t with nextPid := m.nextPid + 1 } s [op] := by
  obtain ⟨hrepr, hq⟩ := h.repr.insert hp hp0 t
  have hrepr' : Repr { m.insert p t with nextPid := m.nextPid + 1 } (ring ++ [p]) dead :=
    ⟨hrepr.cycle, hrepr.chain, hrepr.nodup, hrepr.null, hrepr.live, hrepr.idle, hrepr.idlePid⟩
  refine ⟨⟨ring ++ [p], dead, hrepr', ?_, hticks.trans h.ticks, hnextPid.trans (by rw [h.nextPid])⟩,
    ⟨ha, trivial⟩, id⟩
  change (s.step op).queue = _
  rw [hqueue, h.queue, ← hq]
  rfl

/-- **Every operation on the pointers** is the operation on the lists. -/
lemma step_moves (hsim : Simulates m s ring dead) (hs : s.Wf) (ha : m.Allowed op) :
    Moves m (m.step op) s (listOps op) := by
  have hwf : (m.queue ring dead).Wf s.nextPid := hsim.queue ▸ hs.queue
  have hcur : m.current ≠ idlePtr → s.queue.cur.pid ≠ 0 := by
    intro hne h0
    rw [hsim.queue] at h0
    exact hne ((hsim.repr.pid_eq_zero_iff (pidsDistinct_of_wf hwf) (by simp)).mp h0)
  cases op with
  | create p t =>
    simp only [step, listOps]
    split_ifs with hp0
    · exact .refl hsim
    · exact .of_insert (.create t) hsim ha hp0 trivial (by rw [← hsim.nextPid]; rfl) rfl rfl
  | fork p t ok =>
    simp only [step, listOps]
    split
    · exact .refl hsim
    rename_i hp0
    cases ok with
    | true =>
      refine .of_insert (.fork t true) hsim ha hp0 trivial ?_ rfl rfl
      rw [← hsim.nextPid]
      simp only [Sched.step, if_true]
      rw [hsim.queue]
      rfl
    | false =>
      have hr := hsim.repr
      have hr' : Repr { m with nextPid := m.nextPid + 1 } ring dead :=
        ⟨hr.cycle, hr.chain, hr.nodup, hr.null, hr.live, hr.idle, hr.idlePid⟩
      exact ⟨⟨ring, dead, hr', hsim.queue, hsim.ticks, congrArg (· + 1) hsim.nextPid⟩,
        ⟨trivial, trivial⟩, id⟩
  | schedule =>
    have hsched := hsim.repr.schedule hwf
    rw [← hsim.queue] at hsched
    exact .of_queue .schedule hsim trivial rfl rfl hsched
  | exit code =>
    have hexit := hsim.repr.taskExit hwf ha code
    rw [← hsim.queue] at hexit
    exact .of_queue (.exit code) hsim (hcur ha) rfl rfl hexit
  | kill pid =>
    obtain ⟨hkill, -⟩ := hsim.repr.schedKillTask hwf pid
    rw [← hsim.queue] at hkill
    exact .of_queue (.kill pid) hsim trivial rfl rfl hkill
  | sleep ms =>
    have hsleep := hsim.repr.sleepMs hwf ha ms
    rw [← hsim.queue, ← hsim.ticks] at hsleep
    exact .of_queue (.sleep ms) hsim (hcur ha) rfl rfl hsleep
  | tick =>
    obtain ⟨hrepr, hqueue⟩ := hsim.repr.tick
    rw [← hsim.queue, ← hsim.ticks] at hqueue
    exact ⟨⟨ring, dead, hrepr, hqueue.symm, congrArg (· + 1) hsim.ticks, hsim.nextPid⟩,
      ⟨trivial, trivial⟩, id⟩
  | reap =>
    obtain ⟨dead', hrepr, hqueue, hframe⟩ := hsim.repr.schedReap
    rw [← hsim.queue] at hqueue
    exact .of_queue .reap hsim trivial rfl rfl ⟨ring, dead', hrepr, hqueue, hframe.toQuiet⟩
  | waitpid pidArg options =>
    obtain ⟨hwait, -⟩ := hsim.repr.schedWaitpid hwf pidArg options
    rw [← hsim.queue] at hwait
    exact .of_queue (.waitpid pidArg options) hsim trivial rfl rfl hwait

/-- What holds in every reachable state. -/
structure Inv (m : RawSched) : Prop where
  sim : ∃ s ring dead, Simulates m s ring dead ∧ s.Reachable
  frees : ∀ e ∈ m.frees, e.Safe

lemma boot_simulates : Simulates boot Sched.boot [] [] := by
  refine ⟨⟨⟨rfl, by simp [boot]⟩, rfl, ?_, ?_, .refl _, ?_, rfl⟩, rfl, rfl, rfl⟩
  · simp
  · simp [boot, idlePtr]
  · simp [boot]

lemma boot_inv : boot.Inv :=
  ⟨⟨Sched.boot, [], [], boot_simulates, .start rfl⟩, by simp [boot]⟩

lemma step_inv (h : m.Inv) (ha : m.Allowed op) : (m.step op).Inv := by
  obtain ⟨⟨s, ring, dead, hsim, hs⟩, hfrees⟩ := h
  have hmoves := step_moves hsim hs.wf ha
  obtain ⟨ring', dead', hsim'⟩ := hmoves.sim
  exact ⟨⟨_, ring', dead', hsim', Reach.obeys hs hmoves.obeys⟩, hmoves.frees hfrees⟩

/-- **Simulation**: every state of the pointers represents a state the lists reach. -/
lemma Reachable.inv (h : m.Reachable) : m.Inv :=
  Reach.invariant Inv (fun m (hm : m = boot) => hm ▸ boot_inv) (fun _ _ hm ha => step_inv hm ha) h

/-- **The run queue and the dead list.** In every reachable state the `next` pointers lead from the
current task around one cycle with the idle task on it, and from `dead_list` down a chain to null;
no record is twice on them, the records on them are exactly those created and not freed, at most one
of these is running, and no record was ever freed while it was current or on the run queue. -/
theorem run_queue_invariant {m : RawSched} (h : m.Reachable) :
    ∃ ring dead, Path m.next m.current (m.current :: ring) m.current ∧
      idlePtr ∈ m.current :: ring ∧ Path m.next m.deadList dead 0 ∧
      (m.current :: ring ++ dead).Nodup ∧ 0 ∉ m.current :: ring ++ dead ∧
      m.live.Nodup ∧ (∀ p, p ∈ m.live ↔ p ∈ m.current :: ring ∨ p ∈ dead) ∧
      (∀ p ∈ m.live, ∀ p' ∈ m.live, (m.task p).state = .running → (m.task p').state = .running →
        p = p') ∧
      ∀ e ∈ m.frees, e.Safe := by
  obtain ⟨⟨s, ring, dead, hsim, hs⟩, hfrees⟩ := h.inv
  have hr := hsim.repr
  have hwf : (m.queue ring dead).Wf s.nextPid := hsim.queue ▸ hs.wf.queue
  -- a running record can only be the current one
  have hrunning : ∀ p ∈ m.live, (m.task p).state = .running → p = m.current := by
    intro p hp hrun
    by_contra hne
    have hcells := hr.live.mem_iff.mp hp
    rcases mem_append.mp hcells with hring | hdead
    · have hring : p ∈ ring := (mem_cons.mp hring).resolve_left hne
      rcases hwf.rest _ (mem_map_of_mem hring) with hst | ⟨hst, -⟩ <;> simp [hrun] at hst
    · rcases hwf.dead _ (mem_map_of_mem hdead) with hst | hst <;> simp [hrun] at hst
  refine ⟨ring, dead, hr.cycle, hr.idle, hr.chain, hr.nodup, hr.null,
    hr.live.nodup_iff.mpr hr.nodup, ?_, ?_, hfrees⟩
  · intro p
    rw [hr.live.mem_iff, mem_append]
  · intro p hp p' hp' hrun hrun'
    rw [hrunning p hp hrun, hrunning p' hp' hrun']

/-- A task is created and runs, forks, and collects its child after the child has exited. -/
def familyRun : RawSched :=
  [RawOp.create 8 idleTask, .schedule, .fork 9 idleTask true, .schedule, .exit 3, .waitpid (-1) 0].foldl
    step boot

theorem run_queue_invariant_family : familyRun.live = [8, idlePtr] ∧ ∃ ring dead,
      Path familyRun.next familyRun.current (familyRun.current :: ring) familyRun.current ∧
      Path familyRun.next familyRun.deadList dead 0 ∧ ∀ e ∈ familyRun.frees, e.Safe := by
  have hboot : Reach (· = boot) Allowed step boot := .start rfl
  obtain ⟨ring, dead, hcycle, -, hchain, -, -, -, -, -, hfrees⟩ :=
    run_queue_invariant (hboot.obeys (by decide +kernel) : Reachable familyRun)
  exact ⟨by decide +kernel, ring, dead, hcycle, hchain, hfrees⟩

end RawSched
end FermiOs
