import FermiOs.Sched.Wait

/-!
# Exit status

A task dies through its own `exit`, a fault or a kill, and all three leave one signed number in
`exit_code`. `sched_waitpid` turns the number into a status word and the macros of `wait.h` take the
word apart. The runs here remember for each task how it died, so that the word a parent receives can
be compared with the death of the child.
-/

namespace FermiOs
open Library List Function

/-- How a task died: by the exit system call with an argument, by a memory fault, by another task's
kill, by its own kill, or, for a kernel task, by returning. -/
inductive Death
  | exit (v : BitVec 64)
  | fault
  | killed
  | selfKill
  | kernelReturn (code : Int)

/-- `(int)(long)arg0`. -/
def exitArg (v : BitVec 64) : Int := (v.setWidth 32).toInt

/-- The number each death leaves in `exit_code`. -/
def Death.exitCode : Death → Int
  | .exit v => exitArg v
  | .fault => -1
  | .killed => -1
  | .selfKill => 0
  | .kernelReturn code => code

/-- `WIFEXITED`. -/
def wifexited (status : Nat) : Bool := status &&& 0x7F == 0

/-- `WEXITSTATUS`. -/
def wexitstatus (status : Nat) : Nat := (status >>> 8) &&& 0xFF

/-- `WIFSIGNALED`. -/
def wifsignaled (status : Nat) : Bool := status &&& 0x7F != 0

/-! ## The status word -/

/-- The sign of the exit code is bit 31 of the argument. -/
lemma exitArg_neg_iff (v : BitVec 64) : exitArg v < 0 ↔ v.getLsbD 31 = true := by
  have hmsb : (v.setWidth 32).msb = v.getLsbD 31 := by simp [BitVec.msb_eq_getLsbD_last]
  rw [exitArg, ← hmsb, BitVec.msb_eq_toInt, decide_eq_true_eq]

/-- The low byte of the exit code is the low byte of the argument. -/
lemma exitArg_emod (v : BitVec 64) : exitArg v % 256 = (v.toNat % 256 : Nat) := by
  rw [exitArg, BitVec.toInt_eq_toNat_bmod, BitVec.toNat_setWidth]
  rw [Int.bmod_def]
  split <;> omega

variable {code : Int} {d : Death} {t t' : Task}

lemma waitStatus_of_neg (h : code < 0) : Queue.waitStatus code = 139 := by
  rw [Queue.waitStatus, if_pos h]
  decide

lemma waitStatus_of_nonneg (h : ¬ code < 0) : Queue.waitStatus code = (code % 256).toNat * 2 ^ 8 := by
  rw [Queue.waitStatus, if_neg h]

/-- A negative exit code is reported as a signal. -/
lemma wifsignaled_iff (code : Int) : wifsignaled (Queue.waitStatus code) = true ↔ code < 0 := by
  by_cases h : code < 0
  · simp [waitStatus_of_neg h, wifsignaled, h]
  have hlow : (code % 256).toNat * 2 ^ 8 % 2 ^ 7 = 0 := by omega
  have hand : (code % 256).toNat * 2 ^ 8 &&& 127 = 0 := by
    rw [← hlow]
    exact Nat.and_two_pow_sub_one_eq_mod _ 7
  rw [waitStatus_of_nonneg h, wifsignaled, hand]
  simp [h]

lemma wifexited_iff (code : Int) : wifexited (Queue.waitStatus code) = true ↔ ¬ code < 0 := by
  rw [← wifsignaled_iff, wifexited, wifsignaled]
  simp

/-- An exit code that is not negative is reported in its low byte. -/
lemma wexitstatus_eq (h : ¬ code < 0) : wexitstatus (Queue.waitStatus code) = (code % 256).toNat := by
  rw [waitStatus_of_nonneg h, wexitstatus, Nat.shiftRight_eq_div_pow, Nat.mul_div_cancel _ (by decide)]
  have hand : (code % 256).toNat &&& 255 = (code % 256).toNat % 2 ^ 8 :=
    Nat.and_two_pow_sub_one_eq_mod _ 8
  omega

/-! ## Runs that remember deaths -/

/-- The scheduler, with the death of every task that has died. -/
structure Lives where
  sched : Sched
  death : Nat → Option Death

/-- The deaths, and the other operations of the scheduler. -/
inductive LifeOp
  | exit (v : BitVec 64)
  | fault
  | kill (pid : Nat)
  | kernelReturn (code : Int)
  | other (op : SchedOp)

/-- An operation in which nobody dies. -/
def SchedOp.deathless : SchedOp → Bool
  | .exit _ => false
  | .kill _ => false
  | _ => true

namespace Lives

/-- After boot. -/
def boot : Lives := ⟨.boot, fun _ => none⟩

/-- The death of the current task with its exit code. -/
def dies (l : Lives) (d : Death) : Lives :=
  ⟨l.sched.step (.exit d.exitCode), update l.death l.sched.queue.cur.pid (some d)⟩

def step (l : Lives) : LifeOp → Lives
  | .exit v => l.dies (.exit v)
  | .fault => l.dies .fault
  | .kernelReturn code => l.dies (.kernelReturn code)
  | .kill pid =>
    ⟨l.sched.step (.kill pid),
      if (l.sched.queue.killTask pid).1 = 0 then
        update l.death pid
          (some (if l.sched.queue.cur.pid = pid then .selfKill else .killed))
      else l.death⟩
  | .other op => ⟨l.sched.step op, l.death⟩

/-- The idle task does not die, only kernel tasks, which have no parent, return, and the idle task
makes no system calls. -/
def Allowed (l : Lives) : LifeOp → Prop
  | .exit _ => l.sched.queue.cur.pid ≠ 0
  | .fault => l.sched.queue.cur.pid ≠ 0
  | .kernelReturn _ => l.sched.queue.cur.pid ≠ 0 ∧ l.sched.queue.cur.ppid = 0
  | .kill _ => True
  | .other op => op.deathless = true ∧ l.sched.Allowed op

instance (l : Lives) (op : LifeOp) : Decidable (l.Allowed op) := by
  cases op <;> dsimp only [Allowed] <;> infer_instance

/-- A record on the dead list tells how its task died. -/
def Told (l : Lives) (t : Task) : Prop :=
  ∃ d, l.death t.pid = some d ∧ t.exitCode = d.exitCode ∧
    ∀ code, d = .kernelReturn code → t.ppid = 0

/-- What holds in every state. -/
structure Inv (l : Lives) : Prop where
  wf : l.sched.Wf
  told : ∀ t ∈ l.sched.queue.dead, l.Told t

lemma Told.orphaned {l : Lives} {gone : List Nat} (h : l.Told t) (ho : OrphanedBy gone t t') :
    l.Told t' := by
  rcases ho with rfl | ⟨-, -, rfl⟩
  · exact h
  · obtain ⟨d, hd, hcode, -⟩ := h
    exact ⟨d, hd, hcode, fun _ _ => rfl⟩

/-- The dead list after `schedule`: what was there, and the current task if it was dead. -/
lemma dead_of_schedule {q : Queue} (ht' : t' ∈ q.schedule.1.dead) :
    (∃ t ∈ q.dead, ∃ gone, OrphanedBy gone t t') ∨
      q.cur.state = .dead ∧ ∃ t gone, OrphanedBy gone q.cur t ∧ t' = Queue.bury t := by
  have hr := q.reap_reapedTo
  have hold : ∀ {t'}, t' ∈ q.reap.1.dead → ∃ t ∈ q.dead, ∃ gone, OrphanedBy gone t t' := by
    intro t' ht'
    obtain ⟨t, ht, ho⟩ := hr.dead_of_mem (mem_append_left _ ht')
    exact ⟨t, ht, _, ho⟩
  rcases q.schedule_cases with ⟨-, heq⟩ | ⟨before, next, after, -, heq⟩
  · rw [heq] at ht'
    exact .inl (hold ht')
  rw [heq, Queue.switchTo_eq] at ht'
  split at ht'
  · rename_i hdead
    rcases mem_cons.mp ht' with rfl | ht'
    · exact .inr ⟨hr.cur.state_eq ▸ hdead, _, _, hr.cur, rfl⟩
    · exact .inl (hold ht')
  · exact .inl (hold ht')

lemma told_of_update {l l' : Lives} {pid : Nat} (hdeath : l'.death = update l.death pid (some d))
    (hne : t.pid ≠ pid) (h : l.Told t) :
    l'.Told t := by
  obtain ⟨e, he, hcode, hk⟩ := h
  exact ⟨e, by rw [hdeath, update_of_ne hne]; exact he, hcode, hk⟩

/-- The current task dies with the exit code of its death. -/
lemma dies_inv {l : Lives} (h : l.Inv) (hidle : l.sched.queue.cur.pid ≠ 0)
    (hk : ∀ code, d = .kernelReturn code → l.sched.queue.cur.ppid = 0) : (l.dies d).Inv := by
  have hallowed : l.sched.Allowed (.exit d.exitCode) := hidle
  refine ⟨Sched.step_wf h.wf hallowed, fun t' ht' => ?_⟩
  rcases dead_of_schedule ht' with ⟨t, ht, gone, ho⟩ | ⟨-, t, gone, ho, rfl⟩
  · have hne := h.wf.queue.cur_ne_dead ht
    exact (told_of_update rfl hne (h.told t ht)).orphaned ho
  refine ⟨d, ?_, ?_, ?_⟩
  · have hpid : (Queue.bury t).pid = l.sched.queue.cur.pid := ho.pid_eq
    rw [hpid]
    exact update_self _ _ _
  · rcases ho with rfl | ⟨-, -, rfl⟩ <;> rfl
  · intro code hd
    rcases ho with rfl | ⟨-, -, rfl⟩
    · exact hk code hd
    · rfl

lemma kill_inv {l : Lives} (h : l.Inv) (pid : Nat) : (l.step (.kill pid)).Inv := by
  have hallowed : l.sched.Allowed (.kill pid) := trivial
  refine ⟨Sched.step_wf h.wf hallowed, ?_⟩
  rcases l.sched.queue.killTask_cases pid with heq | ⟨hne, hself, heq⟩ | ⟨hne, hother, before, c,
      after, hsplit, hc, heq⟩
  · simp only [step, Sched.step, heq]
    exact h.told
  · -- a task that kills itself exits with code 0
    have hdies := dies_inv (d := .selfKill) h (fun h0 => hne (hself.symm.trans h0)) (by simp)
    have hstep : l.step (.kill pid) = l.dies .selfKill := by
      simp only [step, dies, Sched.step, heq, hself, if_true]
      rfl
    rw [hstep]
    exact hdies.told
  simp only [step, Sched.step, heq, hother, if_true, if_false]
  have hold : ∀ t ∈ l.sched.queue.dead, t.pid ≠ pid := by
    intro t ht he
    have hcr : c ∈ l.sched.queue.ring := by simp [Queue.ring, hsplit]
    exact h.wf.queue.pid_ne hcr ht (hc.trans he.symm)
  refine forall_mem_cons.mpr ⟨⟨.killed, ?_, rfl, by simp⟩, fun t ht => ?_⟩
  · have hpid : ({ Queue.bury c with exitCode := -1 } : Task).pid = pid := hc
    rw [hpid]
    exact update_self _ _ _
  · exact told_of_update rfl (hold t ht) (h.told t ht)

lemma step_inv {l : Lives} {op : LifeOp} (h : l.Inv) (ha : l.Allowed op) : (l.step op).Inv := by
  cases op with
  | exit v => exact dies_inv h ha (by simp)
  | fault => exact dies_inv h ha (by simp)
  | kernelReturn code => exact dies_inv h ha.1 fun _ _ => ha.2
  | kill pid => exact kill_inv h pid
  | other op =>
    refine ⟨Sched.step_wf h.wf ha.2, ?_⟩
    -- nobody dies: the dead list only loses entries or parents
    have hsched : ∀ {q : Queue}, q.dead = l.sched.queue.dead → q.cur.state ≠ .dead →
        ∀ t' ∈ q.schedule.1.dead, l.Told t' := by
      intro q hq hcur t' ht'
      rcases dead_of_schedule ht' with ⟨t, ht, gone, ho⟩ | ⟨hdead, -⟩
      · exact (h.told t (hq ▸ ht)).orphaned ho
      · exact absurd hdead hcur
    have hrun : l.sched.queue.cur.state ≠ .dead := by
      rcases h.wf.runs with hs | ⟨-, hs⟩ <;> simp [hs]
    cases op with
    | create t => exact h.told
    | fork t ok => cases ok <;> exact h.told
    | schedule => exact hsched rfl hrun
    | exit code => exact absurd ha.1 (by simp [SchedOp.deathless])
    | kill pid => exact absurd ha.1 (by simp [SchedOp.deathless])
    | sleep ms => exact hsched rfl (by simp)
    | tick => exact h.told
    | reap =>
      intro t' ht'
      obtain ⟨t, ht, ho⟩ := l.sched.queue.reap_reapedTo.dead_of_mem (mem_append_left _ ht')
      exact (h.told t ht).orphaned ho
    | waitpid pidArg options =>
      rcases l.sched.queue.waitpid_cases pidArg options with ⟨r, heq⟩ | ⟨before, c, after, hsplit,
          -, -, -, heq⟩ | heq
      · simp only [step, Sched.step, heq]
        exact h.told
      · simp only [step, Sched.step, heq]
        intro t ht
        refine h.told t ?_
        simp only [hsplit, mem_append, mem_cons] at ht ⊢
        tauto
      · simp only [step, Sched.step, heq]
        exact hsched rfl hrun

lemma boot_inv : boot.Inv := ⟨Sched.boot_wf, by simp [boot, Sched.boot]⟩

lemma inv_of_reach {l : Lives} (h : Reach (· = boot) Allowed step l) : l.Inv :=
  Reach.invariant Inv (fun l (hl : l = boot) => hl ▸ boot_inv) (fun _ _ hl ha => step_inv hl ha) h

/-- **What a parent learns of its child.** For a child that passed `v` to `exit` the status word says
so, with the low byte of `v`, exactly when bit 31 of `v` is clear. A child is reported as signalled
exactly when it died of a fault, of another task's kill, or of an `exit` whose argument has bit 31
set. -/
theorem wait_status_iff {l : Lives} (h : Reach (· = boot) Allowed step l) {pidArg : Int}
    {options status : Nat} {child : Task} (huser : l.sched.queue.cur.pid ≠ 0)
    (hwait : (l.sched.queue.waitpid pidArg options).1 = .collected child status) :
    (∀ v, l.death child.pid = some (.exit v) →
      ((wifexited status = true ∧ wexitstatus status = v.toNat % 256) ↔ v.getLsbD 31 = false)) ∧
    (wifsignaled status = true ↔ l.death child.pid = some .fault ∨
      l.death child.pid = some .killed ∨
      ∃ v, l.death child.pid = some (.exit v) ∧ v.getLsbD 31 = true) := by
  obtain ⟨hwf, htold⟩ := inv_of_reach h
  obtain ⟨hmem, hppid, rfl⟩ : child ∈ l.sched.queue.dead ∧ child.ppid = l.sched.queue.cur.pid ∧
      status = Queue.waitStatus child.exitCode := by
    rcases l.sched.queue.waitpid_cases pidArg options with ⟨r, heq⟩ | ⟨before, c, after, hsplit, hc, -,
        -, heq⟩ | heq <;> rw [heq] at hwait <;> cases hwait
    exact ⟨by simp [hsplit], (Queue.isChild_iff.mp hc).1, rfl⟩
  obtain ⟨d, hd, hcode, hk⟩ := htold child hmem
  rw [hd, hcode, wifsignaled_iff]
  constructor
  · rintro v hv
    obtain rfl := Option.some.inj hv
    simp only [Death.exitCode, wifexited_iff, exitArg_neg_iff]
    constructor
    · rintro ⟨hbit, -⟩
      exact Bool.eq_false_iff.mpr hbit
    intro hbit
    have hnn : ¬ exitArg v < 0 := by rw [exitArg_neg_iff, hbit]; decide
    refine ⟨Bool.eq_false_iff.mp hbit, ?_⟩
    rw [wexitstatus_eq hnn, exitArg_emod]
    exact Int.toNat_natCast _
  cases d with
  | exit v => simp [Death.exitCode, exitArg_neg_iff]
  | fault => simp [Death.exitCode]
  | killed => simp [Death.exitCode]
  | selfKill => simp [Death.exitCode]
  | kernelReturn code => exact absurd (hppid.symm.trans (hk code rfl)) huser

/-- A parent is created and forks, and the child calls `exit`; the parent is then current again. -/
def exitRun (v : BitVec 64) : List LifeOp :=
  [.other (.create idleTask), .other .schedule, .other (.fork idleTask true), .other .schedule,
    .exit v]

theorem wait_status_iff_seven : (wifexited (7 * 2 ^ 8) = true ∧ wexitstatus (7 * 2 ^ 8) = 7 ↔
        (7 : BitVec 64).getLsbD 31 = false) ∧ wifsignaled (7 * 2 ^ 8) = false := by
  have hboot : Reach (· = boot) Allowed step boot := .start rfl
  have hreach : Reach (· = boot) Allowed step ((exitRun 7).foldl step boot) :=
    hboot.obeys (by decide +kernel)
  have hwait : (((exitRun 7).foldl step boot).sched.queue.waitpid (-1) 0).1 =
      .collected _ (7 * 2 ^ 8) := rfl
  exact ⟨(wait_status_iff hreach (by decide +kernel) hwait).1 7 rfl, by decide⟩

/-- `exit(-1)` is reported as death by a signal. -/
theorem exit_reported_as_signal : Obeys Allowed step boot (exitRun (BitVec.allOnes 64)) ∧
    ((exitRun (BitVec.allOnes 64)).foldl step boot).death 2 = some (.exit (BitVec.allOnes 64)) ∧
    ∃ child, child.pid = 2 ∧
      (((exitRun (BitVec.allOnes 64)).foldl step boot).sched.queue.waitpid (-1) 0).1 =
        .collected child 139 ∧
      wifexited 139 = false ∧ wifsignaled 139 = true :=
  ⟨by decide +kernel, rfl, _, rfl, rfl, rfl, rfl⟩

end Lives
end FermiOs
