import FermiOs.Sched.Records
import FermiOs.Sched.Space

/-!
# ASIDs over the life of the system

`sched_asid_alloc` hands out the values of a 16-bit counter, without a look at the tasks that exist.
Creation, `fork` and `exec` each take one. The machine here is the scheduler with that counter; where
the pages of an address space come from is left to the environment, which names the root of each new
table and decides whether a fork goes through.

When the counter wraps, the TLB is flushed and the values are handed out again, also those of tasks
that are still there.
-/

namespace FermiOs
open Library List

/-- The counter of `sched_asid_alloc` after a value was taken. -/
def asidAfter (next : Nat) : Nat := if (next + 1) % 2 ^ 16 = 0 then 1 else (next + 1) % 2 ^ 16

lemma asidAfter_bounds (next : Nat) : 0 < asidAfter next ∧ asidAfter next < 2 ^ 16 := by
  unfold asidAfter
  split_ifs with h
  · decide
  · exact ⟨pos_of_ne_zero h, Nat.mod_lt _ (by decide)⟩

lemma asidAfter_of_lt {next : Nat} (h : next + 1 < 2 ^ 16) : asidAfter next = next + 1 := by
  rw [asidAfter, Nat.mod_eq_of_lt h, if_neg (Nat.succ_ne_zero next)]

/-- The scheduler and the ASID counter. -/
structure Spaces where
  sched : Sched
  nextAsid : Nat

/-- The operations. `root` is the page `mmu_create_user_tables` returned; a fork that fails after it
took an ASID uses up the value. -/
inductive SpaceOp
  | create (t : Task) (root : Nat)
  | createKernel (t : Task)
  | fork (t : Task) (root : Nat) (ok : Bool)
  | exec (root : Nat)
  | schedule
  | exit (code : Int)
  | kill (pid : Nat)
  | sleep (ms : Nat)
  | tick
  | reap
  | waitpid (pidArg : Int) (options : Nat)

variable {l : List Task} {root : Nat} {s : Spaces} {t : Task}

namespace Spaces

/-- `sched_init`. -/
def boot : Spaces := ⟨.boot, 1⟩

/-- The register value for a new table. -/
def newTtbr0 (s : Spaces) (root : Nat) : Nat := ttbrPack root s.nextAsid

/-- One operation. -/
def step (s : Spaces) : SpaceOp → Spaces
  | .create t root =>
    ⟨s.sched.step (.create { t with ttbr0 := s.newTtbr0 root }), asidAfter s.nextAsid⟩
  | .createKernel t => { s with sched := s.sched.step (.create { t with ttbr0 := 0 }) }
  | .fork t root ok =>
    ⟨s.sched.step (.fork { t with ttbr0 := s.newTtbr0 root } ok), asidAfter s.nextAsid⟩
  | .exec root =>
    ⟨{ s.sched with queue :=
        { s.sched.queue with cur := { s.sched.queue.cur with ttbr0 := s.newTtbr0 root } } },
      asidAfter s.nextAsid⟩
  | .schedule => { s with sched := s.sched.step .schedule }
  | .exit code => { s with sched := s.sched.step (.exit code) }
  | .kill pid => { s with sched := s.sched.step (.kill pid) }
  | .sleep ms => { s with sched := s.sched.step (.sleep ms) }
  | .tick => { s with sched := s.sched.step .tick }
  | .reap => { s with sched := s.sched.step .reap }
  | .waitpid pidArg options => { s with sched := s.sched.step (.waitpid pidArg options) }

/-- A table root is a physical page; user tasks fork and exec, and the idle task neither exits nor
sleeps. -/
def Allowed (s : Spaces) : SpaceOp → Prop
  | .create _ root => 0 < root ∧ root < 2 ^ 48
  | .fork _ root _ => (0 < root ∧ root < 2 ^ 48) ∧ s.sched.queue.cur.ttbr0 ≠ 0
  | .exec root => (0 < root ∧ root < 2 ^ 48) ∧ s.sched.queue.cur.ttbr0 ≠ 0
  | .exit _ => s.sched.queue.cur.pid ≠ 0
  | .sleep _ => s.sched.queue.cur.pid ≠ 0
  | _ => True

/-- The ASIDs of a list of tasks; kernel tasks have none. -/
def asids (l : List Task) : List Nat := (l.filter fun t => t.ttbr0 ≠ 0).map Task.asid

/-- The tasks that exist have distinct ASIDs, none of them `0`. -/
def AsidsDistinct (s : Spaces) : Prop :=
  (asids s.sched.queue.all).Nodup ∧ 0 ∉ asids s.sched.queue.all

/-- The value about to be handed out belongs to no task that will still exist beside its new owner. -/
def AsidFree (s : Spaces) : SpaceOp → Prop
  | .create _ _ => s.nextAsid ∉ asids s.sched.queue.all
  | .fork _ _ ok => ok = true → s.nextAsid ∉ asids s.sched.queue.all
  | .exec _ => s.nextAsid ∉ asids (s.sched.queue.rest ++ s.sched.queue.dead)
  | _ => True

instance (s : Spaces) (op : SpaceOp) : Decidable (s.Allowed op) := by
  cases op <;> dsimp only [Allowed] <;> infer_instance

instance (s : Spaces) (op : SpaceOp) : Decidable (s.AsidFree op) := by
  cases op <;> dsimp only [AsidFree] <;> infer_instance

/-- A list of operations that all meet the guard, from boot on. -/
lemma reach_run {guard : Spaces → SpaceOp → Prop} {ops : List SpaceOp}
    (h : Obeys guard step boot ops) : Reach (· = boot) guard step (ops.foldl step boot) :=
  have hboot : Reach (· = boot) guard step boot := .start rfl
  hboot.obeys h

/-! ## Scheduling keeps the ASIDs -/

lemma asids_core (l : List Task) : asids (l.map Task.core) = asids l := by
  induction l with
  | nil => rfl
  | cons t l ih =>
    have hcore : t.core.ttbr0 = t.ttbr0 := rfl
    by_cases h : t.ttbr0 = 0
    · simpa [asids, h, hcore] using ih
    · simpa [asids, h, hcore, Task.asid] using ih

lemma asids_perm {l' : List Task} (h : l.Perm l') : (asids l).Perm (asids l') :=
  (h.filter _).map _

lemma asids_append (l l' : List Task) : asids (l ++ l') = asids l ++ asids l' := by
  simp [asids]

/-- Moving and freeing records keeps the ASIDs distinct. -/
lemma AsidsDistinct.shuffle {s' : Spaces} {freed : List Task} (h : s.AsidsDistinct)
    (hs : s.sched.queue.Shuffles s'.sched.queue freed) : s'.AsidsDistinct := by
  have hperm := asids_perm hs
  rw [asids_core, asids_core, asids_append] at hperm
  refine ⟨(hperm.nodup_iff.mpr h.1).of_append_left, fun h0 => h.2 ?_⟩
  exact hperm.mem_iff.mp (mem_append_left _ h0)

/-- The counter stays a nonzero 16-bit value. -/
def CounterOk (s : Spaces) : Prop := 0 < s.nextAsid ∧ s.nextAsid < 2 ^ 16

/- Stated for any register value: a packed one would be evaluated when the records are compared. -/

lemma ttbr0_freshTask (pid ppid : Nat) (t : Task) (ttbr0 : Nat) :
    (freshTask pid ppid { t with ttbr0 := ttbr0 }).ttbr0 = ttbr0 := rfl

lemma ttbr0_set (t : Task) (ttbr0 : Nat) : ({ t with ttbr0 := ttbr0 } : Task).ttbr0 = ttbr0 := rfl

lemma all_setCur (q : Queue) (t : Task) :
    ({ q with cur := t } : Queue).all = t :: (q.rest ++ q.dead) := rfl

/-- A task with the next ASID joins tasks that do not have it. -/
lemma asids_cons (hc : s.CounterOk) (hroot : 0 < root ∧ root < 2 ^ 48)
    (ht : t.ttbr0 = s.newTtbr0 root) (hfree : s.nextAsid ∉ asids l)
    (hl : (asids l).Nodup ∧ 0 ∉ asids l) :
    (asids (t :: l)).Nodup ∧ 0 ∉ asids (t :: l) := by
  have hne : t.ttbr0 ≠ 0 := ht ▸ ttbrPack_ne_zero hroot.2 (by omega)
  have hasid : t.asid = s.nextAsid := by
    rw [Task.asid, ht]
    exact ttbrAsid_pack hc.2
  have heq : asids (t :: l) = s.nextAsid :: asids l := by
    simp [asids, hne, hasid]
  rw [heq]
  have hpos := hc.1
  exact ⟨nodup_cons.mpr ⟨hfree, hl.1⟩, fun h0 => (mem_cons.mp h0).elim (by omega) hl.2⟩

/-- A new task with the next ASID. -/
lemma AsidsDistinct.insert (h : s.AsidsDistinct) (hc : s.CounterOk)
    (hroot : 0 < root ∧ root < 2 ^ 48) (ht : t.ttbr0 = s.newTtbr0 root)
    (hfree : s.nextAsid ∉ asids s.sched.queue.all) :
    (asids (s.sched.queue.insert t).all).Nodup ∧ 0 ∉ asids (s.sched.queue.insert t).all := by
  obtain ⟨hn, h0⟩ := asids_cons hc hroot ht hfree h
  have hperm := asids_perm (s.sched.queue.insert_all t)
  exact ⟨hperm.nodup_iff.mpr hn, fun hm => h0 (hperm.mem_iff.mp hm)⟩

/-- **One step** keeps the ASIDs distinct as long as the value it hands out is free. -/
lemma step_distinct {op : SpaceOp} (h : s.AsidsDistinct) (hc : s.CounterOk) (ha : s.Allowed op)
    (hfree : s.AsidFree op) : (s.step op).AsidsDistinct ∧ (s.step op).CounterOk := by
  cases op with
  | create t root =>
    have hins := h.insert hc ha (ttbr0_freshTask s.sched.nextPid 0 t _) hfree
    exact ⟨hins, asidAfter_bounds _⟩
  | createKernel t =>
    have hperm := asids_perm (s.sched.queue.insert_all
      (freshTask s.sched.nextPid 0 { t with ttbr0 := 0 }))
    exact ⟨⟨hperm.nodup_iff.mpr h.1, fun h0 => h.2 (hperm.mem_iff.mp h0)⟩, hc⟩
  | fork t root ok =>
    cases ok with
    | true =>
      have hins := h.insert hc ha.1
        (ttbr0_freshTask s.sched.nextPid s.sched.queue.cur.pid t _) (hfree rfl)
      exact ⟨hins, asidAfter_bounds _⟩
    | false => exact ⟨h, asidAfter_bounds _⟩
  | exec root =>
    -- the task that execs gives up its old value
    have hsub : (asids (s.sched.queue.rest ++ s.sched.queue.dead)).Sublist
        (asids s.sched.queue.all) := ((sublist_cons_self _ _).filter _).map _
    have hcons := asids_cons hc ha.1 (ttbr0_set s.sched.queue.cur _) hfree
      ⟨h.1.sublist hsub, fun h0 => h.2 (hsub.subset h0)⟩
    refine ⟨?_, asidAfter_bounds _⟩
    rw [AsidsDistinct, step, all_setCur]
    exact hcons
  | schedule => exact ⟨h.shuffle s.sched.queue.schedule_shuffles, hc⟩
  | exit code => exact ⟨h.shuffle (s.sched.queue.taskExit_shuffles code), hc⟩
  | kill pid => exact ⟨h.shuffle (s.sched.queue.killTask_shuffles pid), hc⟩
  | sleep ms => exact ⟨h.shuffle (s.sched.queue.sleepMs_shuffles s.sched.ticks ms), hc⟩
  | tick => exact ⟨h.shuffle (s.sched.queue.wakeSleepers_shuffles (s.sched.ticks + 1)), hc⟩
  | reap => exact ⟨h.shuffle s.sched.queue.reap_reapedTo.shuffles, hc⟩
  | waitpid pidArg options => exact ⟨h.shuffle (s.sched.queue.waitpid_shuffles pidArg options), hc⟩

section
variable (s : Spaces)

/-- The current task with another register value, and the counter moved. -/
def execed (ttbr0 next : Nat) : Spaces :=
  ⟨{ s.sched with queue := { s.sched.queue with cur := { s.sched.queue.cur with ttbr0 := ttbr0 } } },
    next⟩

lemma step_exec (root : Nat) :
    s.step (.exec root) = s.execed (ttbrPack root s.nextAsid) (asidAfter s.nextAsid) := rfl

lemma execed_execed (ttbr0 next ttbr0' next' : Nat) :
    (s.execed ttbr0 next).execed ttbr0' next' = s.execed ttbr0' next' := rfl

lemma execed_nextAsid (ttbr0 next : Nat) : (s.execed ttbr0 next).nextAsid = next := rfl

lemma execed_user {ttbr0 : Nat} (h : ttbr0 ≠ 0) (next : Nat) :
    (s.execed ttbr0 next).sched.queue.cur.ttbr0 ≠ 0 := h

end

/-- A sequence of execs of one task takes one value after the other. -/
lemma reach_execs (h : Reach (· = boot) Allowed step s) (huser : s.sched.queue.cur.ttbr0 ≠ 0)
    {n : Nat} (hn : s.nextAsid + n < 2 ^ 16) :
    Reach (· = boot) Allowed step
      (s.execed (ttbrPack 4096 (s.nextAsid + n)) (asidAfter (s.nextAsid + n))) := by
  induction n with
  | zero =>
    rw [add_zero, ← step_exec]
    exact .next h ⟨by decide, huser⟩
  | succ n ih =>
    have hne : ttbrPack 4096 (s.nextAsid + n) ≠ 0 := ttbrPack_ne_zero (by decide) (by decide)
    have hstep := Reach.next (a := SpaceOp.exec 4096) (ih (by omega))
      ⟨by decide, execed_user s hne _⟩
    rw [step_exec, execed_execed, execed_nextAsid, asidAfter_of_lt (by omega)] at hstep
    exact hstep

end Spaces
end FermiOs
