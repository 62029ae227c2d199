import FermiOs.Sched.Records
import FermiOs.System.Calls

/-!
# The system

The memory state, the scheduler's lists and the register `TTBR0_EL1`, and the steps that tasks and
interrupts take. A step is one system call, one access, one creation of a task or one interrupt; it
comes with the answers the allocators give while it runs, so that any allocation may fail. Tasks the
scheduler frees are taken apart with `sched_free_task`.

The TLB may fetch at any time: after every step it holds each valid translation of each user task
that exists, tagged with the ASID of the task, besides what it held before and was not told to drop.
-/

namespace FermiOs
open Library List Function
variable {freed : List Task} {x : Nat}

/-- The state of the system. -/
structure Sys where
  k : Kernel
  queue : Queue
  ticks : Nat
  /-- The register `TTBR0_EL1`. -/
  ttbr0 : Nat

/-- The steps. One `waitpid` is one round of its loop. -/
inductive SysOp
  | create (entryOk : Bool)
  | createKernel
  | call (c : Call)
  | fork
  | exit (code : Int)
  | kill (pid : Nat)
  | waitpid (pidArg : Int) (options : Nat)
  | yield
  | sleep (ms : Nat)
  | tick
  | reap

namespace Sys

/-- The queue after an operation of the scheduler. The tasks it freed are taken apart, and
`context_switch` loads the table of the task that has the processor now, unless it has none. -/
def settle (s : Sys) (q : Queue) (freed : List Task) : Sys :=
  { s with
    k := freed.foldl schedFreeTask s.k
    queue := q
    ttbr0 := if q.cur.ttbr0 = 0 then s.ttbr0 else q.cur.ttbr0 }

/-- A task that was created enters the ring. -/
def enroll (s : Sys) : Option Task × Kernel → Sys
  | (none, k) => { s with k := k }
  | (some t, k) => { s with k := k, queue := s.queue.insert t }

/-- The current task and the memory after a call; only `exec` writes the register. -/
def resume (s : Sys) (t : Task) (k : Kernel) : Sys :=
  { s with
    k := k
    queue := { s.queue with cur := t }
    ttbr0 := if t.ttbr0 = s.queue.cur.ttbr0 then s.ttbr0 else t.ttbr0 }

/-- One step, before the TLB fetches. -/
def act (s : Sys) : SysOp → Sys
  | .create entryOk => s.enroll (schedCreateTask s.k entryOk)
  | .createKernel => s.enroll (schedCreateKernelTask s.k)
  | .call c =>
    match userCall s.k s.queue.cur c with
    | (false, t, k) => s.resume t k
    | (true, t, k) =>
      let s := s.resume t k
      let r := s.queue.taskExit (-1)
      s.settle r.1 r.2
  | .fork =>
    let r := schedFork s.k s.queue.cur
    s.enroll (r.child, r.k)
  | .exit code =>
    let r := s.queue.taskExit code
    s.settle r.1 r.2
  | .kill pid =>
    let r := (s.queue.killTask pid).2
    s.settle r.1 r.2
  | .waitpid pidArg options =>
    let r := s.queue.waitpid pidArg options
    s.settle r.2 r.1.freed
  | .yield =>
    let r := s.queue.schedule
    s.settle r.1 r.2
  | .sleep ms =>
    let r := s.queue.sleepMs s.ticks ms
    s.settle r.1 r.2
  | .tick => { s with queue := s.queue.wakeSleepers (s.ticks + 1), ticks := s.ticks + 1 }
  | .reap =>
    let r := s.queue.reap
    s.settle r.1 r.2

/-- The translation belongs to a user task that exists. -/
def translates (k : Kernel) (tasks : List Task) (asid vpn : Nat) (w : Pte) : Bool :=
  tasks.any fun t => decide (t.ttbr0 ≠ 0 ∧ t.asid = asid ∧ k.leaf t.l0 (vpn * 4096) = some w)

/-- The TLB fetches whatever it can. -/
def fetch (s : Sys) : Sys :=
  { s with k := { s.k with
      tlb := fun a v w => s.k.tlb a v w || translates s.k s.queue.all a v w } }

/-- The state with the allocators' answers for one step. -/
def answering (s : Sys) (gs : List Grant) : Sys := { s with k := s.k.answering gs }

/-- One step. -/
def step (s : Sys) (a : List Grant × SysOp) : Sys := ((s.answering a.1).act a.2).fetch

/-- Only user tasks make calls and fork, and the idle task neither exits nor sleeps. -/
def Allowed (s : Sys) : SysOp → Prop
  | .call _ => s.queue.cur.ttbr0 ≠ 0
  | .fork => s.queue.cur.ttbr0 ≠ 0
  | .exit _ => s.queue.cur.pid ≠ 0
  | .sleep _ => s.queue.cur.pid ≠ 0
  | _ => True

/-- After boot: the idle task alone, no user translation cached, and the tables the boot code built
in `TTBR0_EL1`. -/
structure Boot (s : Sys) : Prop where
  queue : s.queue = ⟨idleTask, [], []⟩
  tlb : ∀ a v w, s.k.tlb a v w = false
  nextPid : s.k.nextPid = 1
  nextAsid : s.k.nextAsid = 1
  root : s.k.Owns (s.k.tablePages (ttbrBaddr s.ttbr0))

end Sys

/-! ## What the others own -/

lemma taskPages_core (k : Kernel) (t : Task) : taskPages k t.core = taskPages k t := rfl

/-- The pages of all tasks in a list. -/
def pagesOf (k : Kernel) (tasks : List Task) : List Nat := tasks.flatMap (taskPages k)

variable {k k' : Kernel} {l : List Task} {t t' : Task}

lemma pagesOf_perm {l' : List Task} (h : (l.map Task.core).Perm (l'.map Task.core)) :
    (pagesOf k l).Perm (pagesOf k l') := by
  have hmap : ∀ l : List Task, pagesOf k l = (l.map Task.core).flatMap (taskPages k) := by
    intro l
    rw [pagesOf, flatMap_map]
    exact flatMap_congr fun t _ => (taskPages_core k t).symm
  rw [hmap, hmap]
  exact h.flatMap_right _

lemma pagesOf_cons (k : Kernel) (t : Task) (l : List Task) :
    pagesOf k (t :: l) = taskPages k t ++ pagesOf k l := rfl

lemma pagesOf_append (k : Kernel) (l l' : List Task) :
    pagesOf k (l ++ l') = pagesOf k l ++ pagesOf k l' := flatMap_append

/-- Tasks whose tables are untouched own what they owned. -/
lemma pagesOf_congr (h : ∀ t ∈ l, t.ttbr0 ≠ 0 → k'.tables t.l0 = k.tables t.l0) :
    pagesOf k' l = pagesOf k l := by
  refine flatMap_congr fun t ht => ?_
  rw [taskPages, taskPages]
  split_ifs with h0
  · rfl
  · rw [Kernel.tablePages, Kernel.tablePages, h t ht h0]

lemma root_mem_taskPages (h : t.ttbr0 ≠ 0) : t.l0 ∈ taskPages k t := by
  refine mem_append_right _ (mem_append_right _ ?_)
  rw [if_neg h]
  exact mem_cons_self

lemma root_mem_pagesOf (ht : t ∈ l) (h : t.ttbr0 ≠ 0) :
    t.l0 ∈ pagesOf k l := mem_flatMap.mpr ⟨t, ht, root_mem_taskPages h⟩

/-- A step of task `t` leaves the tables of tasks beside it alone. -/
lemma LocalStep.others (h : LocalStep k t k' t') {B : List Nat}
    (hown : k.Owns (taskPages k t ++ (B ++ pagesOf k l))) (hx : x ∈ B ++ pagesOf k l) :
    k'.tables x = k.tables x := by
  have halloc : k.pmm.Allocated x := hown.2 x (mem_append_right _ hx)
  refine h.tables x halloc fun he => ?_
  by_cases h0 : t.ttbr0 = 0
  · -- a kernel task has no root: `l0` is the null address
    refine halloc.ne_zero ?_
    rw [he, Task.l0, h0]
    rfl
  · exact Ledger.ne_of_append hown (root_mem_taskPages h0) hx he.symm

/-- Taking tasks apart releases what they owned and touches no table. -/
lemma foldl_schedFreeTask {b : Nat}
    (h : k.Owns (pagesOf k freed ++ (k.tablePages b ++ pagesOf k l))) (ha : AsidOk k) :
    (freed.foldl schedFreeTask k).Owns ((freed.foldl schedFreeTask k).tablePages b ++
        pagesOf (freed.foldl schedFreeTask k) l) ∧ AsidOk (freed.foldl schedFreeTask k) := by
  induction freed generalizing k with
  | nil => exact ⟨h, ha⟩
  | cons t freed ih =>
    rw [pagesOf_cons, append_assoc] at h
    have hfree := schedFreeTask_owns h
    obtain ⟨tlb, -, heq⟩ := schedFreeTask_eq k t
    rw [foldl_cons]
    rw [heq] at hfree ⊢
    exact ih hfree ha

namespace Sys

/-- **The ownership invariant**: the boot tables and every page that a task records or that its table
uses are listed once and are allocated; every region has the right shape. -/
structure Owned (b : Nat) (s : Sys) : Prop where
  pages : s.k.Owns (s.k.tablePages b ++ pagesOf s.k s.queue.all)
  ok : ∀ t ∈ s.queue.all, AllOk t.vmas
  asid : AsidOk s.k

variable {b : Nat} {s : Sys}

lemma Boot.owned (h : s.Boot) : s.Owned (ttbrBaddr s.ttbr0) := by
  refine ⟨?_, ?_, ?_⟩
  · have hnil : pagesOf s.k s.queue.all = [] := by
      rw [h.queue]
      rfl
    rw [hnil, append_nil]
    exact h.root
  · rw [h.queue]
    intro t ht
    rw [mem_singleton.mp ht]
    exact forall_mem_nil _
  · rw [AsidOk, h.nextAsid]
    decide

section
variable (h : s.Owned b)
include h

/-- The ledger with the current task in front. -/
lemma Owned.front : s.k.Owns (taskPages s.k s.queue.cur ++
    (s.k.tablePages b ++ pagesOf s.k (s.queue.rest ++ s.queue.dead))) := by
  refine h.pages.perm ?_
  rw [Queue.all, Queue.ring, cons_append, pagesOf_cons]
  grind

/-- The root of the current task. -/
lemma Owned.root_ne (huser : s.queue.cur.ttbr0 ≠ 0) : s.queue.cur.l0 ≠ 0 :=
  (root_allocated huser h.front).ne_zero

/-- What stays beside the current task is what was there. -/
lemma Owned.rest_congr (hl : LocalStep s.k s.queue.cur k' t') :
    k'.tablePages b ++ pagesOf k' (s.queue.rest ++ s.queue.dead) =
      s.k.tablePages b ++ pagesOf s.k (s.queue.rest ++ s.queue.dead) := by
  have hb : k'.tables b = s.k.tables b := hl.others h.front (mem_append_left _ mem_cons_self)
  have hrest : pagesOf k' (s.queue.rest ++ s.queue.dead) = pagesOf s.k (s.queue.rest ++ s.queue.dead) :=
    pagesOf_congr fun t ht h0 => hl.others h.front (mem_append_right _ (root_mem_pagesOf ht h0))
  rw [hrest, Kernel.tablePages, Kernel.tablePages, hb]

/-- The current task does something to itself. -/
lemma Owned.resume (hl : LocalStep s.k s.queue.cur k' t') (hok : AllOk t'.vmas) :
    (s.resume t' k').Owned b := by
  refine ⟨?_, ?_, hl.asid h.asid⟩
  · have hown := hl.owns _ h.front
    rw [← h.rest_congr hl] at hown
    refine hown.perm ?_
    show Perm _ (k'.tablePages b ++ pagesOf k' (t' :: (s.queue.rest ++ s.queue.dead)))
    rw [pagesOf_cons]
    grind
  · intro t ht
    rcases mem_cons.mp ht with rfl | ht
    · exact hok
    · exact h.ok t (mem_cons_of_mem _ ht)

lemma Owned.mem_allocated (hx : x ∈ s.k.tablePages b ++ pagesOf s.k s.queue.all) :
    s.k.pmm.Allocated x := h.pages.2 x hx

lemma Owned.pages_congr (htab : ∀ l, s.k.pmm.Allocated l → k'.tables l = s.k.tables l) :
    k'.tablePages b = s.k.tablePages b ∧ pagesOf k' s.queue.all = pagesOf s.k s.queue.all := by
  constructor
  · rw [Kernel.tablePages, Kernel.tablePages,
      htab b (h.mem_allocated (mem_append_left _ mem_cons_self))]
  · exact pagesOf_congr fun t ht h0 =>
      htab t.l0 (h.mem_allocated (mem_append_right _ (root_mem_pagesOf ht h0)))

/-- A step no task notices. -/
lemma Owned.quiet (hq : QuietStep s.k k') : ({ s with k := k' } : Sys).Owned b := by
  refine ⟨?_, h.ok, hq.asid h.asid⟩
  obtain ⟨hb, hall⟩ := h.pages_congr hq.tables
  show k'.Owns (k'.tablePages b ++ pagesOf k' s.queue.all)
  rw [hb, hall]
  exact hq.owns _ h.pages

/-- A new task with pages of its own. -/
lemma Owned.spawn (hs : Spawned s.k t k') (hok : AllOk t.vmas) :
    ({ s with k := k', queue := s.queue.insert t } : Sys).Owned b := by
  refine ⟨?_, fun u hu => ?_, hs.asid h.asid⟩
  · obtain ⟨hb, hall⟩ := h.pages_congr hs.tables
    have hown := hs.owns _ h.pages
    rw [← hb, ← hall] at hown
    refine hown.perm ?_
    have hperm := pagesOf_perm (k := k') ((s.queue.insert_all t).map Task.core)
    rw [pagesOf_cons] at hperm
    show Perm _ (k'.tablePages b ++ pagesOf k' (s.queue.insert t).all)
    grind
  · rcases mem_cons.mp ((s.queue.insert_all t).mem_iff.mp hu) with rfl | hu
    · exact hok
    · exact h.ok u hu

/-- The scheduler moved records and freed tasks. -/
lemma Owned.settle {q : Queue} (hs : s.queue.Shuffles q freed) : (s.settle q freed).Owned b := by
  have hok : ∀ t ∈ q.all ++ freed, AllOk t.vmas := by
    intro t ht
    obtain ⟨t', ht', hcore⟩ := hs.of_mem ht
    exact Task.vmas_of_core hcore ▸ h.ok t' ht'
  have hpages : s.k.Owns (pagesOf s.k freed ++ (s.k.tablePages b ++ pagesOf s.k q.all)) := by
    refine h.pages.perm ?_
    have hperm := pagesOf_perm (k := s.k) hs
    rw [pagesOf_append] at hperm
    grind
  obtain ⟨hp, ha⟩ := foldl_schedFreeTask hpages h.asid
  exact ⟨hp, fun t ht => hok t (mem_append_left _ ht), ha⟩

/-! ## Ownership in every run -/

/-- No allocation is refused while a fork copies the regions of the parent. -/
def ForksCopy (s : Sys) (a : List Grant × SysOp) : Prop :=
  a.2 = .fork → (schedFork (s.k.answering a.1) s.queue.cur).copied = true

lemma Owned.act {op : SysOp} (ha : s.Allowed op)
    (hfork : op = .fork → (schedFork s.k s.queue.cur).copied = true) : (s.act op).Owned b := by
  have hcur : AllOk s.queue.cur.vmas := h.ok _ mem_cons_self
  cases op with
  | create entryOk =>
    rcases hr : schedCreateTask s.k entryOk with ⟨r, k'⟩
    obtain ⟨rfl, hq⟩ | ⟨t, rfl, hsp, ⟨_, _, _, _, _, _, rfl, -⟩, -⟩ := schedCreateTask_cases hr
    · rw [Sys.act, hr]
      exact h.quiet hq
    · rw [Sys.act, hr]
      exact h.spawn hsp (forall_mem_nil _)
  | createKernel =>
    rcases hr : schedCreateKernelTask s.k with ⟨r, k'⟩
    obtain ⟨rfl, hq⟩ | ⟨t, rfl, hsp, -, -, hv⟩ := schedCreateKernelTask_cases hr
    · rw [Sys.act, hr]
      exact h.quiet hq
    · rw [Sys.act, hr]
      refine h.spawn hsp ?_
      rw [hv]
      exact forall_mem_nil _
  | call c =>
    rcases hr : userCall s.k s.queue.cur c with ⟨o, t, k⟩
    have heff := call_effect hcur ha (h.root_ne ha) hr
    have hres := h.resume (heff.local hcur) (heff.allOk hcur)
    rw [Sys.act, hr]
    cases o with
    | false => exact hres
    | true => exact hres.settle ((s.resume t k).queue.taskExit_shuffles (-1))
  | fork =>
    obtain ⟨hnone, hq⟩ | ⟨child, hsome, hf⟩ := schedFork_cases hcur rfl (hfork rfl)
    · simp only [Sys.act, hnone]
      exact h.quiet hq
    · simp only [Sys.act, hsome]
      exact h.spawn hf.spawned (Forked.allOk hf hcur)
  | exit code => exact h.settle (s.queue.taskExit_shuffles code)
  | kill pid => exact h.settle (s.queue.killTask_shuffles pid)
  | waitpid pidArg options => exact h.settle (s.queue.waitpid_shuffles pidArg options)
  | yield => exact h.settle s.queue.schedule_shuffles
  | sleep ms => exact h.settle (s.queue.sleepMs_shuffles s.ticks ms)
  | tick =>
    obtain ⟨hp, hok, has⟩ := h.settle (s.queue.wakeSleepers_shuffles (s.ticks + 1))
    exact ⟨hp, hok, has⟩
  | reap => exact h.settle s.queue.reap_reapedTo.shuffles

/-- **One step keeps the ledger.** -/
lemma Owned.step {a : List Grant × SysOp} (ha : s.Allowed a.2)
    (hfork : s.ForksCopy a) : (s.step a).Owned b := by
  have hans : (s.answering a.1).Owned b := ⟨h.pages, h.ok, h.asid⟩
  obtain ⟨hp, hok, has⟩ := hans.act ha hfork
  exact ⟨hp, hok, has⟩

end

/-- **The ledger in every run** in which the forks copy what they have to. -/
lemma reach_owned (h : Reach Boot (fun s a => s.Allowed a.2 ∧ s.ForksCopy a) step s) :
    ∃ b, s.Owned b :=
  Reach.invariant (fun s => ∃ b, s.Owned b) (fun _ hb => ⟨_, hb.owned⟩)
    (fun _ _ ⟨b, hs⟩ hg => ⟨b, hs.step hg.1 hg.2⟩) h

/-! ## A small machine -/

instance (s : Sys) (op : SysOp) : Decidable (s.Allowed op) := by
  cases op <;> dsimp only [Allowed] <;> infer_instance

instance (s : Sys) : (a : List Grant × SysOp) → Decidable (s.ForksCopy a)
  | (gs, .fork) => decidable_of_iff ((schedFork (s.k.answering gs) s.queue.cur).copied = true)
      ⟨fun h _ => h, fun h => h rfl⟩
  | (_, .create _) | (_, .createKernel) | (_, .call _) | (_, .exit _) | (_, .kill _)
  | (_, .waitpid _ _) | (_, .yield) | (_, .sleep _) | (_, .tick) | (_, .reap) =>
    .isTrue fun h => nomatch h

/-- A megabyte of memory, one page of it reserved. -/
def smallCfg : MemCfg where
  totalPages := 256
  reservedPages := 1
  textPages := 1
  reserved_le := by decide
  text_le := by decide
  text_fits := by decide
  total_le := by decide

/-- The small machine after boot, with a single page of boot tables. -/
def smallBoot : Sys :=
  let r := (Kernel.boot smallCfg).mmuCreateUserTables
  ⟨r.2, ⟨idleTask, [], []⟩, 0, r.1⟩

lemma smallBoot_boot : smallBoot.Boot := by
  rcases hr : (Kernel.boot smallCfg).mmuCreateUserTables with ⟨l0, k⟩
  have hne : (Kernel.boot smallCfg).mmuCreateUserTables.1 ≠ 0 := by decide +kernel
  rw [hr] at hne
  have hs : smallBoot = ⟨k, ⟨idleTask, [], []⟩, 0, l0⟩ := by rw [smallBoot, hr]
  rw [hs]
  obtain ⟨h0, -⟩ | ⟨-, ht, p, gs, hc, rfl⟩ := Kernel.mmuCreateUserTables_cases hr
  · exact absurd h0 hne
  have hl0 : ttbrBaddr l0 = l0 := by
    have hb := ((ht.iff l0).mpr (.inl (mem_singleton_self l0))).bounds
    simp only [ttbrBaddr]
    omega
  refine ⟨rfl, fun _ _ _ => rfl, rfl, rfl, ?_⟩
  have hown := Ledger.take (ledger_nil (Kernel.boot smallCfg).pmm.Allocated) ht
  have htabs : ∀ q : Kernel, q.tables = update (Kernel.boot smallCfg).tables l0 .empty →
      q.tablePages l0 = [l0] := by
    intro q hq
    simp [Kernel.tablePages, hq, PageTable.empty, PageTable.pages]
  rw [hl0, htabs _ rfl]
  exact hown

lemma reach_small {guard : Sys → List Grant × SysOp → Prop} (run : List (List Grant × SysOp))
    (h : Obeys guard step smallBoot run) : Reach Boot guard step (run.foldl step smallBoot) :=
  have hboot : Reach Boot guard step smallBoot := .start smallBoot_boot
  hboot.obeys h

end Sys
end FermiOs
