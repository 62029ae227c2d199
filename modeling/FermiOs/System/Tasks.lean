import FermiOs.System.Step

/-!
# Properties of one address space

Several properties of the system say something about every user task, its records and its own page
table. Such a property holds in every run when it survives what happens to the task itself: its
creation, its calls, a fork that makes it; what the others do does not reach its table. `TaskProperty`
lists these obligations, and `Sys.allTasks_reach` is the induction over runs, done once.
-/

namespace FermiOs
open Library List
variable {freed : List Task} {q : Queue} {u : Task}

/-- `P` is kept by everything that happens to a task, for calls that meet `CallOk` and forks whose
parent meets `ForkOk`. -/
structure TaskProperty (P : Kernel → Task → Prop) (CallOk : Kernel → Task → Call → Prop)
    (ForkOk : Kernel → Task → Prop) : Prop where
  congr : ∀ {k k' : Kernel} {t t' : Task}, P k t → t'.core = t.core →
    k'.tables t.l0 = k.tables t.l0 → k'.pmm.cfg = k.pmm.cfg → P k' t'
  create : ∀ {k k' : Kernel} {t : Task} {entryOk : Bool}, schedCreateTask k entryOk = (some t, k') →
    P k' t
  fork : ∀ {k : Kernel} {parent child : Task}, P k parent → AllOk parent.vmas → ForkOk k parent →
    Forked k parent child (schedFork k parent) → P (schedFork k parent).k child
  call : ∀ {k k' : Kernel} {t t' : Task} {c : Call}, P k t → AllOk t.vmas →
    k.Owns (taskPages k t) → t.ttbr0 ≠ 0 → CallOk k t c → Effect k t c k' t' → P k' t'

namespace Sys

/-- The call or the fork of a step meets its condition. -/
def Meets (CallOk : Kernel → Task → Call → Prop) (ForkOk : Kernel → Task → Prop) (s : Sys)
    (a : List Grant × SysOp) : Prop :=
  match a.2 with
  | .call c => CallOk (s.k.answering a.1) s.queue.cur c
  | .fork => ForkOk (s.k.answering a.1) s.queue.cur
  | _ => True

instance (CallOk : Kernel → Task → Call → Prop) (ForkOk : Kernel → Task → Prop)
    [∀ k t c, Decidable (CallOk k t c)] [∀ k t, Decidable (ForkOk k t)] (s : Sys)
    (a : List Grant × SysOp) : Decidable (s.Meets CallOk ForkOk a) := by
  unfold Meets
  split <;> infer_instance

/-- Every user task that exists has the property. -/
def AllTasks (P : Kernel → Task → Prop) (s : Sys) : Prop :=
  ∀ t ∈ s.queue.all, t.ttbr0 ≠ 0 → P s.k t

variable {P : Kernel → Task → Prop} {CallOk : Kernel → Task → Call → Prop}
  {ForkOk : Kernel → Task → Prop} {b : Nat} {s : Sys}

/-- Steps that touch no table that is in use. -/
lemma AllTasks.congr (hP : TaskProperty P CallOk ForkOk) (h : s.AllTasks P) {k' : Kernel}
    (htab : ∀ t ∈ s.queue.all, t.ttbr0 ≠ 0 → k'.tables t.l0 = s.k.tables t.l0)
    (hcfg : k'.pmm.cfg = s.k.pmm.cfg) : ∀ t ∈ s.queue.all, t.ttbr0 ≠ 0 → P k' t :=
  fun t ht h0 => hP.congr (h t ht h0) rfl (htab t ht h0) hcfg

lemma Owned.tables_quiet (h : s.Owned b) {k' : Kernel} (hq : QuietStep s.k k') :
    ∀ t ∈ s.queue.all, t.ttbr0 ≠ 0 → k'.tables t.l0 = s.k.tables t.l0 := fun t ht h0 =>
  hq.tables t.l0 (h.mem_allocated (mem_append_right _ (root_mem_pagesOf ht h0)))

lemma Owned.tables_spawned (h : s.Owned b) {k' : Kernel} (hs : Spawned s.k u k') :
    ∀ t ∈ s.queue.all, t.ttbr0 ≠ 0 → k'.tables t.l0 = s.k.tables t.l0 := fun t ht h0 =>
  hs.tables t.l0 (h.mem_allocated (mem_append_right _ (root_mem_pagesOf ht h0)))

/-- A new task with the property joins. -/
lemma AllTasks.spawn (hP : TaskProperty P CallOk ForkOk) (h : s.AllTasks P) (ho : s.Owned b)
    {k' : Kernel} (hs : Spawned s.k u k') (hu : u.ttbr0 ≠ 0 → P k' u) :
    ({ s with k := k', queue := s.queue.insert u } : Sys).AllTasks P := by
  intro t ht h0
  rcases mem_cons.mp ((s.queue.insert_all u).mem_iff.mp ht) with rfl | ht
  · exact hu h0
  · exact h.congr hP (ho.tables_spawned hs) hs.cfg t ht h0

lemma foldl_schedFreeTask_tables (freed : List Task) (k : Kernel) :
    (freed.foldl schedFreeTask k).tables = k.tables ∧
      (freed.foldl schedFreeTask k).pmm.cfg = k.pmm.cfg := by
  induction freed generalizing k with
  | nil => exact ⟨rfl, rfl⟩
  | cons t freed ih =>
    obtain ⟨tlb, -, heq⟩ := schedFreeTask_eq k t
    obtain ⟨h1, h2⟩ := ih (schedFreeTask k t)
    rw [foldl_cons]
    refine ⟨h1.trans ?_, h2.trans ?_⟩
    · rw [heq]
    · rw [heq]
      exact Pmm.freeList_cfg _ _

/-! ## The tables of the others -/

/-- The table of a task that does not run. -/
lemma Owned.act_tables {op : SysOp} {t : Task} (h : s.Owned b) (ha : s.Allowed op)
    (hfork : op = .fork → (schedFork s.k s.queue.cur).copied = true)
    (ht : t ∈ s.queue.rest ++ s.queue.dead) (h0 : t.ttbr0 ≠ 0) :
    (s.act op).k.tables t.l0 = s.k.tables t.l0 := by
  have hroot := h.mem_allocated (mem_append_right _ (root_mem_pagesOf (mem_cons_of_mem _ ht) h0))
  have henroll : ∀ r, (s.enroll r).k = r.2 := by rintro ⟨_ | _, _⟩ <;> rfl
  have hcur := h.ok _ mem_cons_self
  cases op with
  | create entryOk =>
    rw [Sys.act, henroll]
    obtain ⟨-, hq⟩ | ⟨u, -, hsp, -⟩ := schedCreateTask_cases (rfl : schedCreateTask s.k entryOk = _)
    · exact hq.tables _ hroot
    · exact hsp.tables _ hroot
  | createKernel =>
    rw [Sys.act, henroll]
    obtain ⟨-, hq⟩ | ⟨u, -, hsp, -⟩ := schedCreateKernelTask_cases (k := s.k) rfl
    · exact hq.tables _ hroot
    · exact hsp.tables _ hroot
  | call c =>
    rcases hr : userCall s.k s.queue.cur c with ⟨o, u, k⟩
    have hl := (call_effect hcur ha (h.root_ne ha) hr).local hcur
    have hkept := hl.others h.front (mem_append_right _ (root_mem_pagesOf ht h0))
    rw [Sys.act, hr]
    cases o with
    | false => exact hkept
    | true => exact (congrFun (foldl_schedFreeTask_tables _ k).1 _).trans hkept
  | fork =>
    rw [Sys.act, henroll]
    obtain ⟨-, hq⟩ | ⟨child, -, hf⟩ := schedFork_cases hcur rfl (hfork rfl)
    · exact hq.tables _ hroot
    · exact hf.spawned.tables _ hroot
  | tick => rfl
  | exit _ | kill _ | waitpid _ _ | yield | sleep _ | reap =>
    exact congrFun (foldl_schedFreeTask_tables _ s.k).1 _

/-- **No step reaches the table of another task**, in any run whose forks copy the regions completely:
what the addresses of a task translate to changes only while it runs. -/
theorem others_translations_kept
    (h : Reach Boot (fun s a => s.Allowed a.2 ∧ s.ForksCopy a) step s) {a : List Grant × SysOp}
    (ha : s.Allowed a.2 ∧ s.ForksCopy a) {t : Task} (ht : t ∈ s.queue.rest ++ s.queue.dead)
    (h0 : t.ttbr0 ≠ 0) : (s.step a).k.leaf t.l0 = s.k.leaf t.l0 := by
  obtain ⟨b, ho⟩ := reach_owned h
  have hans : (s.answering a.1).Owned b := ⟨ho.pages, ho.ok, ho.asid⟩
  exact congrArg PageTable.leaf (hans.act_tables ha.1 ha.2 ht h0)

/-- Two user tasks, one of which runs. -/
def twoTasks : Sys := [([], .create true), ([], .create true), ([], .yield)].foldl step smallBoot

theorem others_translations_kept_exit : ∃ t ∈ twoTasks.queue.rest ++ twoTasks.queue.dead,
    (twoTasks.step ([], .exit 0)).k.leaf t.l0 = twoTasks.k.leaf t.l0 := by
  obtain ⟨t, ht, h0⟩ : ∃ t ∈ twoTasks.queue.rest ++ twoTasks.queue.dead, t.ttbr0 ≠ 0 := by
    decide +kernel
  exact ⟨t, ht, others_translations_kept (reach_small _ (by decide +kernel)) (by decide +kernel) ht h0⟩

variable (hP : TaskProperty P CallOk ForkOk)
include hP

section
variable (h : s.AllTasks P)
include h

/-- Records that were moved keep the property. -/
lemma AllTasks.shuffle (hs : s.queue.Shuffles q freed) {k' : Kernel}
    (htab : k'.tables = s.k.tables) (hcfg : k'.pmm.cfg = s.k.pmm.cfg) :
    ∀ t ∈ q.all, t.ttbr0 ≠ 0 → P k' t := by
  intro t ht h0
  obtain ⟨u, hu, hcore⟩ := hs.of_mem (mem_append_left freed ht)
  have httbr := Task.ttbr0_of_core hcore
  exact hP.congr (h u hu (httbr ▸ h0)) hcore.symm (by rw [htab]) hcfg

lemma AllTasks.settle (hs : s.queue.Shuffles q freed) : (s.settle q freed).AllTasks P := by
  obtain ⟨htab, hcfg⟩ := foldl_schedFreeTask_tables freed s.k
  exact h.shuffle hP hs htab hcfg

variable (ho : s.Owned b)
include ho

/-- The current task made a call. -/
lemma AllTasks.resume {c : Call} {k' : Kernel} {t' : Task} (huser : s.queue.cur.ttbr0 ≠ 0)
    (hc : CallOk s.k s.queue.cur c) (heff : Effect s.k s.queue.cur c k' t') :
    (s.resume t' k').AllTasks P := by
  have hcur := ho.ok _ mem_cons_self
  have hl := heff.local hcur
  intro t ht h0
  rcases mem_cons.mp ht with rfl | ht
  · refine hP.call (h _ mem_cons_self huser) hcur ?_ huser hc heff
    exact ho.front.sublist (sublist_append_left _ _)
  · have htab := hl.others ho.front (mem_append_right _ (root_mem_pagesOf ht h0))
    exact hP.congr (h t (mem_cons_of_mem _ ht) h0) rfl htab hl.cfg

lemma AllTasks.act {op : SysOp} (ha : s.Allowed op)
    (hcopied : op = .fork → (schedFork s.k s.queue.cur).copied = true)
    (hcall : ∀ c, op = .call c → CallOk s.k s.queue.cur c)
    (hfork : op = .fork → ForkOk s.k s.queue.cur) : (s.act op).AllTasks P := by
  have hcur : AllOk s.queue.cur.vmas := ho.ok _ mem_cons_self
  cases op with
  | create entryOk =>
    rcases hr : schedCreateTask s.k entryOk with ⟨r, k'⟩
    obtain ⟨rfl, hq⟩ | ⟨t, rfl, hsp, -⟩ := schedCreateTask_cases hr
    · rw [Sys.act, hr]
      exact h.congr hP (ho.tables_quiet hq) hq.cfg
    · rw [Sys.act, hr]
      exact h.spawn hP ho hsp fun _ => hP.create hr
  | createKernel =>
    rcases hr : schedCreateKernelTask s.k with ⟨r, k'⟩
    obtain ⟨rfl, hq⟩ | ⟨t, rfl, hsp, h0, -⟩ := schedCreateKernelTask_cases hr
    · rw [Sys.act, hr]
      exact h.congr hP (ho.tables_quiet hq) hq.cfg
    · rw [Sys.act, hr]
      exact h.spawn hP ho hsp fun hne => absurd h0 hne
  | call c =>
    rcases hr : userCall s.k s.queue.cur c with ⟨o, t, k⟩
    have heff := call_effect hcur ha (ho.root_ne ha) hr
    have hres := h.resume hP ho ha (hcall c rfl) heff
    rw [Sys.act, hr]
    cases o with
    | false => exact hres
    | true => exact hres.settle hP ((s.resume t k).queue.taskExit_shuffles (-1))
  | fork =>
    obtain ⟨hnone, hq⟩ | ⟨child, hsome, hf⟩ := schedFork_cases hcur rfl (hcopied rfl)
    · simp only [Sys.act, hnone]
      exact h.congr hP (ho.tables_quiet hq) hq.cfg
    · simp only [Sys.act, hsome]
      exact h.spawn hP ho hf.spawned fun _ =>
        hP.fork (h _ mem_cons_self ha) hcur (hfork rfl) hf
  | exit code => exact h.settle hP (s.queue.taskExit_shuffles code)
  | kill pid => exact h.settle hP (s.queue.killTask_shuffles pid)
  | waitpid pidArg options => exact h.settle hP (s.queue.waitpid_shuffles pidArg options)
  | yield => exact h.settle hP s.queue.schedule_shuffles
  | sleep ms => exact h.settle hP (s.queue.sleepMs_shuffles s.ticks ms)
  | tick => exact h.shuffle hP (s.queue.wakeSleepers_shuffles (s.ticks + 1)) rfl rfl
  | reap => exact h.settle hP s.queue.reap_reapedTo.shuffles

/-- **A property of tasks holds in every run** whose calls and forks meet the conditions. -/
lemma AllTasks.step {a : List Grant × SysOp} (ha : s.Allowed a.2) (hcopied : s.ForksCopy a)
    (hmeets : s.Meets CallOk ForkOk a) : (s.step a).AllTasks P := by
  have hans : (s.answering a.1).AllTasks P := fun t ht h0 => hP.congr (h t ht h0) rfl rfl rfl
  have hoans : (s.answering a.1).Owned b := ⟨ho.pages, ho.ok, ho.asid⟩
  have hact := hans.act hP hoans ha hcopied
    (fun c hc => by rw [Meets, hc] at hmeets; exact hmeets)
    (fun hc => by rw [Meets, hc] at hmeets; exact hmeets)
  exact fun t ht h0 => hP.congr (hact t ht h0) rfl rfl rfl

end

lemma allTasks_reach
    (h : Reach Boot (fun s a => s.Allowed a.2 ∧ s.ForksCopy a ∧ s.Meets CallOk ForkOk a) step s) :
    ∃ b, s.Owned b ∧ s.AllTasks P := by
  refine Reach.invariant (fun s => ∃ b, s.Owned b ∧ s.AllTasks P) ?_ ?_ h
  · intro s hb
    refine ⟨_, hb.owned, fun t ht h0 => ?_⟩
    rw [hb.queue] at ht
    rw [mem_singleton.mp ht] at h0
    exact absurd rfl h0
  · rintro s a ⟨b, ho, hs⟩ ⟨ha, hcopied, hmeets⟩
    exact ⟨b, ho.step ha hcopied, hs.step hP ho ha hcopied hmeets⟩

end Sys
end FermiOs
